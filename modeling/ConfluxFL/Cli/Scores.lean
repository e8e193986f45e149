import ConfluxFL.Cli.ServerEnv
import ConfluxFL.Federation.Demo
import ConfluxFL.Federation.Observing
import ConfluxFL.Lib.Decimal

/-! The scores that `cflux fed run` reports when every participant is a process: each client leaves
its own in a file of the log directory, and the command reads the files back after the run. The
directory outlives the command, and so may clients of a run that was given up. -/
namespace ConfluxFL

/-- What `cflux fed run --isolation process` was asked for, resolved. -/
structure Invocation where
  clients : ℕ
  rounds : ℕ
  timeoutSecs : ℕ
  model : DemoModel
  clientCommand : Option (List String)
  resolved : ResolvedConfig
  mode : Mode

/-- The file a client's score is handed over in. -/
def scorePath (logDir clientId : String) : String := s!"{logDir}/{clientId}.score"

namespace Invocation
variable (exe logDir : String) (inv : Invocation)

def ownExe (subcommand : List String) : Spawn := ⟨exe,subcommand,[]⟩

/-- The clients are the command's own demo clients, unless a command is given for them. -/
def isDemo : Bool := (inv.clientCommand.getD []).isEmpty

def clientSpawn (clientId : String) : Spawn :=
  match inv.clientCommand.getD [] with
  | program::args => ⟨program,args,[]⟩
  | [] => ((ownExe exe ["fed","client"]).flag "--model" inv.model.name).flag
      "--score-file" (scorePath logDir clientId)

/-- The plan of `run_as_processes`. -/
def plan : ProcessPlan where
  server := ⟨exe,["server","start"],serverEnv inv.resolved inv.mode inv.model.weightsDim⟩
  participants := (List.range inv.clients).map fun i =>
    let clientId := s!"client-{i}"
    ⟨clientId,ownExe exe ["node","start"],inv.clientSpawn exe logDir clientId⟩
  observers := []
  rounds := inv.rounds
  startupTimeout := 60000
  runTimeout := inv.timeoutSecs*1000
  logDir := logDir

end Invocation

/-- What a demo client writes about its score. -/
def scoreText (score : DemoScore) : String :=
  s!"label={score.label}\nvalue={score.value.display}\n"

/-- One line of a score file; a value that is no number unsets the one before it. -/
def readLine (s : Option String × Option F32) (line : String) : Option String × Option F32 :=
  match Decimal.stripPrefix "label=" line with
  | some rest => (some rest,s.2)
  | none =>
    match Decimal.stripPrefix "value=" line with
    | some rest => (s.1,F32.parse rest)
    | none => s

/-- The score in the text of a file. -/
def scoreIn (text : String) : Option (String × F32) :=
  match (TextLines.lines text).foldl readLine (none,none) with
  | (some label,some value) => some (label,value)
  | _ => none

structure ScoreReport where
  label : String
  value : F32
  clientsReporting : ℕ
  deriving DecidableEq, Repr

/-- The mean under the first label, if there is a score at all. -/
def scoreReport (scores : List (String × F32)) : Option ScoreReport :=
  scores.head?.map fun s =>
    ⟨s.1,F32.sum (scores.map Prod.snd)/F32.ofNat scores.length,scores.length⟩

/-- A file with the invocation whose client touched it last, which nothing reads; there is none for
what is older than all of them. -/
structure ScoreFile where
  text : Option String
  author : Option ℕ
  deriving DecidableEq, Repr

/-- The score it holds, with the one it comes from. -/
def ScoreFile.score (file : ScoreFile) : Option (Option ℕ × String × F32) :=
  (file.text.bind scoreIn).map fun s => (file.author,s)

/-- What was found for one client of a summary. -/
structure ReadBack where
  clientId : String
  file : ScoreFile
  deriving DecidableEq, Repr

/-- An invocation on its way. `scored` are the demo clients that have written their score, and
`wrote` what its clients last put at a path, which is read by nothing. -/
structure FedRun (α : Type) where
  invocation : Invocation
  supervisor : Supervisor α
  interrupted : Bool
  scored : List ℕ
  wrote : String → Option String
  readBack : List ReadBack

inductive LogEvent where
  | begins (inv : Invocation)
  /-- A step of the supervisor of an invocation, or the end of one of its processes. -/
  | process (k : ℕ) (e : ProcessEvent)
  /-- The command is killed. -/
  | interrupts (k : ℕ)
  /-- A demo client writes the score of the last global model it saw. -/
  | scores (k child : ℕ) (global : List F32)
  /-- A client that was started by a command writes a file of the directory, or removes it. -/
  | writes (k child : ℕ) (path : String) (text : Option String)
  /-- The command reads the file of its next client. -/
  | reads (k : ℕ)

namespace FedRun
variable {α : Type} (text : AddrText α) (exe logDir : String) (r : FedRun α)

def begin (inv : Invocation) : FedRun α := ⟨inv,Supervisor.start,false,[],fun _ => none,[]⟩

/-- The client that runs as this process. -/
def client (child : ℕ) : Option ClientChild :=
  if r.supervisor.procs.Running child then r.supervisor.clients.find? fun c => c.child = child
  else none

/-- A demo client with a score ends well only after writing it. -/
def mayEnd (pid : ℕ) (status : ExitStatus) : Bool :=
  !(status.success && r.invocation.isDemo && r.invocation.model.score.isSome &&
    (r.client pid).isSome && !r.scored.contains pid)

/-- A command that was killed takes no step any more; its processes still end. -/
def process (e : ProcessEvent) : FedRun α :=
  let stepped := { r with supervisor := r.supervisor.step text (r.invocation.plan exe logDir) e }
  match e with
  | .exits pid status => if r.mayEnd pid status then stepped else r
  | _ => if r.interrupted then r else stepped

def summary : Option (ProcessSummary α) :=
  match r.supervisor.stage with
  | .returned (.ok summary) => some summary
  | _ => none

/-- The client whose file is read next, once the run was a success. -/
def next : Option ProcessOutcome :=
  if r.interrupted then none else r.summary.bind fun s => s.clients[r.readBack.length]?

/-- The command has ended: it was killed, or failed, or has read every file. -/
def ended : Bool :=
  r.interrupted || match r.supervisor.stage with
    | .returned (.ok summary) => summary.clients.length ≤ r.readBack.length
    | .returned (.error _) => true
    | _ => false

/-- The scores it reports. -/
def scores : List (String × F32) := r.readBack.filterMap fun b => b.file.text.bind scoreIn

/-- What its own clients left at a path. -/
def own (k : ℕ) (path : String) : ScoreFile := ⟨r.wrote path,some k⟩

end FedRun

/-- A log directory and the invocations that share it, in the order they began. -/
structure LogDirectory (α : Type) where
  files : String → ScoreFile
  runs : List (FedRun α)

namespace LogDirectory
variable {α : Type} (text : AddrText α) (exe logDir : String) (d : LogDirectory α)

/-- Nothing is known of what is there before the first invocation. -/
def start (old : String → Option String) : LogDirectory α := ⟨fun path => ⟨old path,none⟩,[]⟩

def setRun (k : ℕ) (r : FedRun α) : LogDirectory α := { d with runs := d.runs.set k r }

/-- A client of invocation `k` puts a text at a path; the file is replaced as a whole. -/
def put (k : ℕ) (r : FedRun α) (path : String) (text : Option String) : LogDirectory α where
  files := Function.update d.files path ⟨text,some k⟩
  runs := d.runs.set k { r with wrote := Function.update r.wrote path text }

/-- The end of a demo client, once. Without a score, or with a model too short for it, there is
nothing to write. -/
def onScores (k : ℕ) (r : FedRun α) (child : ℕ) (global : List F32) : LogDirectory α :=
  match r.invocation.isDemo && !r.scored.contains child,r.client child,
    r.invocation.model.score.bind (· global) with
  | true,some c,some score =>
    d.put k { r with scored := child::r.scored } (scorePath logDir c.clientId)
      (some (scoreText score))
  | _,_,_ => d

def onWrites (k : ℕ) (r : FedRun α) (child : ℕ) (path : String) (text : Option String) :
    LogDirectory α :=
  match r.invocation.isDemo,r.client child with
  | false,some _ => d.put k r path text
  | _,_ => d

/-- One turn of `collect_scores`. -/
def onReads (k : ℕ) (r : FedRun α) : LogDirectory α :=
  match r.next with
  | some o => d.setRun k { r with readBack := r.readBack++
      [⟨o.clientId,d.files (scorePath logDir o.clientId)⟩] }
  | none => d

/-- What a step of invocation `k` makes of the directory. -/
def onRun (k : ℕ) (f : FedRun α → LogDirectory α) : LogDirectory α :=
  match d.runs[k]? with
  | some r => f r
  | none => d

/-- Invocations follow one another; what any other step is about is one of those that began. -/
def step : LogEvent → LogDirectory α
  | .begins inv =>
    if d.runs.all FedRun.ended then { d with runs := d.runs++[FedRun.begin inv] } else d
  | .process k e => d.onRun k fun r => d.setRun k (r.process text exe logDir e)
  | .interrupts k => d.onRun k fun r => d.setRun k { r with interrupted := true }
  | .scores k child global => d.onRun k fun r => d.onScores logDir k r child global
  | .writes k child path t => d.onRun k fun r => d.onWrites k r child path t
  | .reads k => d.onRun k fun r => d.onReads logDir k r

def after (old : String → Option String) (events : List LogEvent) : LogDirectory α :=
  Run.after (step text exe logDir) (start old) events

/-- Every invocation has read back what its own clients wrote, and from them. -/
def Genuine : Prop := ∀ (k : ℕ) (r : FedRun α), d.runs[k]? = some r → ∀ b ∈ r.readBack,
  b.file.score = (r.own k (scorePath logDir b.clientId)).score

/-- A file that is read was touched last by a client of the invocation that reads it, or neither
the file nor what those clients wrote there holds a score. -/
def Fresh (d : LogDirectory α) : LogEvent → Prop
  | .reads k => ∀ r ∈ d.runs[k]?, ∀ o ∈ r.next,
    (d.files (scorePath logDir o.clientId)).author = some k ∨
      (d.files (scorePath logDir o.clientId)).score = none ∧
        (r.own k (scorePath logDir o.clientId)).score = none
  | _ => True

end LogDirectory
end ConfluxFL
