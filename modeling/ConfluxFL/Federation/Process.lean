import ConfluxFL.Lib.Decimal
import ConfluxFL.Lib.Run
import Mathlib.Data.List.Basic

/-! One federation as separate processes: the supervisor starts the server, the nodes, the
clients and the observers, waits for the last two, and returns. A run interleaves what the
supervisor does with children that end on their own. -/
namespace ConfluxFL

/-- How a process ended; a signal leaves no code. -/
structure ExitStatus where
  code : Option ℤ
  deriving DecidableEq, Repr

def ExitStatus.success (status : ExitStatus) : Bool := status.code = some 0

/-- The processes started so far, by number, each with how it ended. -/
abbrev ProcTable := List (Option ExitStatus)

namespace ProcTable

def Running (t : ProcTable) (pid : ℕ) : Prop := t[pid]? = some none

instance (t : ProcTable) (pid : ℕ) : Decidable (t.Running pid) :=
  inferInstanceAs (Decidable (t[pid]? = some none))

def ends (t : ProcTable) (pid : ℕ) (status : ExitStatus) : ProcTable :=
  if t.Running pid then t.set pid (some status) else t

/-- Those among `pids` that are still running are ended by a signal. -/
def kill (t : ProcTable) (pids : List ℕ) : ProcTable :=
  t.mapIdx fun pid p => if pid ∈ pids then some (p.getD ⟨none⟩) else p

variable {t : ProcTable} {pid pid' : ℕ} {pids : List ℕ} {status : ExitStatus}

theorem Running.lt_length (h : t.Running pid) : pid < t.length :=
  (List.getElem?_eq_some_iff.mp h).1

@[simp] theorem length_ends : (t.ends pid status).length = t.length := by
  unfold ends
  split_ifs <;> simp

theorem Running.of_ends (h : (t.ends pid status).Running pid') : t.Running pid' := by
  unfold ends at h
  split_ifs at h with hr
  · by_cases heq : pid = pid'
    · rwa [← heq]
    · rwa [Running, List.getElem?_set_ne heq] at h
  · exact h

@[simp] theorem running_kill : (t.kill pids).Running pid ↔ t.Running pid ∧ pid ∉ pids := by
  unfold Running kill
  rw [List.getElem?_mapIdx]
  by_cases h : pid ∈ pids
  · cases t[pid]? <;> simp [h]
  · cases t[pid]? <;> simp [h]

theorem running_append (h : pid < t.length) (p : Option ExitStatus) :
    ProcTable.Running (t++[p]) pid ↔ t.Running pid := by
  unfold Running
  rw [List.getElem?_append_left h]

end ProcTable

structure Spawn where
  program : String
  args : List String
  env : List (String × String)

namespace Spawn

def flag (s : Spawn) (flag value : String) : Spawn := { s with args := s.args++[flag,value] }

/-- What an operator would type to run this by hand. -/
def recipe (s : Spawn) : String :=
  String.join (s.env.map fun e => e.1++"="++e.2++" ")++s.program++
    String.join (s.args.map fun a => " "++a)

end Spawn

structure ProcessParticipant where
  clientId : String
  node : Spawn
  client : Spawn

/-- A client that attaches to the node of a participant. -/
structure Observer where
  clientId : String
  node : ℕ
  spawn : Spawn

/-- The timeouts are in milliseconds. -/
structure ProcessPlan where
  server : Spawn
  participants : List ProcessParticipant
  observers : List Observer
  rounds : ℕ
  startupTimeout : ℕ
  runTimeout : ℕ
  logDir : String

structure ProcessOutcome where
  index : ℕ
  clientId : String
  exitCode : Option ℤ
  deriving DecidableEq, Repr

structure ProcessSummary (α : Type) where
  clients : List ProcessOutcome
  serverGrpcAddr : α
  serverHttpAddr : α
  recipe : List String
  deriving DecidableEq, Repr

inductive ProcessError where
  | spawn (label program source : String)
  | diedDuringStartup (label : String) (status : ExitStatus) (log : String)
  | startupTimeout (label : String) (timeout : ℕ) (log : String)
  | unreadableAddrFile (label key : String) (lines : List String)
  | clientFailed (index : ℕ) (clientId : String) (status : ExitStatus) (log : String)
  | stalled (timeout total : ℕ) (unfinished : List String)
  | noSuchNode (observer : String) (node participants : ℕ)
  | log (path source : String)
  deriving DecidableEq, Repr

/-- Where `run_watching` stands. -/
inductive Stage (α : Type) where
  | createDir
  | spawnServer
  | awaitGrpc (child : ℕ)
  | awaitHttp (child : ℕ)
  | awaitHealth (child : ℕ)
  | spawnNode (i : ℕ)
  | awaitNode (i child : ℕ)
  | spawnClient (i : ℕ)
  | spawnObserver (i : ℕ)
  /-- A turn of the waiting loop: the clients, then the observers, then the clock. -/
  | pollClient (k : ℕ) (stillRunning : List String)
  | pollObserver (j : ℕ) (stillRunning : List String)
  | readClock (stillRunning : List String) (observersDone : Bool)
  | returned (result : Except ProcessError (ProcessSummary α))

/-- A client process, with its outcome once the waiting loop has seen it end. -/
structure ClientChild where
  index : ℕ
  clientId : String
  child : ℕ
  outcome : Option ProcessOutcome
  deriving DecidableEq, Repr

/-- The supervisor and its processes. `children` are the ones `Drop` stops; the clients are
tracked apart. -/
structure Supervisor (α : Type) where
  procs : ProcTable
  children : List (String × ℕ)
  clients : List ClientChild
  recipe : List String
  grpcAddr : Option α
  httpAddr : Option α
  nodeUrls : List String
  stage : Stage α

/-- How starting a process turns out. -/
inductive SpawnAnswer where
  | noLog (source : String)
  | noProgram (source : String)
  | started
  deriving DecidableEq, Repr

/-- What one turn of `await_addr` finds: the lines of the address file if it can be read, the
clock at each of the two places that ask it, whether asking for the child fails, and the tail of
the log. -/
structure Look where
  lines : Option (List String)
  lateAtFile : Bool
  waitFails : Bool
  late : Bool
  log : String

inductive ProcessEvent where
  /-- A process ends on its own. -/
  | exits (pid : ℕ) (status : ExitStatus)
  | createsDir (answer : Except String Unit)
  | spawns (answer : SpawnAnswer)
  | looks (look : Look)
  | probes (healthy waitFails late : Bool) (log : String)
  | polls (waitFails : Bool) (log : String)
  | clock (late : Bool)

/-- How the text of an address is read and written. -/
structure AddrText (α : Type) where
  parse : String → Option α
  display : α → String

namespace ProcessPlan
variable (plan : ProcessPlan)

def addrFile (label : String) : String := s!"{plan.logDir}/{label}.addr"
def logPath (label : String) : String := s!"{plan.logDir}/{label}.log"

def serverCommand : Spawn :=
  ((plan.server.flag "--addr-file" (plan.addrFile "server")).flag "--grpc-addr" "127.0.0.1:0").flag
    "--http-addr" "127.0.0.1:0"

def nodeCommand (grpcUrl label : String) (p : ProcessParticipant) : Spawn :=
  (((p.node.flag "--addr-file" (plan.addrFile label)).flag "--server" grpcUrl).flag
    "--client-id" p.clientId).flag "--local-addr" "127.0.0.1:0"

def clientCommand (nodeUrl : String) (p : ProcessParticipant) : Spawn :=
  ((p.client.flag "--address" nodeUrl).flag "--client-id" p.clientId).flag
    "--rounds" (toString plan.rounds)

def spawnError (label : String) (cmd : Spawn) : SpawnAnswer → Option ProcessError
  | .noLog source => some (.log (plan.logPath label) source)
  | .noProgram source => some (.spawn label cmd.program source)
  | .started => none

/-- The next client to poll, then the observers, then the clock. -/
def observingStage {α : Type} (j : ℕ) (stillRunning : List String) : Stage α :=
  if j < plan.observers.length then .pollObserver j stillRunning
  else .readClock stillRunning true

def pollStage {α : Type} (clients : List ClientChild) (k : ℕ) (stillRunning : List String) :
    Stage α :=
  if k < clients.length then .pollClient k stillRunning else plan.observingStage 0 stillRunning

def observerStage {α : Type} (clients : List ClientChild) (i : ℕ) : Stage α :=
  if i < plan.observers.length then .spawnObserver i else plan.pollStage clients 0 []

def clientStage {α : Type} (clients : List ClientChild) (i : ℕ) : Stage α :=
  if i < plan.participants.length then .spawnClient i else plan.observerStage clients 0

def nodeStage {α : Type} (clients : List ClientChild) (i : ℕ) : Stage α :=
  if i < plan.participants.length then .spawnNode i else plan.clientStage clients 0

end ProcessPlan

def nodeLabel (i : ℕ) : String := s!"node-{i}"
def clientLabel (i : ℕ) : String := s!"client-{i}"
def Observer.label (o : Observer) (i : ℕ) : String := s!"observer-{i}-{o.clientId}"

section Await
variable {α : Type} (text : AddrText α)

/-- The address on the first line that starts with the key. -/
def addrIn (key : String) (lines : List String) : Option α :=
  (lines.findSome? (Decimal.stripPrefix (key++"="))).bind text.parse

/-- One turn of `await_addr`; without an address or an error there is another. -/
def awaitAddr (label key : String) (timeout : ℕ) (status : Option ExitStatus) (look : Look) :
    Except ProcessError (Option α) :=
  match look.lines.bind (addrIn text key),look.lines with
  | some addr,_ => .ok (some addr)
  | none,some (line::lines) =>
    if look.lateAtFile then .error (.unreadableAddrFile label key (line::lines))
    else checkChild
  | none,_ => checkChild
where
  checkChild : Except ProcessError (Option α) :=
    match status with
    | some status => .error (.diedDuringStartup label status look.log)
    | none => if look.late then .error (.startupTimeout label timeout look.log) else .ok none

end Await

namespace Supervisor
variable {α : Type} (text : AddrText α) (plan : ProcessPlan) (s : Supervisor α)

def start : Supervisor α where
  procs := []
  children := []
  clients := []
  recipe := []
  grpcAddr := none
  httpAddr := none
  nodeUrls := []
  stage := .createDir

/-- The processes `Children` holds. -/
def tracked : List ℕ := s.children.map Prod.snd

/-- Return. `Children` is dropped: what it holds is killed if it still runs, and waited for.
Dropping the clients does nothing to them. -/
def finish (result : Except ProcessError (ProcessSummary α)) : Supervisor α :=
  { s with procs := s.procs.kill s.tracked, stage := .returned result }

def grpcUrl : String := "http://"++(s.grpcAddr.map text.display).getD ""

/-- `try_wait`; a process that runs has no status. -/
def tryWait (child : ℕ) (fails : Bool) : Except Unit (Option ExitStatus) :=
  if fails then .error () else .ok s.procs[child]?.join

/-- `try_wait` where an error is passed over. -/
def status (child : ℕ) (fails : Bool) : Option ExitStatus :=
  match s.tryWait child fails with
  | .ok status => status
  | .error _ => none

/-- A label that is not there, and a child that cannot be asked for, count as exited. -/
def hasExited (label : String) (waitFails : Bool) : Bool :=
  match s.children.lookup label with
  | none => true
  | some child =>
    match s.tryWait child waitFails with
    | .ok none => false
    | _ => true

/-- Start a process that `Children` holds. -/
def track (label : String) (cmd : Spawn) (answer : SpawnAnswer) (next : ℕ → Stage α) :
    Supervisor α :=
  match plan.spawnError label cmd answer with
  | some e => s.finish (.error e)
  | none => { s with
      procs := s.procs++[none]
      children := s.children++[(label,s.procs.length)]
      recipe := s.recipe++[cmd.recipe]
      stage := next s.procs.length }

/-- Start the client of participant `i`. -/
def trackClient (i : ℕ) (p : ProcessParticipant) (answer : SpawnAnswer) : Supervisor α :=
  let cmd := plan.clientCommand (s.nodeUrls[i]?.getD "") p
  match plan.spawnError (clientLabel i) cmd answer with
  | some e => s.finish (.error e)
  | none =>
    let clients := s.clients++[⟨i,p.clientId,s.procs.length,none⟩]
    { s with
      procs := s.procs++[none]
      clients := clients
      recipe := s.recipe++[cmd.recipe]
      stage := plan.clientStage clients (i+1) }

/-- The check on an observer's node comes before its process is started. -/
def trackObserver (i : ℕ) (o : Observer) (answer : SpawnAnswer) : Supervisor α :=
  match s.nodeUrls[o.node]? with
  | none => s.finish (.error (.noSuchNode o.clientId o.node s.nodeUrls.length))
  | some url => s.track plan (o.label i) (o.spawn.flag "--address" url) answer
      fun _ => plan.observerStage s.clients (i+1)

def onSpawn (answer : SpawnAnswer) : Supervisor α :=
  match s.stage with
  | .spawnServer => s.track plan "server" plan.serverCommand answer .awaitGrpc
  | .spawnNode i =>
    match plan.participants[i]? with
    | some p => s.track plan (nodeLabel i) (plan.nodeCommand (s.grpcUrl text) (nodeLabel i) p)
        answer (.awaitNode i)
    | none => s
  | .spawnClient i =>
    match plan.participants[i]? with
    | some p => s.trackClient plan i p answer
    | none => s
  | .spawnObserver i =>
    match plan.observers[i]? with
    | some o => s.trackObserver plan i o answer
    | none => s
  | _ => s

/-- One turn of waiting for the address a child reports. -/
def await (label key : String) (child : ℕ) (look : Look) (found : α → Supervisor α) :
    Supervisor α :=
  match awaitAddr text label key plan.startupTimeout (s.status child look.waitFails) look with
  | .error e => s.finish (.error e)
  | .ok none => s
  | .ok (some addr) => found addr

def onLook (look : Look) : Supervisor α :=
  match s.stage with
  | .awaitGrpc child => s.await text plan "server" "grpc" child look fun addr =>
      { s with grpcAddr := some addr, stage := .awaitHttp child }
  | .awaitHttp child => s.await text plan "server" "http" child look fun addr =>
      { s with httpAddr := some addr, stage := .awaitHealth child }
  | .awaitNode i child => s.await text plan (nodeLabel i) "local" child look fun addr =>
      { s with
        nodeUrls := s.nodeUrls++[text.display addr]
        stage := plan.nodeStage s.clients (i+1) }
  | _ => s

/-- One turn of waiting for the server to answer. -/
def onProbe (healthy waitFails late : Bool) (log : String) : Supervisor α :=
  match s.stage with
  | .awaitHealth child =>
    if healthy then { s with stage := plan.nodeStage s.clients 0 }
    else
      match s.status child waitFails with
      | some status => s.finish (.error (.diedDuringStartup "server" status log))
      | none =>
        if late then s.finish (.error (.startupTimeout "server" plan.startupTimeout log)) else s
  | _ => s

/-- Ask for one client, unless its outcome is known. -/
def pollClient (k : ℕ) (stillRunning : List String) (c : ClientChild) (waitFails : Bool)
    (log : String) : Supervisor α :=
  if c.outcome.isSome then { s with stage := plan.pollStage s.clients (k+1) stillRunning }
  else
    match s.status c.child waitFails with
    | none => { s with stage := plan.pollStage s.clients (k+1) (stillRunning++[c.clientId]) }
    | some status =>
      if status.success then
        let clients := s.clients.set k
          { c with outcome := some ⟨c.index,c.clientId,status.code⟩ }
        { s with clients := clients, stage := plan.pollStage clients (k+1) stillRunning }
      else s.finish (.error (.clientFailed c.index c.clientId status log))

/-- Ask for one client, or for one observer until one has not exited. -/
def onPoll (waitFails : Bool) (log : String) : Supervisor α :=
  match s.stage with
  | .pollClient k stillRunning =>
    match s.clients[k]? with
    | some c => s.pollClient plan k stillRunning c waitFails log
    | none => s
  | .pollObserver j stillRunning =>
    match plan.observers[j]? with
    | some o =>
      if s.hasExited (o.label j) waitFails then
        { s with stage := plan.observingStage (j+1) stillRunning }
      else { s with stage := .readClock stillRunning false }
    | none => s
  | _ => s

/-- The end of a turn of the waiting loop; the clock is asked only when the run goes on. -/
def onClock (late : Bool) : Supervisor α :=
  match s.stage with
  | .readClock stillRunning observersDone =>
    if stillRunning = [] ∧ observersDone then
      match s.grpcAddr,s.httpAddr with
      | some grpc,some http =>
        s.finish (.ok ⟨s.clients.filterMap ClientChild.outcome,grpc,http,s.recipe⟩)
      | _,_ => s
    else if late then
      s.finish (.error (.stalled plan.runTimeout s.clients.length stillRunning))
    else { s with stage := plan.pollStage s.clients 0 [] }
  | _ => s

def onCreateDir (answer : Except String Unit) : Supervisor α :=
  match s.stage,answer with
  | .createDir,.ok _ => { s with stage := .spawnServer }
  | .createDir,.error source => s.finish (.error (.log plan.logDir source))
  | _,_ => s

def step : ProcessEvent → Supervisor α
  | .exits pid status => { s with procs := s.procs.ends pid status }
  | .createsDir answer => s.onCreateDir plan answer
  | .spawns answer => s.onSpawn text plan answer
  | .looks look => s.onLook text plan look
  | .probes healthy waitFails late log => s.onProbe plan healthy waitFails late log
  | .polls waitFails log => s.onPoll plan waitFails log
  | .clock late => s.onClock plan late

def run (events : List ProcessEvent) : Supervisor α := Run.after (step text plan) start events

end Supervisor
end ConfluxFL
