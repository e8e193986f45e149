import ConfluxFL.Lib.Run
import ConfluxFL.Server.RoundSpec

/-! Process lifetimes over one set of durable state. Connecting assembles a process around what
the last one left behind; an attempt that crashes ends the process and one that panics ends its
round loop, any other attempt leaves it running, and the next attempt starts from whatever state
the last one reached. -/
namespace ConfluxFL
open Fallible RoundM
variable {κ : Type}

/-- The server and the process whose round loop runs it, if one does. -/
structure World (κ : Type) where
  server : Server κ
  running : Option (Deployment κ)

inductive Event (κ : Type) where
  | connect (d : Deployment κ) (initialWeights : List F32)
  | round (env : RoundEnv)

/-- A connection to the configured backend. Only the in-memory store starts afresh. -/
def AnyStore.connect (initialWeights : List F32) : AnyStore → AnyStore
  | .inMemory _ => .inMemory (.new initialWeights)
  | .postgres s => .postgres s
  | .s3 s => .s3 s

/-- The accountant a process starts with. -/
def startingAccountant (d : Deployment κ) (log : PrivacyRoundLog) : RdpAccountant :=
  if d.persistentAccounting then log.connectAccounting else .new

/-- The state of a fresh process: everything that is not durable is as new. -/
def assemble (d : Deployment κ) (initialWeights : List F32) (s : Server κ) : Server κ where
  round := 1
  store := s.store.connect initialWeights
  log := s.log
  accountant := startingAccountant d s.log
  aggregatorState := d.aggregator.init
  injected := ⟨none,none⟩
  currentBuffer := none
  roundVerdict := none
  pushed := []
  history := s.history

/-- An attempt that stops with an error comes back to its loop. -/
def Stop.returns : Stop → Bool
  | .err _ => true
  | _ => false

/-- Whether the round loop survives an attempt that ends like this. -/
def survives {α : Type} : EStateM.Result Stop (Server κ) α → Bool
  | .ok _ _ => true
  | .error stop _ => stop.returns

def World.step (w : World κ) : Event κ → World κ
  | .connect d initialWeights => ⟨assemble d initialWeights w.server,some d⟩
  | .round env =>
    match w.running with
    | none => w
    | some d =>
      let result := runRound d env w.server
      ⟨stateOf result,if survives result then some d else none⟩

/-- The event is an attempt at a round by the running process `d`. -/
def World.Attempts (w : World κ) (e : Event κ) (d : Deployment κ) (env : RoundEnv) : Prop :=
  w.running = some d ∧ e = .round env

variable {w : World κ} {d : Deployment κ} {env : RoundEnv}

theorem World.step_round (h : w.running = some d) : (w.step (.round env)).server =
    stateOf (runRound d env w.server) := by
  simp only [World.step, h]

theorem World.step_round_running (h : w.running = some d) {d' : Deployment κ}
    (h' : (w.step (.round env)).running = some d') : d' = d := by
  simp only [World.step, h] at h'
  split_ifs at h'
  exact (Option.some.inj h').symm

theorem World.step_survives (h : w.running = some d)
    (hs : survives (runRound d env w.server) = true) :
    (w.step (.round env)).running = some d := by
  simp only [World.step, h, hs, if_true]

theorem World.step_idle (h : w.running = none) : w.step (.round env) = w := by
  simp only [World.step, h]

/-- The invariant rule for worlds: connecting and attempting a round each keep it. -/
theorem World.step_invariant (I : World κ → Prop) (e : Event κ) (hI : I w)
    (hconnect : ∀ d initialWeights, e = .connect d initialWeights →
      I ⟨assemble d initialWeights w.server,some d⟩)
    (hround : ∀ d env, w.Attempts e d env → I (w.step e)) : I (w.step e) := by
  cases e with
  | connect d initialWeights => exact hconnect d initialWeights rfl
  | round env =>
    cases hr : w.running with
    | none =>
      rw [World.step_idle hr]
      exact hI
    | some d => exact hround d env ⟨hr,rfl⟩

/-- The same process with its privacy log in a database. -/
def Deployment.persistent (d : Deployment κ) : Deployment κ := { d with persistentAccounting := true }

end ConfluxFL
