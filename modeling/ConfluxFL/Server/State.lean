import ConfluxFL.Buffer
import ConfluxFL.Config.Types
import ConfluxFL.Privacy.Log
import ConfluxFL.Server.Batch

/-! The server: what a process is assembled from, the state its rounds change, and the answers
the outside world gives while one attempt at a round runs. -/
namespace ConfluxFL

/-- Picks clients for a round; `entropy` is the operating system's contribution. -/
structure ClientSelector where
  select : (entropy : ℕ) → (active : List String) → (target round : ℕ) → List String

/-- The immutable part of one process. `budgetExhausted` answers whether the epsilon of a
history has reached the configured target. -/
structure Deployment (κ : Type) where
  config : ResolvedConfig
  aggregator : Aggregator κ
  selector : ClientSelector
  budgetExhausted : List RoundCost → Bool
  persistentAccounting : Bool
  sidecar : Bool

/-- A checkpoint write that took effect, with the batch its weights were aggregated from. -/
structure SavedCheckpoint where
  round : ℕ
  weights : List F32
  batch : List ClientDelta

/-- Everything a round reads and changes. `store` and `log` outlive the process; `history`
lists the checkpoint writes that took effect and is read by no function. -/
structure Server (κ : Type) where
  round : ℕ
  store : AnyStore
  log : PrivacyRoundLog
  accountant : RdpAccountant
  aggregatorState : κ
  injected : Injected
  currentBuffer : Option (RoundBuffer Submission)
  roundVerdict : Option Bool
  pushed : List TaskResponse
  history : List SavedCheckpoint

/-- The answer to a read: a value, a failure, or none because the process died waiting. -/
inductive Reply (ε α : Type) where
  | value (a : α)
  | fail (e : ε)
  | crash

/-- How a durable write ends. A failure or a crash may come after it took effect. -/
inductive WriteOutcome where
  | ok
  | fail (applied : Bool) (e : StoreError)
  | crash (applied : Bool)
  deriving DecidableEq, Repr

def WriteOutcome.applied : WriteOutcome → Bool
  | .ok => true
  | .fail applied _ => applied
  | .crash applied => applied

/-- One attempt at a round, seen from outside: the answers to its reads, the submissions that
reach its buffer before the flush, and how its durable writes end. -/
structure RoundEnv where
  load : Reply StoreError Unit
  active : Reply RegistryError (List String)
  entropy : ℕ
  arrivals : List Submission
  timedOut : Bool
  diesCollecting : Bool
  reference : Reply String (List UInt8)
  scores : Reply String (List (String × F32))
  save : WriteOutcome
  appendRound : WriteOutcome
  appendClient : ℕ → WriteOutcome

/-- Why an attempt ended early. -/
inductive Stop where
  | err (e : ServerError)
  /-- The task unwinds; the process lives. -/
  | panic (message : String)
  | crash
  deriving DecidableEq, Repr

abbrev RoundM (κ : Type) := EStateM Stop (Server κ)

namespace RoundM
variable {κ ε α : Type}

def ask (reply : Reply ε α) (wrap : ε → ServerError) : RoundM κ α :=
  match reply with
  | .value a => pure a
  | .fail e => throw (.err (wrap e))
  | .crash => throw .crash

/-- A durable write: its effect, if any, and then what the caller learns. -/
def perform (outcome : WriteOutcome) (effect : Server κ → Server κ) : RoundM κ Unit := do
  modify fun s => if outcome.applied then effect s else s
  match outcome with
  | .ok => pure ()
  | .fail _ e => throw (.err (.store e))
  | .crash _ => throw .crash

end RoundM

/-- A uniform sample that happened to draw the first candidates. -/
def ClientSelector.first : ClientSelector := ⟨fun _ active target _ => active.take target⟩

/-- A research process without noise, sidecar or durable accounting: the first recorded round
spends its budget, and it goes on. -/
def Deployment.noiseless {κ : Type} (aggregator : Aggregator κ) : Deployment κ where
  config := .noiseless
  aggregator := aggregator
  selector := .first
  budgetExhausted rounds := !rounds.isEmpty
  persistentAccounting := false
  sidecar := false

/-- Nothing but a store. -/
def Server.fresh {κ : Type} (store : AnyStore) (aggregatorState : κ) : Server κ :=
  ⟨1,store,.empty,.new,aggregatorState,⟨none,none⟩,none,none,[],[]⟩

/-- An attempt in which nothing fails: everybody who is active submits. -/
def RoundEnv.clean (arrivals : List Submission) : RoundEnv where
  load := .value ()
  active := .value (arrivals.map Submission.clientId).dedup
  entropy := 0
  arrivals := arrivals
  timedOut := false
  diesCollecting := false
  reference := .value []
  scores := .value []
  save := .ok
  appendRound := .ok
  appendClient _ := .ok

end ConfluxFL
