import Mathlib.Logic.Relation
import ConfluxFL.Server.RoundSpec

/-! One process serving its clients, access by access. A round and a call of `fetch_task` or
`submit_delta` each touch the shared state several times, and anything may happen in between;
no store or log operation fails. What an attempt computes is left out. -/
namespace ConfluxFL
variable {ι : Type}

/-- A submission, and the task its client trained on if it was one the server handed out. -/
structure Trained where
  submission : Submission
  task : Option TaskResponse

instance : HasRound Trained := ⟨fun x => x.submission.delta.round⟩

/-- The client trained on a task and echoes its round number. -/
def Trained.Echoes (x : Trained) (task : TaskResponse) : Prop :=
  x.task = some task ∧ x.submission.delta.round = task.round

/-- The task both connection modes carry for a round. -/
def taskOf (round : ℕ) (weights : List F32) (controlVariate : Option (List F32)) : TaskResponse :=
  { taskId := "round-"++toString round
    round := round
    modelWeights := encodeWeights weights
    controlVariate := controlVariate.map encodeWeights }

/-- Where an attempt stands: `round` and `weights` are what it read at its start, `slot` is the
buffer it opened. -/
inductive ServingPhase where
  | idle
  | begun (round : ℕ)
  | loaded (round : ℕ) (weights : List F32)
  | opened (round : ℕ) (weights : List F32) (slot : ℕ)
  | collecting (round : ℕ) (weights : List F32) (slot : ℕ)
  | closing (round : ℕ) (weights : List F32) (batch : List Trained)
  | saved (round : ℕ)
  | advanced
  | stopped

namespace ServingPhase

/-- The round number an attempt works under. -/
def round? : ServingPhase → Option ℕ
  | .begun round => some round
  | .loaded round _ => some round
  | .opened round _ _ => some round
  | .collecting round _ _ => some round
  | .closing round _ _ => some round
  | .saved round => some round
  | _ => none

/-- The weights an attempt has loaded and not replaced yet. -/
def weights? : ServingPhase → Option (List F32)
  | .loaded _ weights => some weights
  | .opened _ weights _ => some weights
  | .collecting _ weights _ => some weights
  | .closing _ weights _ => some weights
  | _ => none

/-- The places where an attempt can return an error. -/
def mayFail : ServingPhase → Bool
  | .begun _ => true
  | .loaded _ _ => true
  | .closing _ _ _ => true
  | _ => false

/-- The round the counter stands at flushes no more: its checkpoint is written and the counter
not moved yet, or the loop has stopped. -/
def isOver : ServingPhase → Bool
  | .saved _ => true
  | .stopped => true
  | _ => false

end ServingPhase

/-- Where a call of `fetch_task` stands between its reads. -/
inductive FetchPhase where
  | idle
  | gotRound (round : ℕ)
  | gotWeights (round : ℕ) (weights : List F32)

/-- A call of `submit_delta` may hold a buffer it has not pushed into yet. -/
inductive SubmitPhase where
  | idle
  | holding (slot : ℕ) (x : Trained)

/-- The shared state and everybody's place in the code. Buffers stay where they were opened, so
that a call can push into one that is no longer current; `handed` lists the tasks given out. -/
structure Serving (ι : Type) where
  round : ℕ
  store : AnyStore
  buffers : List (RoundBuffer Trained)
  current : Option ℕ
  phase : ServingPhase
  fetches : ι → FetchPhase
  submits : ι → SubmitPhase
  handed : List TaskResponse

namespace Serving

/-- A process that has just been assembled around a store. -/
def start (store : AnyStore) : Serving ι :=
  ⟨1,store,[],none,.idle,fun _ => .idle,fun _ => .idle,[]⟩

/-- Closing a buffer on quorum or on timeout. -/
def Closes (b : RoundBuffer Trained) (taken : List Trained × RoundBuffer Trained) : Prop :=
  b.closeIfQuorumMet = some taken ∨ b.closeAndTake = taken

variable [DecidableEq ι]

/-- One access by the round loop or by a call. -/
inductive Step : Serving ι → Serving ι → Prop
  | begins {s : Serving ι} (idle : s.phase = .idle) : Step s { s with phase := .begun s.round }
  | loads {s : Serving ι} {round : ℕ} {weights : List F32} (begun : s.phase = .begun round)
      (latest : s.store.loadLatestWeights = .ok weights) :
      Step s { s with phase := .loaded round weights }
  | opens {s : Serving ι} {round : ℕ} {weights : List F32}
      (loaded : s.phase = .loaded round weights) (quorum : ℕ) :
      Step s { s with
        buffers := s.buffers++[.new round quorum]
        current := some s.buffers.length
        phase := .opened round weights s.buffers.length }
  | broadcasts {s : Serving ι} {round slot : ℕ} {weights : List F32}
      (opened : s.phase = .opened round weights slot) (controlVariate : Option (List F32)) :
      Step s { s with
        handed := s.handed++[taskOf round weights controlVariate]
        phase := .collecting round weights slot }
  | flushes {s : Serving ι} {round slot : ℕ} {weights : List F32} {b : RoundBuffer Trained}
      {taken : List Trained × RoundBuffer Trained}
      (collecting : s.phase = .collecting round weights slot)
      (buffer : s.buffers[slot]? = some b) (closes : Closes b taken) :
      Step s { s with
        buffers := s.buffers.set slot taken.2
        phase := .closing round weights taken.1 }
  | saves {s : Serving ι} {round : ℕ} {weights : List F32} {batch : List Trained}
      (closing : s.phase = .closing round weights batch) (newWeights : List F32) :
      Step s { s with
        store := s.store.saveCheckpoint round newWeights
        phase := .saved round }
  | advances {s : Serving ι} {round : ℕ} (saved : s.phase = .saved round) :
      Step s { s with round := round+1, phase := .advanced }
  | clears {s : Serving ι} (advanced : s.phase = .advanced) :
      Step s { s with current := none, phase := .idle }
  | fails {s : Serving ι} (mayFail : s.phase.mayFail = true) : Step s { s with phase := .idle }
  | stops {s : Serving ι} : Step s { s with phase := .stopped }
  | readsRound {s : Serving ι} {i : ι} (idle : s.fetches i = .idle) :
      Step s { s with fetches := Function.update s.fetches i (.gotRound s.round) }
  | readsWeights {s : Serving ι} {i : ι} {round : ℕ} {weights : List F32}
      (got : s.fetches i = .gotRound round) (latest : s.store.loadLatestWeights = .ok weights) :
      Step s { s with fetches := Function.update s.fetches i (.gotWeights round weights) }
  | answers {s : Serving ι} {i : ι} {round : ℕ} {weights : List F32}
      (got : s.fetches i = .gotWeights round weights) (controlVariate : Option (List F32)) :
      Step s { s with
        fetches := Function.update s.fetches i .idle
        handed := s.handed++[taskOf round weights controlVariate] }
  | grabs {s : Serving ι} {i : ι} {slot : ℕ} {x : Trained} (idle : s.submits i = .idle)
      (trained : ∀ task, x.task = some task → task ∈ s.handed) (current : s.current = some slot) :
      Step s { s with submits := Function.update s.submits i (.holding slot x) }
  | pushes {s : Serving ι} {i : ι} {slot : ℕ} {x : Trained} {b b' : RoundBuffer Trained}
      (holding : s.submits i = .holding slot x) (buffer : s.buffers[slot]? = some b)
      (taken : b.push x = .ok b') :
      Step s { s with
        buffers := s.buffers.set slot b'
        submits := Function.update s.submits i .idle }
  | refuses {s : Serving ι} {i : ι} {slot : ℕ} {x : Trained}
      (holding : s.submits i = .holding slot x) :
      Step s { s with submits := Function.update s.submits i .idle }

/-- Any number of accesses, in any order. -/
def Reaches : Serving ι → Serving ι → Prop := Relation.ReflTransGen Step

end Serving
end ConfluxFL
