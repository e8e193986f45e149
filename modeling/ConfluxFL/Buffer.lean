import Mathlib.Data.List.Basic

/-! The buffer that collects one round's submissions. Pushes are refused for another round and
after the snapshot was taken; the flush closes on quorum or on timeout and hands over what was
pushed before it, in the order of the pushes. -/
namespace ConfluxFL

/-- A submission knows the round it is for. -/
class HasRound (δ : Type) where
  round : δ → ℕ

inductive BufferError where
  | wrongRound (expected got : ℕ)
  | closed
  deriving DecidableEq, Repr

def BufferError.text : BufferError → String
  | .wrongRound expected got =>
    s!"delta is for round {got}, but this buffer is collecting round {expected}"
  | .closed => "this round's buffer already flushed; fetch the current task and resubmit"

inductive FlushReason | quorum | timeout
  deriving DecidableEq, Repr

structure FlushResult (δ : Type) where
  round : ℕ
  reason : FlushReason
  deltas : List δ

inductive BufferState (δ : Type) where
  | opened (deltas : List δ)
  | closed
  deriving DecidableEq, Repr

structure RoundBuffer (δ : Type) where
  round : ℕ
  quorum : ℕ
  state : BufferState δ
  deriving DecidableEq, Repr

namespace RoundBuffer
variable {δ : Type}

def new (round quorum : ℕ) : RoundBuffer δ := ⟨round,quorum,.opened []⟩

/-- The collected deltas; a closed buffer has none left. -/
def deltas (b : RoundBuffer δ) : List δ :=
  match b.state with
  | .opened deltas => deltas
  | .closed => []

def close (b : RoundBuffer δ) : RoundBuffer δ := { b with state := .closed }

def push [HasRound δ] (b : RoundBuffer δ) (delta : δ) : Except BufferError (RoundBuffer δ) :=
  if HasRound.round delta ≠ b.round then
    .error (.wrongRound b.round (HasRound.round delta))
  else
    match b.state with
    | .opened deltas => .ok { b with state := .opened (deltas++[delta]) }
    | .closed => .error .closed

/-- The buffer after a push, whatever the caller was told. -/
def pushed [HasRound δ] (b : RoundBuffer δ) (delta : δ) : RoundBuffer δ :=
  match b.push delta with
  | .ok b' => b'
  | .error _ => b

def closeIfQuorumMet (b : RoundBuffer δ) : Option (List δ × RoundBuffer δ) :=
  match b.state with
  | .opened deltas => if b.quorum ≤ deltas.length then some (deltas,b.close) else none
  | .closed => none

def closeAndTake (b : RoundBuffer δ) : List δ × RoundBuffer δ := (b.deltas,b.close)

/-- A wait whose closing check runs after `pushes`. With the quorum met it closes on quorum,
unless the deadline check won the race; without it, it waits for the deadline. -/
def awaitFlush [HasRound δ] (b : RoundBuffer δ) (pushes : List δ) (timedOut : Bool) :
    FlushResult δ × RoundBuffer δ :=
  let b := pushes.foldl pushed b
  match if timedOut then none else b.closeIfQuorumMet with
  | some (deltas,b') => (⟨b.round,.quorum,deltas⟩,b')
  | none => (⟨b.round,.timeout,b.closeAndTake.1⟩,b.closeAndTake.2)

/-- Closing on quorum takes what closing on timeout takes, when it closes. -/
theorem closeIfQuorumMet_cases (b : RoundBuffer δ) :
    b.closeIfQuorumMet = none ∨ b.closeIfQuorumMet = some b.closeAndTake := by
  unfold closeIfQuorumMet closeAndTake deltas
  split
  · split
    · exact .inr rfl
    · exact .inl rfl
  · exact .inl rfl

section Push
variable [HasRound δ]

/-- A push is taken exactly when the buffer is open and collects that round. -/
theorem push_ok_iff {b b' : RoundBuffer δ} {delta : δ} : b.push delta = .ok b' ↔
    HasRound.round delta = b.round ∧ ∃ ds, b.state = .opened ds ∧
      b' = ⟨b.round,b.quorum,.opened (ds++[delta])⟩ := by
  obtain ⟨round,quorum,state⟩ := b
  unfold push
  by_cases hr : HasRound.round delta = round
  · cases state with
    | opened ds => simp [hr, eq_comm]
    | closed => simp [hr]
  · simp [hr]

theorem pushed_opened (round quorum : ℕ) (ds : List δ) (delta : δ) :
    (⟨round,quorum,.opened ds⟩ : RoundBuffer δ).pushed delta =
      ⟨round,quorum,.opened (ds++[delta].filter fun d => HasRound.round d = round)⟩ := by
  unfold pushed push
  by_cases hr : HasRound.round delta = round
  · simp [hr]
  · simp [hr]

theorem foldl_pushed (round quorum : ℕ) (ds pushes : List δ) :
    pushes.foldl pushed ⟨round,quorum,.opened ds⟩ =
      ⟨round,quorum,.opened (ds++pushes.filter fun d => HasRound.round d = round)⟩ := by
  induction pushes generalizing ds with
  | nil => simp
  | cons d pushes ih =>
    rw [List.foldl_cons, pushed_opened, ih, List.append_assoc, ← List.filter_append]
    rfl

/-- Whatever ends the wait, the flush holds exactly the pushes for its round, in order, and
the buffer is closed. -/
theorem awaitFlush_new (round quorum : ℕ) (pushes : List δ) (timedOut : Bool) :
    (new round quorum : RoundBuffer δ).awaitFlush pushes timedOut =
      (⟨round,
        if !timedOut && quorum ≤ (pushes.filter fun d => HasRound.round d = round).length
        then .quorum else .timeout,
        pushes.filter fun d => HasRound.round d = round⟩,
        ⟨round,quorum,.closed⟩) := by
  unfold awaitFlush new
  rw [foldl_pushed, List.nil_append]
  cases timedOut with
  | true => rfl
  | false =>
    simp only [closeIfQuorumMet, Bool.false_eq_true, if_false, Bool.not_false, Bool.true_and,
      decide_eq_true_eq]
    by_cases hq : quorum ≤ (pushes.filter fun d => HasRound.round d = round).length
    · rw [if_pos hq, if_pos hq]
      rfl
    · rw [if_neg hq, if_neg hq]
      rfl

end Push
end RoundBuffer
end ConfluxFL
