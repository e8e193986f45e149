import Mathlib.Data.List.Basic

/-! A notification cell with one waiter. Notifying wakes the waiter if it is parked and stores
a permit otherwise; permits do not add up. Polling consumes what was left for the waiter and
parks it when nothing was. -/

/-- The future the waiter holds: none, parked in the queue, or woken and not polled since. -/
inductive Waiter | absent | parked | notified
  deriving DecidableEq, Repr

structure Notify where
  permit : Bool
  waiter : Waiter
  deriving DecidableEq, Repr

namespace Notify

def new : Notify := ⟨false,.absent⟩

def notifyOne (n : Notify) : Notify :=
  match n.waiter with
  | .parked => { n with waiter := .notified }
  | _ => { n with permit := true }

/-- One poll of the waiter's future: whether it completes, and the cell afterwards. -/
def poll (n : Notify) : Bool × Notify :=
  match n.waiter with
  | .notified => (true,{ n with waiter := .absent })
  | .parked => (false,n)
  | .absent => if n.permit then (true,⟨false,.absent⟩) else (false,⟨false,.parked⟩)

/-- The waiter gives its future up. A notification it has not seen goes back to the cell. -/
def drop (n : Notify) : Notify :=
  match n.waiter with
  | .notified => ⟨true,.absent⟩
  | _ => { n with waiter := .absent }

/-- A poll would complete, now or as soon as it is made. -/
def pending (n : Notify) : Bool := n.permit || n.waiter = .notified

/-- Whoever notifies leaves something for the waiter. -/
theorem pending_notifyOne (n : Notify) : n.notifyOne.pending = true := by
  obtain ⟨permit,waiter⟩ := n
  cases waiter <;> simp [notifyOne, pending]

/-- A poll that does not complete takes nothing away. -/
theorem pending_poll {n : Notify} (h : n.poll.1 = false) : n.poll.2.pending = n.pending := by
  obtain ⟨permit,waiter⟩ := n
  cases waiter <;> cases permit <;> simp_all [poll, pending]

/-- No permit lies beside a parked waiter. -/
def Sound (n : Notify) : Prop := n.waiter = .parked → n.permit = false

theorem sound_notifyOne (n : Notify) : n.notifyOne.Sound := by
  obtain ⟨permit,waiter⟩ := n
  cases waiter <;> simp [notifyOne, Sound]

theorem Sound.poll {n : Notify} (h : n.Sound) : n.poll.2.Sound := by
  obtain ⟨permit,waiter⟩ := n
  cases waiter <;> cases permit <;> simp_all [Notify.poll, Sound]

theorem sound_drop (n : Notify) : n.drop.Sound := by
  obtain ⟨permit,waiter⟩ := n
  cases waiter <;> simp [drop, Sound]

/-- What is pending completes the next poll. -/
theorem Sound.poll_eq_true {n : Notify} (h : n.Sound) (hp : n.pending = true) :
    n.poll.1 = true := by
  obtain ⟨permit,waiter⟩ := n
  cases waiter <;> cases permit <;> simp_all [Notify.poll, Sound, pending]

end Notify
