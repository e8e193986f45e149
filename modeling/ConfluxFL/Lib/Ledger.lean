import Mathlib.Algebra.BigOperators.Group.Finset.Piecewise
import Mathlib.Algebra.BigOperators.Group.Multiset.Basic
import Mathlib.Tactic.Abel

/-! Accounts of values on their way from owners to one receiver. What an owner issues is under
way until it is received or lost; a value that was issued may be sent a second time. -/
variable {ι V : Type*}

structure Ledger (ι V : Type*) where
  issued : ι → V
  received : V
  underWay : Multiset V
  lost : Multiset V
  repeated : Multiset V

namespace Ledger
variable [AddCommGroup V]

def empty : Ledger ι V := ⟨fun _ => 0,0,0,0,0⟩

/-- What can happen: an owner issues a value, one is sent again, or some of what is under way is
received and some is lost. -/
inductive Step [DecidableEq ι] (l : Ledger ι V) : Ledger ι V → Prop
  | issue (i : ι) (v : V) : Step l { l with
      issued := Function.update l.issued i (l.issued i+v)
      underWay := l.underWay+{v} }
  | again (v : V) : Step l { l with
      underWay := l.underWay+{v}
      repeated := l.repeated+{v} }
  | settle (taken dropped rest : Multiset V) (h : l.underWay = taken+dropped+rest) : Step l { l with
      received := l.received+taken.sum
      underWay := rest
      lost := l.lost+dropped }

/-- Every value issued or sent again is received, under way or lost. -/
def Balanced [Fintype ι] (l : Ledger ι V) : Prop :=
  ∑ i, l.issued i+l.repeated.sum = l.received+l.underWay.sum+l.lost.sum

theorem Step.refl [DecidableEq ι] (l : Ledger ι V) : Step l l := by
  have h := Step.settle (l := l) 0 0 l.underWay (by rw [add_zero, zero_add])
  rwa [Multiset.sum_zero, add_zero, add_zero] at h

section Balance
variable [Fintype ι]

theorem balanced_empty : (empty : Ledger ι V).Balanced := by
  simp [Balanced, empty]

theorem sum_update_add [DecidableEq ι] (f : ι → V) (i : ι) (v : V) :
    ∑ j, Function.update f i (f i+v) j = ∑ j, f j+v := by
  rw [Finset.sum_update_of_mem (Finset.mem_univ i), ← Finset.sum_sdiff
    (Finset.subset_univ {i}), Finset.sum_singleton]
  abel

theorem Balanced.step [DecidableEq ι] {l l' : Ledger ι V} (h : l.Balanced) (hs : Step l l') :
    l'.Balanced := by
  unfold Balanced at h ⊢
  cases hs with
  | issue i v =>
    rw [sum_update_add, Multiset.sum_add, Multiset.sum_singleton]
    calc ∑ j, l.issued j+v+l.repeated.sum
        = (∑ j, l.issued j+l.repeated.sum)+v := by abel
      _ = l.received+(l.underWay.sum+v)+l.lost.sum := by rw [h]; abel
  | again v =>
    rw [Multiset.sum_add, Multiset.sum_add, Multiset.sum_singleton, ← add_assoc, h]
    abel
  | settle taken dropped rest hsplit =>
    dsimp only
    rw [h, hsplit, Multiset.sum_add, Multiset.sum_add, Multiset.sum_add]
    abel

/-- With nothing under way the receiver has what was issued exactly when the values lost and
those sent again weigh the same. -/
theorem Balanced.received_eq_iff {l : Ledger ι V} (h : l.Balanced) (hnone : l.underWay = 0) :
    l.received = ∑ i, l.issued i ↔ l.lost.sum = l.repeated.sum := by
  rw [Balanced, hnone, Multiset.sum_zero, add_zero] at h
  constructor
  · intro heq
    rw [heq] at h
    exact (add_left_cancel h).symm
  · intro heq
    rw [heq] at h
    exact (add_right_cancel h).symm

end Balance
end Ledger
