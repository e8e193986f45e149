import Mathlib.Algebra.BigOperators.Intervals
import Mathlib.Algebra.BigOperators.Ring.Finset
import Mathlib.Algebra.Order.Ring.Defs
import Mathlib.Data.Nat.Choose.Basic
import Mathlib.Tactic.Linarith
import Mathlib.Tactic.Ring

/-! The mean of a sequence at a binomially distributed index, and how it moves with the number of
trials, their rate and the sequence. -/
namespace Binomial
open Finset
variable {R : Type*} [CommRing R]

/-- One trial at a time: a success moves the sequence on by one. -/
def mean : ℕ → R → (ℕ → R) → R
  | 0, _, a => a 0
  | n+1, q, a => (1-q)*mean n q a+q*mean n q fun k => a (k+1)

/-- The same as a sum over the number of successes. -/
theorem mean_eq_sum (n : ℕ) (q : R) (a : ℕ → R) :
    mean n q a = ∑ k ∈ range (n+1), n.choose k*(1-q)^(n-k)*q^k*a k := by
  induction n generalizing a with
  | zero => simp [mean]
  | succ n ih =>
    -- Pascal's rule splits the later terms into those of the two means
    have hsucc : ∀ k ∈ range (n+1), ((n+1).choose (k+1) : R)*(1-q)^(n+1-(k+1))*q^(k+1)*a (k+1) =
        q*(n.choose k*(1-q)^(n-k)*q^k*a (k+1))+n.choose (k+1)*(1-q)^(n-k)*q^(k+1)*a (k+1) := by
      intro k _
      rw [Nat.choose_succ_succ, Nat.add_sub_add_right, Nat.cast_add, pow_succ q]
      ring
    have hfirst : ∀ k ∈ range n, (n.choose (k+1) : R)*(1-q)^(n-k)*q^(k+1)*a (k+1) =
        (1-q)*(n.choose (k+1)*(1-q)^(n-(k+1))*q^(k+1)*a (k+1)) := by
      intro k hk
      have hk' : n-k = n-(k+1)+1 := by
        have := mem_range.mp hk
        omega
      rw [hk', pow_succ (1-q)]
      ring
    have hmean : ∑ k ∈ range (n+1), (n.choose k : R)*(1-q)^(n-k)*q^k*a k =
        ∑ k ∈ range n, n.choose (k+1)*(1-q)^(n-(k+1))*q^(k+1)*a (k+1)+(1-q)^n*a 0 := by
      simp [sum_range_succ']
    have hrest : ∑ k ∈ range (n+1), (n.choose (k+1) : R)*(1-q)^(n-k)*q^(k+1)*a (k+1) =
        (1-q)*∑ k ∈ range n, n.choose (k+1)*(1-q)^(n-(k+1))*q^(k+1)*a (k+1) := by
      rw [sum_range_succ, Nat.choose_succ_self, mul_sum, sum_congr rfl hfirst]
      simp
    have hzero : ((n+1).choose 0 : R)*(1-q)^(n+1-0)*q^0*a 0 = (1-q)*((1-q)^n*a 0) := by
      rw [Nat.choose_zero_right, Nat.sub_zero, pow_succ]
      push_cast
      ring
    rw [mean, ih, ih, hmean, sum_range_succ' _ (n+1), sum_congr rfl hsucc, sum_add_distrib,
      ← mul_sum, hrest, hzero]
    ring

theorem monotone_shift {α : Type*} [Preorder α] {a : ℕ → α} (ha : Monotone a) :
    Monotone fun k => a (k+1) :=
  fun _ _ h => ha (Nat.succ_le_succ h)

section Order
variable [LinearOrder R] [IsStrictOrderedRing R] {n n' : ℕ} {q q' : R} {a b : ℕ → R}

theorem mean_le_mean (hq : 0 ≤ q) (hq' : q ≤ 1) (h : ∀ k, a k ≤ b k) :
    mean n q a ≤ mean n q b := by
  induction n generalizing a b with
  | zero => exact h 0
  | succ n ih =>
    exact add_le_add (mul_le_mul_of_nonneg_left (ih h) (sub_nonneg.mpr hq'))
      (mul_le_mul_of_nonneg_left (ih fun k => h (k+1)) hq)

theorem mean_le_shift (hq : 0 ≤ q) (hq' : q ≤ 1) (ha : Monotone a) :
    mean n q a ≤ mean n q fun k => a (k+1) :=
  mean_le_mean hq hq' fun k => ha (Nat.le_succ k)

/-- More trials reach further along an increasing sequence. -/
theorem mean_le_of_le (hq : 0 ≤ q) (hq' : q ≤ 1) (ha : Monotone a) (h : n ≤ n') :
    mean n q a ≤ mean n' q a := by
  induction n', h using Nat.le_induction with
  | base => exact le_rfl
  | succ m _ ih =>
    have hshift := mul_le_mul_of_nonneg_left (mean_le_shift (n := m) hq hq' ha) hq
    rw [mean]
    linarith

theorem le_mean (hq : 0 ≤ q) (hq' : q ≤ 1) (ha : Monotone a) : a 0 ≤ mean n q a :=
  mean_le_of_le hq hq' ha (Nat.zero_le n)

/-- And so does a higher rate. -/
theorem mean_le_of_rate_le (hq : 0 ≤ q) (hle : q ≤ q') (hq' : q' ≤ 1) (ha : Monotone a) :
    mean n q a ≤ mean n q' a := by
  induction n generalizing a with
  | zero => exact le_rfl
  | succ n ih =>
    have hgap := sub_nonneg.mpr (mean_le_shift (n := n) hq (hle.trans hq') ha)
    calc (1-q)*mean n q a+q*mean n q (fun k => a (k+1))
        = mean n q a+q*(mean n q (fun k => a (k+1))-mean n q a) := by ring
      _ ≤ mean n q a+q'*(mean n q (fun k => a (k+1))-mean n q a) :=
        add_le_add_right (mul_le_mul_of_nonneg_right hle hgap) _
      _ = (1-q')*mean n q a+q'*mean n q (fun k => a (k+1)) := by ring
      _ ≤ (1-q')*mean n q' a+q'*mean n q' (fun k => a (k+1)) :=
        add_le_add (mul_le_mul_of_nonneg_left (ih ha) (sub_nonneg.mpr hq'))
          (mul_le_mul_of_nonneg_left (ih (monotone_shift ha)) (hq.trans hle))

/-- A sequence that has grown by then has a larger mean than its start. -/
theorem lt_mean (hq : 0 < q) (hq' : q ≤ 1) (ha : Monotone a) (h : a 0 < a n) :
    a 0 < mean n q a := by
  induction n generalizing a with
  | zero => exact absurd h (lt_irrefl _)
  | succ n ih =>
    have hlow := mul_le_mul_of_nonneg_left (le_mean (n := n) hq.le hq' ha) (sub_nonneg.mpr hq')
    have hshift : a 0 < mean n q fun k => a (k+1) := by
      obtain hone | hone := (ha (Nat.le_add_left 1 n)).lt_or_eq
      · exact (ha (Nat.zero_le 1)).trans_lt (ih (monotone_shift ha) hone)
      · rw [← hone] at h
        exact h.trans_le (le_mean hq.le hq' (monotone_shift ha))
    have hhigh := mul_lt_mul_of_pos_left hshift hq
    rw [mean]
    linarith

end Order

end Binomial
