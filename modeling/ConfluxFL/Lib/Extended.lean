import Mathlib.Analysis.SpecialFunctions.Log.ENNRealLog
import Mathlib.Data.EReal.Inv
import ConfluxFL.Lib.Exact

/-! Exact arithmetic with both infinities. Nothing rounds, and the logarithm of zero is minus
infinity, as it is for the machine's numbers. -/

open Classical in
/-- Nothing rounds; roots and powers are taken of finite values. -/
noncomputable instance : Floating EReal where
  toAdd := inferInstance
  toSub := inferInstance
  toMul := inferInstance
  toDiv := inferInstance
  toZero := inferInstance
  toOne := inferInstance
  toOfScientific := ⟨fun m s e => ((OfScientific.ofScientific m s e : ℝ) : EReal)⟩
  negZero := 0
  ofNat n := n
  ofF32 x := x.toReal
  sqrt x := if x = ⊤ then ⊤ else (√x.toReal : ℝ)
  abs x := Max.max x (-x)
  ln x := ENNReal.log x.toENNReal
  pow x y := ((x.toReal^y.toReal : ℝ) : EReal)
  isFinite x := decide (x ≠ ⊤ ∧ x ≠ ⊥)
  isNaN _ := false
  le a b := decide (a ≤ b)
  lt a b := decide (a < b)
  beq a b := decide (a = b)
  totalLe a b := decide (a ≤ b)
  floorToNat x := ⌊x.toReal⌋₊
  ceilToNat x := ⌈x.toReal⌉₊

namespace Floating

@[simp] theorem lt_extended (a b : EReal) : lt a b = decide (a < b) := rfl
@[simp] theorem le_extended (a b : EReal) : le a b = decide (a ≤ b) := rfl
@[simp] theorem beq_extended (a b : EReal) : beq a b = decide (a = b) := rfl

@[simp] theorem max_extended (a b : EReal) : max a b = Max.max a b := by
  rw [max_def_lt]
  exact (if_neg Bool.false_ne_true).trans (if_congr decide_eq_true_iff rfl rfl)

theorem clamp_extended_mem (x : EReal) : 0 ≤ clamp x 0 1 ∧ clamp x 0 1 ≤ 1 := by
  unfold clamp
  split_ifs with hlo hhi
  · exact ⟨le_rfl,zero_le_one⟩
  · exact ⟨zero_le_one,le_rfl⟩
  · exact ⟨not_lt.mp fun h => hlo (decide_eq_true h),not_lt.mp fun h => hhi (decide_eq_true h)⟩

theorem le_foldl_max (xs : List EReal) (a : EReal) : a ≤ xs.foldl max a := by
  induction xs generalizing a with
  | nil => exact le_rfl
  | cons x xs ih => exact (le_max_left a x).trans ((max_extended a x).symm.le.trans (ih _))

/-- The greatest value does not depend on the order. -/
theorem foldl_max_perm {xs ys : List EReal} (h : xs.Perm ys) (a : EReal) :
    xs.foldl max a = ys.foldl max a := by
  refine h.foldl_eq' (fun x _ y _ z => ?_) a
  simp only [max_extended]
  exact max_right_comm z x y

@[simp] theorem ln_extended_zero : ln (0 : EReal) = ⊥ := by
  change ENNReal.log (0 : EReal).toENNReal = ⊥
  rw [EReal.toENNReal_zero, ENNReal.log_zero]

section Finite

theorem max_coe (a b : ℝ) : ((max a b : ℝ) : EReal) = max (a : EReal) b := by
  rw [max_real, max_extended]
  exact EReal.coe_strictMono.monotone.map_max

theorem clamp_coe (x : ℝ) : ((clamp x 0 1 : ℝ) : EReal) = clamp (x : EReal) 0 1 := by
  have hlo : lt (x : EReal) 0 = lt x 0 := decide_eq_decide.mpr EReal.coe_lt_coe_iff
  have hhi : lt (1 : EReal) x = lt 1 x := decide_eq_decide.mpr EReal.coe_lt_coe_iff
  unfold clamp
  rw [hlo, hhi]
  split_ifs <;> rfl

theorem sum_coe (xs : List ℝ) : ((sum xs : ℝ) : EReal) = sum (xs.map ((↑) : ℝ → EReal)) := by
  have hfold (a : ℝ) : ((xs.foldl (· + ·) a : ℝ) : EReal) =
      (xs.map ((↑) : ℝ → EReal)).foldl (· + ·) (a : EReal) := by
    induction xs generalizing a with
    | nil => rfl
    | cons x xs ih => exact ih (a+x)
  exact hfold 0

theorem foldl_max_coe (xs : List ℝ) (a : ℝ) :
    ((xs.foldl max a : ℝ) : EReal) = (xs.map ((↑) : ℝ → EReal)).foldl max (a : EReal) := by
  induction xs generalizing a with
  | nil => rfl
  | cons x xs ih => rw [List.foldl_cons, ih, max_coe, List.map_cons, List.foldl_cons]

end Finite
end Floating
