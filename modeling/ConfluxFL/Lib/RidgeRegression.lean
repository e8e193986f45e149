import Mathlib.Algebra.Order.BigOperators.Group.List
import Mathlib.Algebra.Order.Ring.Defs
import Mathlib.LinearAlgebra.Matrix.Trace
import Mathlib.Tactic.Abel
import Mathlib.Tactic.Linarith

/-! Least squares with a ridge, for an unknown matrix on one side of the data. A solution of the
normal equations is the only minimiser: any change to it costs what the change itself costs. -/
namespace RidgeRegression
open Matrix
variable {m n K : Type*} [Fintype m] [Fintype n] [Field K]

/-- The sum of the squares of the entries. -/
def frobenius (A : Matrix m n K) : K := ∑ i, ∑ j, A i j^2

/-- Everything but the argument costs more. -/
def UniqueMin {α : Type*} (f : α → K) [LT K] (a : α) : Prop := ∀ b, b ≠ a → f a < f b

section Frobenius

theorem frobenius_eq_trace (A : Matrix m n K) : frobenius A = trace (A*Aᵀ) := by
  simp only [frobenius, trace, diag_apply, mul_apply, transpose_apply, sq]

theorem frobenius_transpose (A : Matrix m n K) : frobenius Aᵀ = frobenius A := Finset.sum_comm

theorem frobenius_add (A B : Matrix m n K) :
    frobenius (A+B) = frobenius A+2*trace (A*Bᵀ)+frobenius B := by
  have hsymm : trace (B*Aᵀ) = trace (A*Bᵀ) := by
    rw [← trace_transpose, transpose_mul, transpose_transpose]
  rw [frobenius_eq_trace, frobenius_eq_trace, frobenius_eq_trace, transpose_add, Matrix.add_mul,
    Matrix.mul_add, Matrix.mul_add, trace_add, trace_add, trace_add, hsymm]
  ring

variable [LinearOrder K] [IsStrictOrderedRing K] {A : Matrix m n K}

theorem frobenius_nonneg (A : Matrix m n K) : 0 ≤ frobenius A :=
  Finset.sum_nonneg fun _ _ => Finset.sum_nonneg fun _ _ => sq_nonneg _

theorem frobenius_pos (h : A ≠ 0) : 0 < frobenius A := by
  refine (frobenius_nonneg A).lt_of_ne fun hzero => h ?_
  ext i j
  have hrow := (Finset.sum_eq_zero_iff_of_nonneg fun i _ =>
    Finset.sum_nonneg fun j _ => sq_nonneg (A i j)).mp hzero.symm i (Finset.mem_univ i)
  exact pow_eq_zero_iff two_ne_zero |>.mp
    ((Finset.sum_eq_zero_iff_of_nonneg fun j _ => sq_nonneg (A i j)).mp hrow j (Finset.mem_univ j))

end Frobenius

section Left
variable [DecidableEq m] (ridge : K) (data : List (Matrix m n K × Matrix m n K)) (A : Matrix m m K)

/-- What is left of the second of each pair by the first under `A`, and a price on `A`. -/
def leftLoss : K := (data.map fun p => frobenius (p.2-A*p.1)).sum+ridge*frobenius A

/-- The normal equations, for `A` on the left. -/
def LeftNormal : Prop :=
  A*((data.map fun p => p.1*p.1ᵀ).sum+ridge • 1) = (data.map fun p => p.2*p.1ᵀ).sum

variable {ridge data A}

/-- The residuals of a solution are orthogonal to the data, up to the ridge. -/
theorem LeftNormal.sum_eq (h : LeftNormal ridge data A) :
    (data.map fun p => (p.2-A*p.1)*p.1ᵀ).sum = ridge • A := by
  have hsplit : (data.map fun p => (p.2-A*p.1)*p.1ᵀ).sum =
      (data.map fun p => p.2*p.1ᵀ).sum-A*(data.map fun p => p.1*p.1ᵀ).sum := by
    clear h
    induction data with
    | nil => simp
    | cons p data ih =>
      simp only [List.map_cons, List.sum_cons, ih]
      rw [Matrix.mul_add, Matrix.sub_mul, Matrix.mul_assoc]
      abel
  rw [hsplit, ← h, Matrix.mul_add, add_sub_cancel_left, Matrix.mul_smul, Matrix.mul_one]

/-- Completing the square. -/
theorem LeftNormal.leftLoss_add (h : LeftNormal ridge data A) (D : Matrix m m K) :
    leftLoss ridge data (A+D) = leftLoss ridge data A+leftLoss ridge (data.map fun p => (p.1,0)) D := by
  have hresiduals : (data.map fun p => frobenius (p.2-(A+D)*p.1)).sum =
      (data.map fun p => frobenius (p.2-A*p.1)).sum-
        2*trace ((data.map fun p => (p.2-A*p.1)*p.1ᵀ).sum*Dᵀ)+
          (data.map fun p => frobenius (0-D*p.1)).sum := by
    clear h
    induction data with
    | nil => simp
    | cons p data ih =>
      have hone : frobenius (p.2-(A+D)*p.1) = frobenius (p.2-A*p.1)-
          2*trace ((p.2-A*p.1)*p.1ᵀ*Dᵀ)+frobenius (0-D*p.1) := by
        rw [show p.2-(A+D)*p.1 = p.2-A*p.1+(0-D*p.1) by rw [Matrix.add_mul]; abel, frobenius_add,
          zero_sub, transpose_neg, Matrix.mul_neg, trace_neg, transpose_mul, ← Matrix.mul_assoc]
        ring
      simp only [List.map_cons, List.sum_cons, ih, hone]
      rw [Matrix.add_mul, trace_add]
      ring
  rw [leftLoss, hresiduals, h.sum_eq, Matrix.smul_mul, trace_smul, frobenius_add, leftLoss, leftLoss,
    List.map_map, smul_eq_mul]
  simp only [Function.comp_def]
  ring

variable [LinearOrder K] [IsStrictOrderedRing K]

theorem LeftNormal.uniqueMin (hridge : 0 < ridge) (h : LeftNormal ridge data A) :
    UniqueMin (leftLoss ridge data) A := by
  intro B hne
  have hD : 0 < leftLoss ridge (data.map fun p => (p.1,0)) (B-A) := by
    refine add_pos_of_nonneg_of_pos (List.sum_nonneg fun x hx => ?_)
      (mul_pos hridge (frobenius_pos (sub_ne_zero.mpr hne)))
    obtain ⟨p,-,rfl⟩ := List.mem_map.mp hx
    exact frobenius_nonneg _
  have hsum := h.leftLoss_add (B-A)
  rw [add_sub_cancel] at hsum
  linarith

end Left

section Right
variable [DecidableEq n] (ridge : K) (data : List (Matrix m n K × Matrix m n K)) (B : Matrix n n K)

def rightLoss : K := (data.map fun p => frobenius (p.2-p.1*B)).sum+ridge*frobenius B

/-- The normal equations, for `B` on the right. -/
def RightNormal : Prop :=
  ((data.map fun p => p.1ᵀ*p.1).sum+ridge • 1)*B = (data.map fun p => p.1ᵀ*p.2).sum

variable {ridge data B}

omit [DecidableEq n] in
theorem rightLoss_eq (B : Matrix n n K) :
    rightLoss ridge data B = leftLoss ridge (data.map fun p => (p.1ᵀ,p.2ᵀ)) Bᵀ := by
  rw [rightLoss, leftLoss, frobenius_transpose, List.map_map]
  refine congrArg (fun x => List.sum x+_) (List.map_congr_left fun p _ => ?_)
  rw [Function.comp_apply, ← transpose_mul, ← transpose_sub, frobenius_transpose]

theorem RightNormal.transpose (h : RightNormal ridge data B) :
    LeftNormal ridge (data.map fun p => (p.1ᵀ,p.2ᵀ)) Bᵀ := by
  have hgram := congrArg Matrix.transpose h
  rw [transpose_mul, transpose_add, transpose_smul, transpose_one, transpose_list_sum,
    transpose_list_sum, List.map_map, List.map_map] at hgram
  rw [LeftNormal, List.map_map, List.map_map]
  simp only [Function.comp_def, transpose_mul, transpose_transpose] at hgram ⊢
  exact hgram

variable [LinearOrder K] [IsStrictOrderedRing K]

theorem RightNormal.uniqueMin (hridge : 0 < ridge) (h : RightNormal ridge data B) :
    UniqueMin (rightLoss ridge data) B := by
  intro C hne
  rw [rightLoss_eq, rightLoss_eq]
  exact h.transpose.uniqueMin hridge Cᵀ fun heq => hne (transpose_injective heq)

end Right
end RidgeRegression
