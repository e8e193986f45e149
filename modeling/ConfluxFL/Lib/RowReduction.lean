import Mathlib.Algebra.BigOperators.Field
import Mathlib.Data.Matrix.ColumnRowPartitioned
import Mathlib.LinearAlgebra.Matrix.NonsingularInverse

/-! Elimination on a linear system with its right-hand sides beside it. What a pivot does to the
rows keeps the kernel of the whole, and two systems with one kernel have the same solutions. -/
namespace RowReduction
open Matrix

section Clear
variable {m k K : Type*} [DecidableEq m] [Field K] {A : Matrix m k K}

/-- Divide row `c` by its entry in column `j`, and subtract from every other row as much of it as
clears the column. -/
def clear (A : Matrix m k K) (c : m) (j : k) : Matrix m k K := fun i l =>
  if i = c then A c l/A c j else A i l-A i j*(A c l/A c j)

variable {c : m} {j l : k}

theorem clear_column (h : A c j ≠ 0) (i : m) : clear A c j i j = if i = c then 1 else 0 := by
  unfold clear
  split
  · exact div_self h
  · rw [div_self h, mul_one, sub_self]

/-- A column with a zero in the pivot row stays. -/
theorem clear_of_eq_zero (h : A c l = 0) (i : m) : clear A c j i l = A i l := by
  unfold clear
  split
  · next hi => rw [hi, h, zero_div]
  · rw [h, zero_div, mul_zero, sub_zero]

end Clear

section Kernel
variable {m k K : Type*} [Fintype k] [Field K] {A B C : Matrix m k K}

/-- The same combinations of the columns vanish. -/
def SameKernel (A B : Matrix m k K) : Prop := ∀ v, A *ᵥ v = 0 ↔ B *ᵥ v = 0

theorem SameKernel.refl (A : Matrix m k K) : SameKernel A A := fun _ => Iff.rfl

theorem SameKernel.trans (h : SameKernel A B) (h' : SameKernel B C) : SameKernel A C :=
  fun v => (h v).trans (h' v)

/-- The order of the rows does not matter. -/
theorem sameKernel_submatrix (A : Matrix m k K) (σ : Equiv.Perm m) :
    SameKernel (A.submatrix σ id) A := by
  intro v
  have hrow (i : m) : (A.submatrix σ id *ᵥ v) i = (A *ᵥ v) (σ i) := rfl
  constructor
  · intro h
    funext i
    rw [← σ.apply_symm_apply i, ← hrow, h]
    rfl
  · intro h
    funext i
    rw [hrow, h]
    rfl

variable [DecidableEq m] {c : m} {j : k}

theorem clear_mulVec (A : Matrix m k K) (c : m) (j : k) (v : k → K) (i : m) :
    (clear A c j *ᵥ v) i = if i = c then (A *ᵥ v) c/A c j
      else (A *ᵥ v) i-A i j*((A *ᵥ v) c/A c j) := by
  have hpivot : ∑ l, A c l/A c j*v l = (A *ᵥ v) c/A c j := by
    rw [mulVec, dotProduct, Finset.sum_div]
    exact Finset.sum_congr rfl fun l _ => by ring
  rw [mulVec, dotProduct]
  split
  · next hi =>
    rw [← hpivot]
    exact Finset.sum_congr rfl fun l _ => by rw [clear, if_pos hi]
  · next hi =>
    rw [← hpivot, mulVec, dotProduct, Finset.mul_sum, ← Finset.sum_sub_distrib]
    exact Finset.sum_congr rfl fun l _ => by
      rw [clear, if_neg hi]
      ring

theorem sameKernel_clear (h : A c j ≠ 0) : SameKernel (clear A c j) A := by
  intro v
  constructor
  · intro hv
    have hrow := congrFun hv
    simp only [clear_mulVec] at hrow
    have hc : (A *ᵥ v) c = 0 := by
      have hdiv := hrow c
      rw [if_pos rfl] at hdiv
      exact (div_eq_zero_iff.mp hdiv).resolve_right h
    funext i
    by_cases hi : i = c
    · rw [hi, hc]
      rfl
    · have hsub := hrow i
      rw [if_neg hi, hc, zero_div, mul_zero, sub_zero] at hsub
      exact hsub
  · intro hv
    funext i
    rw [clear_mulVec, hv, Pi.zero_apply, zero_div, mul_zero, Pi.zero_apply, sub_zero]
    exact ite_self _

end Kernel

section Systems
variable {n w K : Type*} [Fintype n] [Fintype w] [DecidableEq n] [Field K] {M : Matrix n n K}
  {R X : Matrix n w K}

/-- A system that reduces to the identity has the right-hand sides left over as its solution. -/
theorem SameKernel.mul_eq [DecidableEq w] (h : SameKernel (fromCols M R) (fromCols 1 X)) : M*X = R := by
  ext i j
  have hv := (h (Sum.elim (fun l => X l j) (-Pi.single j 1))).mpr (by
    rw [fromCols_mulVec, Sum.elim_comp_inl, Sum.elim_comp_inr, one_mulVec, mulVec_neg,
      mulVec_single_one]
    exact add_neg_cancel _)
  rw [fromCols_mulVec, Sum.elim_comp_inl, Sum.elim_comp_inr, mulVec_neg, mulVec_single_one,
    add_neg_eq_zero] at hv
  exact congrFun hv i

/-- It has no other. -/
theorem SameKernel.isUnit (h : SameKernel (fromCols M R) (fromCols 1 X)) : IsUnit M := by
  rw [← mulVec_injective_iff_isUnit]
  refine (injective_iff_map_eq_zero M.mulVecLin).mpr fun v hv => ?_
  have hker := (h (Sum.elim v 0)).mp (by
    rw [fromCols_mulVec, Sum.elim_comp_inl, Sum.elim_comp_inr, mulVec_zero, add_zero]
    exact hv)
  rwa [fromCols_mulVec, Sum.elim_comp_inl, Sum.elim_comp_inr, mulVec_zero, add_zero,
    one_mulVec] at hker

end Systems
end RowReduction
