import Mathlib.Data.Matrix.Mul
import Mathlib.Algebra.BigOperators.Fin
import ConfluxFL.Core.Flanders
import ConfluxFL.Lib.Coordinates
import ConfluxFL.Lib.Exact

/-! Dense matrices as lists of rows beside the matrices of linear algebra: what the loops over
rows and columns compute in exact arithmetic is the product, the transpose and the sum. -/
namespace ConfluxFL.Dense
open Flanders hiding Matrix
variable {n k w : ℕ}

section Shapes
variable {α : Type}

/-- The matrix row by row. -/
def rows (A : Matrix (Fin n) (Fin k) α) : List (List α) := List.ofFn fun i => List.ofFn (A i)

/-- As many rows as `n`, each with `k` entries. -/
structure Shaped (n k : ℕ) (a : List (List α)) : Prop where
  length_eq : a.length = n
  length_row : ∀ r ∈ a, r.length = k

theorem shaped_rows (A : Matrix (Fin n) (Fin k) α) : Shaped n k (rows A) where
  length_eq := List.length_ofFn
  length_row r hr := by
    obtain ⟨i,rfl⟩ := (List.mem_ofFn' _ _).mp hr
    exact List.length_ofFn

variable [Zero α]

/-- The entries of a list of rows. -/
def entries (n k : ℕ) (a : List (List α)) : Matrix (Fin n) (Fin k) α :=
  fun i j => (a.getD i []).getD j 0

omit [Zero α] in
theorem getD_rows (A : Matrix (Fin n) (Fin k) α) (i : Fin n) :
    (rows A).getD i [] = List.ofFn (A i) := by
  rw [List.getD_eq_getElem _ _ (i.2.trans_eq (shaped_rows A).length_eq.symm)]
  exact List.getElem_ofFn _

theorem getD_ofFn (f : Fin k → α) (j : Fin k) : (List.ofFn f).getD j 0 = f j := by
  rw [List.getD_eq_getElem _ _ (j.2.trans_eq List.length_ofFn.symm), List.getElem_ofFn]

@[simp] theorem entries_rows (A : Matrix (Fin n) (Fin k) α) : entries n k (rows A) = A := by
  funext i j
  rw [entries, getD_rows, getD_ofFn]

variable {a b : List (List α)}

omit [Zero α] in
theorem Shaped.length_getD (h : Shaped n k a) {i : ℕ} (hi : i < n) : (a.getD i []).length = k := by
  have hlen := h.length_eq
  rw [List.getD_eq_getElem _ _ (by omega)]
  exact h.length_row _ (List.getElem_mem _)

/-- A list of rows is known by its shape and its entries. -/
theorem Shaped.ext (ha : Shaped n k a) (hb : Shaped n k b) (h : entries n k a = entries n k b) :
    a = b := by
  refine Coordinates.ext_getD [] (ha.length_eq.trans hb.length_eq.symm) fun i hi => ?_
  have hin : i < n := hi.trans_eq ha.length_eq
  refine Coordinates.ext_getD 0 ((ha.length_getD hin).trans (hb.length_getD hin).symm) fun j hj => ?_
  exact congrFun (congrFun h ⟨i,hin⟩) ⟨j,hj.trans_eq (ha.length_getD hin)⟩

theorem Shaped.rows_entries (h : Shaped n k a) : rows (entries n k a) = a :=
  (shaped_rows _).ext h (entries_rows _)

omit [Zero α] in
theorem length_headD_rows (hn : 0 < n) (A : Matrix (Fin n) (Fin k) α) :
    ((rows A).headD []).length = k := by
  have hhead := (shaped_rows A).length_getD hn
  rwa [← List.headD_eq_getD] at hhead

end Shapes

section Operations
variable {A A' : Matrix (Fin n) (Fin k) ℝ} {B : Matrix (Fin k) (Fin w) ℝ}

theorem zeroMatrix_eq (n k : ℕ) : (zeroMatrix n k : List (List ℝ)) =
    rows (0 : Matrix (Fin n) (Fin k) ℝ) := by
  refine List.ext_getElem (by simp [zeroMatrix, rows]) fun i hi hi' => ?_
  simp only [zeroMatrix, zeros, rows, List.getElem_replicate, List.getElem_ofFn]
  exact (List.ofFn_const k 0).symm

theorem identity_eq (n : ℕ) : (identity n : List (List ℝ)) =
    rows (1 : Matrix (Fin n) (Fin n) ℝ) := by
  refine List.ext_getElem (by simp [identity, rows]) fun i hi hi' => ?_
  refine List.ext_getElem (by simp [identity, rows]) fun j hj hj' => ?_
  simp only [identity, rows, List.getElem_map, List.getElem_range, List.getElem_ofFn,
    Matrix.one_apply, Fin.mk.injEq]

theorem transpose_rows (hn : 0 < n) (A : Matrix (Fin n) (Fin k) ℝ) :
    transpose (rows A) = rows A.transpose := by
  have hhead := length_headD_rows hn A
  refine List.ext_getElem (by rw [transpose, List.length_map, List.length_range, hhead,
    (shaped_rows _).length_eq]) fun j hj hj' => ?_
  refine List.ext_getElem (by simp [transpose, rows]) fun i hi hi' => ?_
  have hjk : j < k := hj'.trans_eq (shaped_rows _).length_eq
  simp only [transpose, rows, List.getElem_map, List.getElem_range, List.getElem_ofFn,
    Matrix.transpose_apply]
  exact getD_ofFn _ ⟨j,hjk⟩

theorem addMatrix_rows (A A' : Matrix (Fin n) (Fin k) ℝ) :
    addMatrix (rows A) (rows A') = rows (A+A') := by
  refine List.ext_getElem (by simp [addMatrix, rows]) fun i hi hi' => ?_
  refine List.ext_getElem (by simp [addMatrix, rows]) fun j hj hj' => ?_
  simp only [addMatrix, rows, List.getElem_zipWith, List.getElem_ofFn, Matrix.add_apply]

theorem addRidge_rows (ridge : ℝ) (A : Matrix (Fin n) (Fin n) ℝ) :
    addRidge ridge (rows A) = rows (A+ridge • 1) := by
  refine List.ext_getElem (by simp [addRidge, rows]) fun i hi hi' => ?_
  refine List.ext_getElem (by simp [addRidge, rows]) fun j hj hj' => ?_
  simp only [addRidge, rows, List.getElem_mapIdx, List.getElem_ofFn, Matrix.add_apply,
    Matrix.smul_apply, Matrix.one_apply, Fin.mk.injEq, smul_eq_mul, mul_ite, mul_one, mul_zero]
  split
  · rfl
  · rw [add_zero]

/-- One row of a product; the factors that are skipped would add nothing. -/
theorem matmul_row (hk : 0 < k) (r : Fin k → ℝ) (B : Matrix (Fin k) (Fin w) ℝ) :
    (List.range (rows B).length).foldl (fun acc p =>
      if Floating.beq ((List.ofFn r).getD p 0) 0 then acc
      else acc.zipWith (fun x y => x+(List.ofFn r).getD p 0*y) ((rows B).getD p []))
        (zeros ((rows B).headD []).length) = List.ofFn fun j => ∑ p, r p*B p j := by
  have hlen : (zeros ((rows B).headD []).length : List ℝ).length = w := by
    rw [zeros, List.length_replicate, length_headD_rows hk]
  have hstep : ∀ (acc : List ℝ) (p : ℕ), p ∈ List.range (rows B).length → acc.length = w →
      (if Floating.beq ((List.ofFn r).getD p 0) 0 then acc
        else acc.zipWith (fun x y => x+(List.ofFn r).getD p 0*y) ((rows B).getD p [])).length = w ∧
      ∀ j < w, (if Floating.beq ((List.ofFn r).getD p 0) 0 then acc
        else acc.zipWith (fun x y => x+(List.ofFn r).getD p 0*y) ((rows B).getD p [])).getD j 0 =
          acc.getD j 0+(List.ofFn r).getD p 0*((rows B).getD p []).getD j 0 := by
    intro acc p hp hacc
    have hpk : p < k := (List.mem_range.mp hp).trans_eq (shaped_rows B).length_eq
    have hrow := (shaped_rows B).length_getD hpk
    split
    · next hzero =>
      rw [of_decide_eq_true hzero]
      exact ⟨hacc,fun j _ => by rw [zero_mul, add_zero]⟩
    · refine ⟨by rw [List.length_zipWith, hacc, hrow, min_self],fun j hj => ?_⟩
      exact Coordinates.getD_zipWith 0 0 0 (by omega) (by omega)
  obtain ⟨hlength,hentry⟩ := Coordinates.foldl_spec hstep hlen
  refine Coordinates.ext_getD 0 (by rw [hlength, List.length_ofFn]) fun j hj => ?_
  have hjw : j < w := hj.trans_eq hlength
  have hzero : (zeros ((rows B).headD []).length : List ℝ).getD j 0 = 0 := by
    rw [zeros, List.getD_eq_getElem?_getD, List.getElem?_replicate]
    split <;> rfl
  rw [hentry j hjw, hzero, zero_add, (shaped_rows B).length_eq]
  refine Eq.trans ?_ (getD_ofFn (fun j => ∑ p, r p*B p j) ⟨j,hjw⟩).symm
  refine (Finset.sum_range fun p => (List.ofFn r).getD p 0*((rows B).getD p []).getD j 0).trans
    (Finset.sum_congr rfl fun p _ => ?_)
  rw [getD_ofFn, getD_rows]
  exact congrArg _ (getD_ofFn (B p) ⟨j,hjw⟩)

theorem matmul_rows (hk : 0 < k) (A : Matrix (Fin n) (Fin k) ℝ) (B : Matrix (Fin k) (Fin w) ℝ) :
    matmul (rows A) (rows B) = rows (A*B) := by
  unfold matmul
  conv_lhs => enter [2]; unfold rows
  rw [List.map_ofFn]
  refine congrArg List.ofFn (funext fun i => ?_)
  exact matmul_row hk (A i) B

end Operations
end ConfluxFL.Dense
