import ConfluxFL.Lib.Floating
import ConfluxFL.Lib.StableSort

/-! The numeric programs at the real numbers: their sums, sorts and square roots are the usual
ones. -/
namespace Floating

@[simp] theorem sum_real (xs : List ℝ) : sum xs = xs.sum := by
  have hfold (acc : ℝ) : xs.foldl (· + ·) acc = acc+xs.sum := by
    induction xs generalizing acc with
    | nil => simp
    | cons x xs ih => rw [List.foldl_cons, ih, List.sum_cons, add_assoc]
  exact (hfold 0).trans (zero_add _)

/-- A stable sort by the order of the reals. -/
theorem sortBy_real {β : Type} (key : β → ℝ) (xs : List β) :
    sortBy key xs = StableSort.sortBy key xs := by
  unfold sortBy StableSort.sortBy
  congr
  funext a b
  exact propext decide_eq_true_iff

theorem sortBy_id_sorted (xs : List ℝ) : (sortBy id xs).Pairwise (· ≤ ·) := by
  rw [sortBy_real]
  exact StableSort.sortBy_sorted

theorem sortBy_perm (xs : List ℝ) : (sortBy id xs).Perm xs := by
  rw [sortBy_real]
  exact StableSort.sortBy_perm

@[simp] theorem lt_real (a b : ℝ) : lt a b = decide (a < b) := rfl

/-- No value is greater than the one at the position found. -/
theorem getD_le_getD_argMax {xs : List ℝ} {i : ℕ} (hi : i < xs.length) :
    xs.getD i 0 ≤ xs.getD (argMax xs) 0 := by
  have hrange (n : ℕ) : ∀ i < n, xs.getD i 0 ≤ xs.getD ((List.range n).foldl
      (fun best i => if lt (xs.getD i 0) (xs.getD best 0) then best else i) 0) 0 := by
    induction n with
    | zero => exact fun i hi => absurd hi (Nat.not_lt_zero i)
    | succ n ih =>
      intro i hi
      rw [List.range_succ, List.foldl_append, List.foldl_cons, List.foldl_nil]
      split
      · next hlt =>
        rcases Nat.lt_succ_iff_lt_or_eq.mp hi with hi | rfl
        · exact ih i hi
        · exact (of_decide_eq_true hlt).le
      · next hlt =>
        have hle := not_lt.mp fun h => hlt (decide_eq_true h)
        rcases Nat.lt_succ_iff_lt_or_eq.mp hi with hi | rfl
        · exact (ih i hi).trans hle
        · exact le_rfl
  exact hrange xs.length i hi

@[simp] theorem max_real (a b : ℝ) : max a b = Max.max a b := by
  rw [max_def_lt]
  exact (if_neg Bool.false_ne_true).trans (if_congr decide_eq_true_iff rfl rfl)

@[simp] theorem min_real (a b : ℝ) : min a b = Min.min a b := by
  rw [min_comm a b, min_def_lt]
  exact (if_neg Bool.false_ne_true).trans (if_congr decide_eq_true_iff rfl rfl)

@[simp] theorem ofNat_real (n : ℕ) : (ofNat n : ℝ) = n := rfl

end Floating
