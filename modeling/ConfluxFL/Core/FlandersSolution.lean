import ConfluxFL.Core.FlandersSolve

/-! What the linear solver answers in exact arithmetic. Every column that has a usable pivot is a
step of elimination on the system with its right-hand sides beside it: the columns done are those
of the identity and the kernel is kept. -/
namespace ConfluxFL.Dense
open Flanders hiding Matrix
open RowReduction
variable {n w col : ℕ} {s s' : List (List ℝ) × List (List ℝ)}

/-- Both halves of a system side by side. -/
def augmented (n w : ℕ) (s : List (List ℝ) × List (List ℝ)) : Matrix (Fin n) (Fin n ⊕ Fin w) ℝ :=
  Matrix.fromCols (entries n n s.1) (entries n w s.2)

/-- The columns before `col` are those of the identity. -/
def Reduced (n col : ℕ) (a : List (List ℝ)) : Prop :=
  ∀ i < n, ∀ j < col, (a.getD i []).getD j 0 = if i = j then 1 else 0

section Entries
variable {factor : ℝ} {pivot t : List ℝ} {j : ℕ}

theorem getD_clearedRow (ht : t.length = n) (hp : pivot.length = n) (hj : j < n)
    (hleft : j < col → pivot.getD j 0 = 0) :
    (clearedRow col factor pivot t).getD j 0 = t.getD j 0-factor*pivot.getD j 0 := by
  unfold clearedRow
  split
  · next hzero => rw [of_decide_eq_true hzero, zero_mul, sub_zero]
  · by_cases hjc : j < col
    · rw [hleft hjc, mul_zero, sub_zero, List.getD_append _ _ _ _ (by rw [List.length_take]; omega),
        List.getD_eq_getElem?_getD, List.getElem?_take_of_lt hjc, List.getD_eq_getElem?_getD]
    · have htake : (t.take col).length = col := by
        rw [List.length_take]
        omega
      rw [List.getD_append_right _ _ _ _ (by omega), htake, Coordinates.getD_zipWith 0 0 0
        (by rw [List.length_drop]; omega) (by rw [List.length_drop]; omega)]
      simp only [List.getD_eq_getElem?_getD, List.getElem?_drop, Nat.add_sub_cancel' (not_lt.mp hjc)]

theorem getD_clearedRhs (ht : t.length = w) (hp : pivot.length = w) (hj : j < w) :
    (clearedRhs factor pivot t).getD j 0 = t.getD j 0-factor*pivot.getD j 0 := by
  unfold clearedRhs
  split
  · next hzero => rw [of_decide_eq_true hzero, zero_mul, sub_zero]
  · exact Coordinates.getD_zipWith 0 0 0 (by omega) (by omega)

/-- Left of the pivot there is nothing to divide. -/
theorem getD_scaled {d : ℝ} (ht : t.length = n) (hj : j < n) (hleft : j < col → t.getD j 0 = 0) :
    (t.take col++(t.drop col).map fun x => x/d).getD j 0 = t.getD j 0/d := by
  by_cases hjc : j < col
  · rw [hleft hjc, zero_div, List.getD_append _ _ _ _ (by rw [List.length_take]; omega),
      List.getD_eq_getElem?_getD, List.getElem?_take_of_lt hjc, ← List.getD_eq_getElem?_getD,
      hleft hjc]
  · have htake : (t.take col).length = col := by
      rw [List.length_take]
      omega
    rw [List.getD_append_right _ _ _ _ (by omega), htake, List.getD_eq_getElem?_getD,
      List.getElem?_map, List.getElem?_drop, Nat.add_sub_cancel' (not_lt.mp hjc),
      List.getElem?_eq_getElem (by omega), List.getD_eq_getElem _ _ (by omega)]
    rfl

end Entries

theorem getD_upTo {α : Type} {g : ℕ → α → α} {l : List α} {r c i : ℕ} (h : i < r ∧ i ≠ c)
    (hi : i < l.length) (d : α) : (upTo r c g l).getD i d = g i (l.getD i d) := by
  rw [List.getD_eq_getElem _ _ (hi.trans_eq length_upTo.symm), List.getD_eq_getElem _ _ hi]
  simp only [upTo, List.getElem_mapIdx, if_pos h]

theorem val_swap {c p : ℕ} (hc : c < n) (hp : p < n) (i : Fin n) :
    ((Equiv.swap ⟨c,hc⟩ ⟨p,hp⟩ i : Fin n) : ℕ) = Equiv.swap c p i := by
  rw [Equiv.swap_apply_def, Equiv.swap_apply_def]
  simp only [Fin.ext_iff]
  split_ifs <;> rfl

section Step
variable (ha : Shaped n n s.1)
include ha

/-- The pivot row lies below the columns that are done. -/
theorem getD_pivot_left (hcol : col < n) (hred : Reduced n col s.1) {j : ℕ} (hj : j < col) :
    ((swapped n col s).1.getD col []).getD j 0 = 0 := by
  have hp := pivotOf_lt hcol s.1
  have hle : col ≤ pivotOf n col s.1 := Nat.le_add_right _ _
  rw [swapped, getD_swapRows ha hcol hp, Equiv.swap_apply_left, hred _ hp j hj, if_neg (by omega)]

theorem reduced_swapped (hcol : col < n) (hred : Reduced n col s.1) :
    Reduced n col (swapped n col s).1 := by
  have hp := pivotOf_lt hcol s.1
  have hle : col ≤ pivotOf n col s.1 := Nat.le_add_right _ _
  intro i hi j hj
  have hswap : Equiv.swap col (pivotOf n col s.1) j = j :=
    Equiv.swap_apply_of_ne_of_ne (by omega) (by omega)
  have hlt : Equiv.swap col (pivotOf n col s.1) i < n := by
    rw [Equiv.swap_apply_def]
    split_ifs <;> assumption
  rw [swapped, getD_swapRows ha hcol hp, hred _ hlt j hj]
  exact if_congr (by rw [Equiv.swap_apply_eq_iff, hswap]) rfl rfl

variable (hb : Shaped n w s.2)
include hb

/-- The system with the pivot brought to the diagonal. -/
theorem augmented_swapped (hcol : col < n) :
    augmented n w (swapped n col s) = (augmented n w s).submatrix
      (Equiv.swap ⟨col,hcol⟩ ⟨pivotOf n col s.1,pivotOf_lt hcol s.1⟩) id := by
  have hp := pivotOf_lt hcol s.1
  funext i l
  cases l with
  | inl j =>
    change ((swapRows s.1 col _).getD i []).getD j 0 = (s.1.getD (Equiv.swap _ _ i : Fin n) []).getD j 0
    rw [val_swap, getD_swapRows ha hcol hp]
  | inr j =>
    change ((swapRows s.2 col _).getD i []).getD j 0 = (s.2.getD (Equiv.swap _ _ i : Fin n) []).getD j 0
    rw [val_swap, getD_swapRows hb hcol hp]

theorem getD_pivotRow (hcol : col < n) (hred : Reduced n col s.1) {j : ℕ} (hj : j < n) :
    (pivotRow n col s).getD j 0 =
      ((swapped n col s).1.getD col []).getD j 0/((swapped n col s).1.getD col []).getD col 0 :=
  getD_scaled ((shaped_swapped ha hb hcol).1.length_getD hcol) hj fun hjc =>
    getD_pivot_left ha hcol hred hjc

theorem getD_pivotRhs (hcol : col < n) {j : ℕ} (hj : j < w) : (pivotRhs n col s).getD j 0 =
    ((swapped n col s).2.getD col []).getD j 0/((swapped n col s).1.getD col []).getD col 0 := by
  have hlen := (shaped_swapped ha hb hcol).2.length_getD hcol
  rw [pivotRhs, List.getD_eq_getElem?_getD, List.getElem?_map, List.getElem?_eq_getElem (by omega),
    List.getD_eq_getElem ((swapped n col s).2.getD col []) 0 (by omega)]
  rfl

theorem getD_pivotRow_left (hcol : col < n) (hred : Reduced n col s.1) {j : ℕ} (hj : j < col) :
    (pivotRow n col s).getD j 0 = 0 := by
  rw [getD_pivotRow ha hb hcol hred (by omega), getD_pivot_left ha hcol hred hj, zero_div]

/-- A column with a pivot is one step of elimination. -/
theorem augmented_clearedTo (hcol : col < n) (hred : Reduced n col s.1) :
    augmented n w (clearedTo n col (pivoted n col s)) =
      clear (augmented n w (swapped n col s)) ⟨col,hcol⟩ (.inl ⟨col,hcol⟩) := by
  obtain ⟨hm,hrhs⟩ := shaped_swapped ha hb hcol
  obtain ⟨hrow,hrow'⟩ := length_pivotRow ha hb hcol
  obtain ⟨hm',hrhs'⟩ := shaped_pivoted ha hb hcol
  have hpivot : (pivoted n col s).1.getD col [] = pivotRow n col s := getD_set_self hm.length_eq hcol
  have hpivot' : (pivoted n col s).2.getD col [] = pivotRhs n col s :=
    getD_set_self hrhs.length_eq hcol
  funext i l
  by_cases hic : i = ⟨col,hcol⟩
  · subst hic
    rw [clear, if_pos rfl]
    cases l with
    | inl j =>
      change ((upTo n col _ _).getD col []).getD j 0 = _
      rw [getD_upTo_of_not (by omega), hpivot, getD_pivotRow ha hb hcol hred j.2]
      rfl
    | inr j =>
      change ((upTo n col _ _).getD col []).getD j 0 = _
      rw [getD_upTo_of_not (by omega), hpivot', getD_pivotRhs ha hb hcol j.2]
      rfl
  · have hne : (i : ℕ) ≠ col := fun h => hic (Fin.ext h)
    have hsame : (pivoted n col s).1.getD i [] = (swapped n col s).1.getD i [] := getD_set_ne hne
    have hsame' : (pivoted n col s).2.getD i [] = (swapped n col s).2.getD i [] := getD_set_ne hne
    rw [clear, if_neg hic]
    cases l with
    | inl j =>
      change ((upTo n col _ _).getD i []).getD j 0 = _
      rw [getD_upTo ⟨i.2,hne⟩ (i.2.trans_eq hm'.length_eq.symm), hpivot, hsame,
        getD_clearedRow (hm.length_getD i.2) hrow j.2 (getD_pivotRow_left ha hb hcol hred),
        getD_pivotRow ha hb hcol hred j.2]
      rfl
    | inr j =>
      change ((upTo n col _ _).getD i []).getD j 0 = _
      rw [getD_upTo ⟨i.2,hne⟩ (i.2.trans_eq hrhs'.length_eq.symm), hpivot', hsame, hsame',
        getD_clearedRhs (hrhs.length_getD i.2) hrow' j.2, getD_pivotRhs ha hb hcol j.2]
      rfl

/-- What one column with a usable pivot does to the system. -/
theorem eliminateColumn_spec (hcol : col < n) (hred : Reduced n col s.1)
    (h : eliminateColumn n s col = some s') : Shaped n n s'.1 ∧ Shaped n w s'.2 ∧
      Reduced n (col+1) s'.1 ∧ SameKernel (augmented n w s') (augmented n w s) := by
  obtain ⟨ha',hb'⟩ := shaped_eliminateColumn ha hb hcol h
  rw [eliminateColumn_eq ha hb hcol] at h
  split at h
  · cases h
  next hlarge =>
  obtain rfl := Option.some.inj h
  have hstep := augmented_clearedTo ha hb hcol hred
  have hpivot : augmented n w (swapped n col s) ⟨col,hcol⟩ (.inl ⟨col,hcol⟩) ≠ 0 :=
    pivot_ne_zero ha hcol hlarge
  refine ⟨ha',hb',fun i hi j hj => ?_,?_⟩
  · have hentry := congrFun (congrFun hstep ⟨i,hi⟩) (.inl ⟨j,by omega⟩)
    refine Eq.trans hentry ?_
    rcases Nat.lt_succ_iff_lt_or_eq.mp hj with hlt | rfl
    · have hzero : augmented n w (swapped n col s) ⟨col,hcol⟩ (.inl ⟨j,by omega⟩) = 0 :=
        getD_pivot_left ha hcol hred hlt
      rw [clear_of_eq_zero hzero]
      exact reduced_swapped ha hcol hred i hi j hlt
    · rw [clear_column hpivot]
      exact if_congr Fin.mk_eq_mk rfl rfl
  · rw [hstep]
    refine (sameKernel_clear hpivot).trans ?_
    rw [augmented_swapped ha hb hcol]
    exact sameKernel_submatrix _ _

end Step
section Run
variable (ha : Shaped n n s.1) (hb : Shaped n w s.2)
include ha hb

/-- After some columns, those of the matrix are the identity's, and the kernel is the one of the
start. -/
theorem foldlM_eliminateColumn_spec {k : ℕ} (hk : k ≤ n)
    (h : (List.range k).foldlM (eliminateColumn n) s = some s') : Shaped n n s'.1 ∧
      Shaped n w s'.2 ∧ Reduced n k s'.1 ∧ SameKernel (augmented n w s') (augmented n w s) := by
  induction k generalizing s' with
  | zero =>
    obtain rfl := Option.some.inj h
    exact ⟨ha,hb,fun i _ j hj => absurd hj (Nat.not_lt_zero j),SameKernel.refl _⟩
  | succ k ih =>
    rw [List.range_succ, List.foldlM_append] at h
    obtain ⟨t,ht,hstep⟩ := Option.bind_eq_some_iff.mp h
    obtain ⟨ha',hb',hred,hker⟩ := ih (by omega) ht
    rw [List.foldlM_cons] at hstep
    obtain ⟨u,hu,hend⟩ := Option.bind_eq_some_iff.mp hstep
    obtain rfl := Option.some.inj hend
    obtain ⟨ha'',hb'',hred',hker'⟩ := eliminateColumn_spec ha' hb' (by omega) hred hu
    exact ⟨ha'',hb'',hred',hker'.trans hker⟩

theorem eliminateColumn_eq_none_iff (hcol : col < n) : eliminateColumn n s col = none ↔
    ∀ i, col ≤ i → i < n → |(s.1.getD i []).getD col 0| < 1e-12 := by
  rw [eliminateColumn_eq ha hb hcol, ite_eq_left_iff]
  constructor
  · intro h i hi hin
    refine (le_pivotOf hcol hi hin).trans_lt ?_
    by_contra hlarge
    cases h hlarge
  · intro h hlarge
    exact absurd (h _ (Nat.le_add_right _ _) (pivotOf_lt hcol s.1)) hlarge

end Run

/-- The columns before `col` can be cleared, and in column `col` of what is left every candidate
for the pivot is too small. -/
def NoPivot (n col : ℕ) (m rhs : List (List ℝ)) : Prop :=
  ∃ s, (List.range col).foldlM (eliminateColumn n) (m,rhs) = some s ∧
    ∀ i, col ≤ i → i < n → |(s.1.getD i []).getD col 0| < 1e-12

section Solve
variable (M : Matrix (Fin n) (Fin n) ℝ) (R : Matrix (Fin n) (Fin w) ℝ)

theorem foldlM_eq_none_iff {k : ℕ} (hk : k ≤ n) :
    (List.range k).foldlM (eliminateColumn n) (rows M,rows R) = none ↔
      ∃ col < k, NoPivot n col (rows M) (rows R) := by
  have ha := shaped_rows M
  have hb := shaped_rows R
  induction k with
  | zero => exact iff_of_false (Option.some_ne_none _) fun ⟨col,hcol,_⟩ => Nat.not_lt_zero col hcol
  | succ k ih =>
    rw [List.range_succ, List.foldlM_append]
    simp only [List.foldlM_cons, List.foldlM_nil]
    cases ht : (List.range k).foldlM (eliminateColumn n) (rows M,rows R) with
    | none =>
      obtain ⟨col,hcol,hno⟩ := (ih (by omega)).mp ht
      exact iff_of_true rfl ⟨col,by omega,hno⟩
    | some t =>
      obtain ⟨ha',hb',-⟩ := foldlM_eliminateColumn_spec ha hb (by omega) ht
      have hnone : (∃ col < k, NoPivot n col (rows M) (rows R)) → False := fun h => by
        rw [(ih (by omega)).mpr h] at ht
        cases ht
      have hlast : NoPivot n k (rows M) (rows R) ↔ eliminateColumn n t k = none := by
        rw [eliminateColumn_eq_none_iff ha' hb' hk]
        refine ⟨fun ⟨t',ht',hno⟩ => ?_,fun hno => ⟨t,ht,hno⟩⟩
        obtain rfl := Option.some.inj (ht.symm.trans ht')
        exact hno
      refine Iff.trans ?_ (b := NoPivot n k (rows M) (rows R)) ?_
      · rw [hlast]
        cases hu : eliminateColumn n t k <;> simp [hu]
      · refine ⟨fun h => ⟨k,Nat.lt_succ_self k,h⟩,fun ⟨col,hcol,hno⟩ => ?_⟩
        rcases Nat.lt_succ_iff_lt_or_eq.mp hcol with hlt | rfl
        · exact (hnone ⟨col,hlt,hno⟩).elim
        · exact hno

/-- Nothing but the size and the columns decides whether there is an answer. -/
theorem solve_eq : solve (rows M) (rows R) = if n = 0 then none
    else ((List.range n).foldlM (eliminateColumn n) (rows M,rows R)).map Prod.snd := by
  unfold solve
  rw [(shaped_rows M).length_eq, (shaped_rows R).length_eq]
  dsimp only
  by_cases hn : n = 0
  · rw [if_pos (.inl hn), if_pos hn]
  · rw [if_neg (by rw [length_headD_rows (Nat.pos_of_ne_zero hn)]; omega), if_neg hn]
    cases (List.range n).foldlM (eliminateColumn n) (rows M,rows R) with
    | none => rfl
    | some s =>
      refine if_neg fun h => ?_
      obtain ⟨r,-,hr⟩ := List.any_eq_true.mp h
      obtain ⟨v,-,hv⟩ := List.any_eq_true.mp hr
      cases hv

variable {M R}

/-- An answer solves the system, and only a regular system has one. -/
theorem exists_of_solve {x : List (List ℝ)} (h : solve (rows M) (rows R) = some x) :
    0 < n ∧ IsUnit M ∧ ∃ X : Matrix (Fin n) (Fin w) ℝ, x = rows X ∧ M*X = R := by
  rw [solve_eq] at h
  split at h
  · cases h
  next hn =>
  obtain ⟨s,hs,rfl⟩ := Option.map_eq_some_iff.mp h
  obtain ⟨-,hb,hred,hker⟩ := foldlM_eliminateColumn_spec (shaped_rows M) (shaped_rows R) le_rfl hs
  have hone : entries n n s.1 = 1 := by
    funext i j
    refine (hred i i.2 j j.2).trans ?_
    rw [Matrix.one_apply]
    exact if_congr Fin.ext_iff.symm rfl rfl
  have hsystem : SameKernel (Matrix.fromCols M R) (Matrix.fromCols 1 (entries n w s.2)) := by
    intro v
    have hv := hker v
    rw [augmented, augmented, hone, entries_rows, entries_rows] at hv
    exact hv.symm
  exact ⟨Nat.pos_of_ne_zero hn,hsystem.isUnit,_,hb.rows_entries.symm,hsystem.mul_eq⟩

/-- The solver ends without an index out of range or a division by zero; an answer solves the
system; there is none only for an empty system or at a column without a usable pivot, and none for
a singular matrix. -/
theorem solve_correct (M : Matrix (Fin n) (Fin n) ℝ) (R : Matrix (Fin n) (Fin w) ℝ) :
    solveChecked (rows M) (rows R) = .ok (solve (rows M) (rows R)) ∧
    (∀ x, solve (rows M) (rows R) = some x →
      ∃ X : Matrix (Fin n) (Fin w) ℝ, x = rows X ∧ M*X = R) ∧
    (solve (rows M) (rows R) = none ↔ n = 0 ∨ ∃ col < n, NoPivot n col (rows M) (rows R)) ∧
    (M.det = 0 → solve (rows M) (rows R) = none) := by
  refine ⟨solveChecked_ok (shaped_rows M) (shaped_rows R),fun x hx => (exists_of_solve hx).2.2,?_,?_⟩
  · rw [solve_eq]
    split
    · next hn => exact iff_of_true rfl (.inl hn)
    · next hn => rw [Option.map_eq_none_iff, foldlM_eq_none_iff M R le_rfl, or_iff_right hn]
  · intro hdet
    by_contra hsome
    obtain ⟨x,hx⟩ := Option.ne_none_iff_exists'.mp hsome
    have hunit := (Matrix.isUnit_iff_isUnit_det M).mp (exists_of_solve hx).2.1
    rw [hdet] at hunit
    exact not_isUnit_zero hunit

end Solve
end ConfluxFL.Dense
