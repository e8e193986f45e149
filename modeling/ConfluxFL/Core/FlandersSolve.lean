import ConfluxFL.Core.DenseMatrices
import ConfluxFL.Core.Selections
import ConfluxFL.Lib.RowReduction

/-! The linear solver. First as the source runs it, in place and row by row, with every index and
every divisor checked; then in exact arithmetic: the checks never stop it, what it returns solves
the system, and it gives up only at a column without a usable pivot. -/
namespace ConfluxFL.Flanders

/-- What would stop the solver. -/
inductive SolveStop where
  | outOfRange (index length : ℕ)
  | divisionByZero
  deriving DecidableEq, Repr

section Checked
variable {α ω : Type} [Floating ω]

def index (xs : List α) (i : ℕ) : Except SolveStop α :=
  match xs[i]? with
  | some x => .ok x
  | none => .error (.outOfRange i xs.length)

omit [Floating ω] in
def entryAt (a : Matrix ω) (i j : ℕ) : Except SolveStop ω := do
  index (← index a i) j

/-- A place to cut or slice at; the end of the list is one. -/
def bound (xs : List α) (i : ℕ) : Except SolveStop Unit :=
  if i ≤ xs.length then .ok () else .error (.outOfRange i xs.length)

def divide (x d : ω) : Except SolveStop ω :=
  if Floating.beq d 0 then .error .divisionByZero else .ok (x/d)

def swapChecked (a : List α) (i j : ℕ) : Except SolveStop (List α) := do
  let x ← index a i
  let y ← index a j
  return (a.set i y).set j x

/-- The pivot row and the row it is subtracted from, from the two halves of a split between
them. -/
def splitAtRows (a : Matrix ω) (col row : ℕ) : Except SolveStop (List ω × List ω) :=
  if row < col then do
    bound a col
    return (← index (a.drop col) 0,← index (a.take col) row)
  else do
    bound a row
    return (← index (a.take row) col,← index (a.drop row) 0)

/-- A zip of two rows stops at the end of the shorter; what is left of the target stays. -/
def subtractRow (factor : ω) (target pivot : List ω) : List ω :=
  target.zipWith (fun t p => t-factor*p) pivot++target.drop pivot.length

def eliminateRow (n col : ℕ) (s : Matrix ω × Matrix ω) (row : ℕ) :
    Except SolveStop (Matrix ω × Matrix ω) :=
  if row = col then .ok s
  else do
    let factor ← entryAt s.1 row col
    if Floating.beq factor 0 then return s
    else
      let (pivotRow,target) ← splitAtRows s.1 col row
      bound target n
      bound pivotRow n
      let (pivotRhs,targetRhs) ← splitAtRows s.2 col row
      return (s.1.set row (target.take col++
          subtractRow factor ((target.take n).drop col) ((pivotRow.take n).drop col)++target.drop n),
        s.2.set row (subtractRow factor targetRhs pivotRhs))

def eliminateColumnChecked (n : ℕ) (s : Matrix ω × Matrix ω) (col : ℕ) :
    Except SolveStop (Option (Matrix ω × Matrix ω)) := do
  let candidates ← (List.range (n-col)).mapM fun i => entryAt s.1 (col+i) col
  let pivot := col+Floating.argMax (candidates.map Floating.abs)
  if Floating.lt (Floating.abs (← entryAt s.1 pivot col)) 1e-12 then return none
  else
    let m ← swapChecked s.1 col pivot
    let rhs ← swapChecked s.2 col pivot
    let d ← entryAt m col col
    let target ← index m col
    bound target n
    let scaled ← ((target.take n).drop col).mapM fun x => divide x d
    let scaledRhs ← (← index rhs col).mapM fun x => divide x d
    some <$> (List.range n).foldlM (eliminateRow n col)
      (m.set col (target.take col++scaled++target.drop n),rhs.set col scaledRhs)

def eliminateChecked (n : ℕ) : List ℕ → Matrix ω × Matrix ω →
    Except SolveStop (Option (Matrix ω × Matrix ω))
  | [], s => .ok (some s)
  | col::cols, s => do
    match ← eliminateColumnChecked n s col with
    | none => return none
    | some s => eliminateChecked n cols s

def solveChecked (m rhs : Matrix ω) : Except SolveStop (Option (Matrix ω)) := do
  let n := m.length
  if n = 0 then return none
  else
    if (← index m 0).length ≠ n ∨ rhs.length ≠ n then return none
    else
      match ← eliminateChecked n (List.range n) (m,rhs) with
      | none => return none
      | some s => return if s.2.any fun r => r.any fun v => !Floating.isFinite v then none else some s.2

/-- A row with the column cleared, and what becomes of its right-hand sides. -/
def clearedRow (col : ℕ) (factor : ω) (pivot t : List ω) : List ω :=
  if Floating.beq factor 0 then t
  else t.take col++(t.drop col).zipWith (fun t p => t-factor*p) (pivot.drop col)

def clearedRhs (factor : ω) (pivot t : List ω) : List ω :=
  if Floating.beq factor 0 then t else t.zipWith (fun t p => t-factor*p) pivot

theorem length_clearedRow {n col : ℕ} {factor : ω} {pivot t : List ω} (ht : t.length = n)
    (hp : pivot.length = n) : (clearedRow col factor pivot t).length = n := by
  unfold clearedRow
  split
  · exact ht
  · rw [List.length_append, List.length_take, List.length_zipWith, List.length_drop,
      List.length_drop]
    omega

theorem length_clearedRhs {w : ℕ} {factor : ω} {pivot t : List ω} (ht : t.length = w)
    (hp : pivot.length = w) : (clearedRhs factor pivot t).length = w := by
  unfold clearedRhs
  split
  · exact ht
  · rw [List.length_zipWith, ht, hp, min_self]

end Checked

section InPlace
variable {α : Type} {r c i : ℕ} {g : ℕ → α → α} {l : List α}

/-- The rows before `r` changed in place, but for row `c`. -/
def upTo (r c : ℕ) (g : ℕ → α → α) (l : List α) : List α :=
  l.mapIdx fun i t => if i < r ∧ i ≠ c then g i t else t

@[simp] theorem length_upTo : (upTo r c g l).length = l.length := List.length_mapIdx

theorem upTo_zero : upTo 0 c g l = l := by
  refine List.ext_getElem length_upTo fun i hi hi' => ?_
  simp only [upTo, List.getElem_mapIdx]
  exact if_neg (by omega)

theorem getD_upTo_of_not (h : ¬(i < r ∧ i ≠ c)) (d : α) : (upTo r c g l).getD i d = l.getD i d := by
  by_cases hi : i < l.length
  · rw [List.getD_eq_getElem _ _ (hi.trans_eq length_upTo.symm), List.getD_eq_getElem _ _ hi]
    simp only [upTo, List.getElem_mapIdx, if_neg h]
  · rw [List.getD_eq_default _ _ (by rw [length_upTo]; omega), List.getD_eq_default _ _ (by omega)]

theorem upTo_succ (hr : r < l.length) (hne : r ≠ c) (d : α) :
    upTo (r+1) c g l = (upTo r c g l).set r (g r (l.getD r d)) := by
  refine List.ext_getElem (by simp) fun i hi hi' => ?_
  simp only [List.getElem_set, upTo, List.getElem_mapIdx]
  by_cases hri : r = i
  · subst hri
    rw [if_pos ⟨Nat.lt_succ_self _,hne⟩, if_pos rfl, List.getD_eq_getElem _ _ hr]
  · rw [if_neg hri]
    exact if_congr (by omega) rfl rfl

theorem upTo_succ_self : upTo (c+1) c g l = upTo c c g l := by
  unfold upTo
  congr 1
  funext i t
  exact if_congr (by omega) rfl rfl

theorem upTo_congr {g' : ℕ → α → α} (h : ∀ i, i ≠ c → g i = g' i) : upTo r c g l = upTo r c g' l := by
  unfold upTo
  congr 1
  funext i t
  by_cases hi : i < r ∧ i ≠ c
  · rw [if_pos hi, if_pos hi, h i hi.2]
  · rw [if_neg hi, if_neg hi]

/-- All rows at once. -/
theorem mapIdx_eq_upTo (g : ℕ → α → α) (p : α) :
    (l.mapIdx fun i t => if i = c then p else g i t) = upTo l.length c g (l.set c p) := by
  refine List.ext_getElem (by simp) fun i hi hi' => ?_
  have hil : i < l.length := hi.trans_eq List.length_mapIdx
  simp only [upTo, List.getElem_mapIdx, List.getElem_set]
  by_cases hic : i = c
  · rw [if_pos hic, if_neg (by omega), if_pos hic.symm]
  · rw [if_neg hic, if_pos ⟨hil,hic⟩, if_neg (Ne.symm hic)]

end InPlace
end ConfluxFL.Flanders

namespace ConfluxFL.Dense
open Flanders hiding Matrix
open Fallible

section Refinement
variable {n w col row : ℕ} {a b : List (List ℝ)} {s : List (List ℝ) × List (List ℝ)}

theorem index_ok {α : Type} {xs : List α} {i : ℕ} (h : i < xs.length) (d : α) :
    index xs i = .ok (xs.getD i d) := by
  rw [index, List.getElem?_eq_getElem h, List.getD_eq_getElem _ _ h]

theorem bound_ok {α : Type} {xs : List α} {i : ℕ} (h : i ≤ xs.length) : bound xs i = .ok () :=
  if_pos h

theorem divide_ok {x d : ℝ} (h : d ≠ 0) : divide x d = .ok (x/d) :=
  if_neg fun hd => h (of_decide_eq_true hd)

theorem entryAt_ok (ha : Shaped n w a) {i j : ℕ} (hi : i < n) (hj : j < w) :
    entryAt a i j = .ok ((a.getD i []).getD j 0) := by
  rw [entryAt, index_ok (hi.trans_eq ha.length_eq.symm) [], ok_bind,
    index_ok (hj.trans_eq (ha.length_getD hi).symm) 0]

theorem swapChecked_ok {i j : ℕ} (hi : i < a.length) (hj : j < a.length) :
    swapChecked a i j = .ok (swapRows a i j) := by
  rw [swapChecked, index_ok hi [], ok_bind, index_ok hj [], ok_bind]
  rfl

theorem splitAtRows_ok (hc : col < a.length) (hr : row < a.length) (hne : row ≠ col) :
    splitAtRows a col row = .ok (a.getD col [],a.getD row []) := by
  have hdrop (i : ℕ) : (a.drop i).getD 0 [] = a.getD i [] := by
    rw [List.getD_eq_getElem?_getD, List.getElem?_drop, List.getD_eq_getElem?_getD, add_zero]
  have htake {i j : ℕ} (h : j < i) : (a.take i).getD j [] = a.getD j [] := by
    rw [List.getD_eq_getElem?_getD, List.getElem?_take_of_lt h, List.getD_eq_getElem?_getD]
  unfold splitAtRows
  split
  · next hlt =>
    rw [bound_ok hc.le, ok_bind, index_ok (by rw [List.length_drop]; omega) [], ok_bind,
      index_ok (by rw [List.length_take]; omega) [], ok_bind, hdrop, htake hlt]
    rfl
  · next hlt =>
    have hgt : col < row := by omega
    rw [bound_ok hr.le, ok_bind, index_ok (by rw [List.length_take]; omega) [], ok_bind,
      index_ok (by rw [List.length_drop]; omega) [], ok_bind, hdrop, htake hgt]
    rfl

theorem subtractRow_eq {factor : ℝ} {target pivot : List ℝ} (h : target.length = pivot.length) :
    subtractRow factor target pivot = target.zipWith (fun t p => t-factor*p) pivot := by
  rw [subtractRow, ← h, List.drop_length, List.append_nil]

/-- One row in place. -/
theorem eliminateRow_ok (ha : Shaped n n s.1) (hb : Shaped n w s.2) (hcol : col < n) (hrow : row < n)
    (hne : row ≠ col) : eliminateRow n col s row = .ok
      (s.1.set row (clearedRow col ((s.1.getD row []).getD col 0) (s.1.getD col [])
          (s.1.getD row [])),
        s.2.set row (clearedRhs ((s.1.getD row []).getD col 0) (s.2.getD col [])
          (s.2.getD row []))) := by
  have hself {l : List (List ℝ)} : l.set row (l.getD row []) = l := by
    by_cases h : row < l.length
    · rw [List.getD_eq_getElem _ _ h, List.set_getElem_self]
    · exact List.set_eq_of_length_le (by omega)
  have hpivot := ha.length_getD hcol
  have htarget := ha.length_getD hrow
  have hrhs := (hb.length_getD hrow).trans (hb.length_getD hcol).symm
  have hlen := ha.length_eq
  have hlen' := hb.length_eq
  rw [eliminateRow, if_neg hne, entryAt_ok ha hrow hcol, ok_bind]
  by_cases hzero : Floating.beq ((s.1.getD row []).getD col 0) 0 = true
  · rw [if_pos hzero, clearedRow, if_pos hzero, clearedRhs, if_pos hzero, hself, hself]
    rfl
  · rw [if_neg hzero, clearedRow, if_neg hzero, clearedRhs, if_neg hzero,
      splitAtRows_ok (by omega) (by omega) hne, ok_bind]
    dsimp only
    rw [bound_ok htarget.ge, ok_bind, bound_ok hpivot.ge, ok_bind,
      splitAtRows_ok (by omega) (by omega) hne, ok_bind]
    dsimp only
    rw [List.take_of_length_le htarget.le, List.take_of_length_le hpivot.le, subtractRow_eq hrhs,
      subtractRow_eq (by rw [List.length_drop, List.length_drop, htarget, hpivot]),
      List.drop_eq_nil_of_le htarget.le, List.append_nil]
    rfl

/-- What the loop over the rows makes of the two halves of a system. -/
noncomputable def clearedTo (r col : ℕ) (s : List (List ℝ) × List (List ℝ)) :
    List (List ℝ) × List (List ℝ) :=
  (upTo r col (fun i t => clearedRow col ((s.1.getD i []).getD col 0) (s.1.getD col []) t) s.1,
    upTo r col (fun i t => clearedRhs ((s.1.getD i []).getD col 0) (s.2.getD col []) t) s.2)

theorem Shaped.upTo {k r c : ℕ} {g : ℕ → List ℝ → List ℝ} (ha : Shaped n k a)
    (hg : ∀ i t, t.length = k → (g i t).length = k) : Shaped n k (upTo r c g a) where
  length_eq := length_upTo.trans ha.length_eq
  length_row t ht := by
    obtain ⟨i,hi,rfl⟩ := List.getElem_of_mem ht
    simp only [Flanders.upTo, List.getElem_mapIdx]
    split
    · exact hg _ _ (ha.length_row _ (List.getElem_mem _))
    · exact ha.length_row _ (List.getElem_mem _)

theorem shaped_clearedTo (ha : Shaped n n s.1) (hb : Shaped n w s.2) (hcol : col < n) (r : ℕ) :
    Shaped n n (clearedTo r col s).1 ∧ Shaped n w (clearedTo r col s).2 :=
  ⟨ha.upTo fun _ _ ht => length_clearedRow ht (ha.length_getD hcol),
    hb.upTo fun _ _ ht => length_clearedRhs ht (hb.length_getD hcol)⟩

/-- The loop over the rows: the pivot row is only read, every other row is changed once. -/
theorem foldlM_eliminateRow (ha : Shaped n n s.1) (hb : Shaped n w s.2) (hcol : col < n) {r : ℕ}
    (hr : r ≤ n) : (List.range r).foldlM (eliminateRow n col) s = .ok (clearedTo r col s) := by
  induction r with
  | zero =>
    rw [clearedTo, upTo_zero, upTo_zero]
    rfl
  | succ r ih =>
    rw [List.range_succ, List.foldlM_append, ih (by omega), ok_bind, List.foldlM_cons]
    simp only [List.foldlM_nil]
    by_cases hne : r = col
    · subst hne
      rw [eliminateRow, if_pos rfl, ok_bind, clearedTo, clearedTo, upTo_succ_self, upTo_succ_self]
      rfl
    · obtain ⟨ha',hb'⟩ := shaped_clearedTo ha hb hcol r
      have hpivot : (clearedTo r col s).1.getD col [] = s.1.getD col [] :=
        getD_upTo_of_not (by omega) []
      have hrow : (clearedTo r col s).1.getD r [] = s.1.getD r [] :=
        getD_upTo_of_not (by omega) []
      have hpivot' : (clearedTo r col s).2.getD col [] = s.2.getD col [] :=
        getD_upTo_of_not (by omega) []
      have hrow' : (clearedTo r col s).2.getD r [] = s.2.getD r [] :=
        getD_upTo_of_not (by omega) []
      rw [eliminateRow_ok ha' hb' hcol (by omega) hne, ok_bind, hpivot, hrow, hpivot', hrow',
        clearedTo, clearedTo, upTo_succ (by have := ha.length_eq; omega) hne [],
        upTo_succ (by have := hb.length_eq; omega) hne []]
      rfl

end Refinement

section Column
variable {n w col : ℕ} {a : List (List ℝ)} {s s' : List (List ℝ) × List (List ℝ)}

/-- The candidates of a column, from the diagonal down. -/
noncomputable def candidates (n col : ℕ) (a : List (List ℝ)) : List ℝ :=
  (List.range (n-col)).map fun i => Floating.abs ((a.getD (col+i) []).getD col 0)

noncomputable def pivotOf (n col : ℕ) (a : List (List ℝ)) : ℕ :=
  col+Floating.argMax (candidates n col a)

theorem pivotOf_lt (hcol : col < n) (a : List (List ℝ)) : pivotOf n col a < n := by
  have hlt := @Robust.argMax_lt ℝ _ (candidates n col a) _ (Nat.sub_pos_of_lt hcol)
    (by rw [candidates, List.length_map, List.length_range])
  rw [pivotOf]
  omega

/-- The pivot is one of the largest candidates. -/
theorem le_pivotOf (hcol : col < n) {i : ℕ} (hi : col ≤ i) (hin : i < n) :
    |(a.getD i []).getD col 0| ≤ |(a.getD (pivotOf n col a) []).getD col 0| := by
  have hlen : (candidates n col a).length = n-col := by
    rw [candidates, List.length_map, List.length_range]
  have hcandidate {i : ℕ} (hi : i < n-col) :
      (candidates n col a).getD i 0 = |(a.getD (col+i) []).getD col 0| :=
    Coordinates.getD_map_range hi
  have hmax := @Floating.getD_le_getD_argMax (candidates n col a) (i-col) (by omega)
  have hpivot : Floating.argMax (candidates n col a) < n-col :=
    Robust.argMax_lt ℝ (Nat.sub_pos_of_lt hcol) hlen.le
  rw [hcandidate (by omega), hcandidate hpivot] at hmax
  rwa [Nat.add_sub_cancel' hi] at hmax

theorem shaped_swapRows {k i j : ℕ} (ha : Shaped n k a) (hi : i < n) (hj : j < n) :
    Shaped n k (swapRows a i j) where
  length_eq := by rw [swapRows, List.length_set, List.length_set, ha.length_eq]
  length_row r hr := by
    rcases List.mem_or_eq_of_mem_set hr with hr | rfl
    · rcases List.mem_or_eq_of_mem_set hr with hr | rfl
      · exact ha.length_row r hr
      · exact ha.length_getD hj
    · exact ha.length_getD hi

theorem getD_swapRows {k i j : ℕ} (ha : Shaped n k a) (hi : i < n) (hj : j < n) (r : ℕ) :
    (swapRows a i j).getD r [] = a.getD (Equiv.swap i j r) [] := by
  have hlen := ha.length_eq
  unfold swapRows
  by_cases hrj : r = j
  · rw [hrj, Equiv.swap_apply_right, List.getD_eq_getElem?_getD, List.getElem?_set_self
      (by rw [List.length_set]; omega)]
    rfl
  · rw [List.getD_eq_getElem?_getD, List.getElem?_set_ne (Ne.symm hrj)]
    by_cases hri : r = i
    · rw [hri, Equiv.swap_apply_left, List.getElem?_set_self (by omega)]
      rfl
    · rw [Equiv.swap_apply_of_ne_of_ne hri hrj, List.getElem?_set_ne (Ne.symm hri),
        List.getD_eq_getElem?_getD]

/-- The rows with the pivot brought to the diagonal, and both halves of the pivot row with the
pivot made one. -/
noncomputable def swapped (n col : ℕ) (s : List (List ℝ) × List (List ℝ)) :
    List (List ℝ) × List (List ℝ) :=
  (swapRows s.1 col (pivotOf n col s.1),swapRows s.2 col (pivotOf n col s.1))

noncomputable def pivotRow (n col : ℕ) (s : List (List ℝ) × List (List ℝ)) : List ℝ :=
  let row := (swapped n col s).1.getD col []
  row.take col++(row.drop col).map fun x => x/row.getD col 0

noncomputable def pivotRhs (n col : ℕ) (s : List (List ℝ) × List (List ℝ)) : List ℝ :=
  ((swapped n col s).2.getD col []).map fun x => x/((swapped n col s).1.getD col []).getD col 0

noncomputable def pivoted (n col : ℕ) (s : List (List ℝ) × List (List ℝ)) :
    List (List ℝ) × List (List ℝ) :=
  ((swapped n col s).1.set col (pivotRow n col s),(swapped n col s).2.set col (pivotRhs n col s))

theorem Shaped.set {k i : ℕ} {r : List ℝ} (ha : Shaped n k a) (hr : r.length = k) :
    Shaped n k (a.set i r) where
  length_eq := List.length_set.trans ha.length_eq
  length_row t ht := by
    rcases List.mem_or_eq_of_mem_set ht with ht | rfl
    · exact ha.length_row t ht
    · exact hr

theorem shaped_swapped (ha : Shaped n n s.1) (hb : Shaped n w s.2) (hcol : col < n) :
    Shaped n n (swapped n col s).1 ∧ Shaped n w (swapped n col s).2 :=
  ⟨shaped_swapRows ha hcol (pivotOf_lt hcol s.1),shaped_swapRows hb hcol (pivotOf_lt hcol s.1)⟩

theorem length_pivotRow (ha : Shaped n n s.1) (hb : Shaped n w s.2) (hcol : col < n) :
    (pivotRow n col s).length = n ∧ (pivotRhs n col s).length = w := by
  obtain ⟨hm,hrhs⟩ := shaped_swapped ha hb hcol
  have hrow := hm.length_getD hcol
  constructor
  · rw [pivotRow, List.length_append, List.length_take, List.length_map, List.length_drop, hrow]
    omega
  · rw [pivotRhs, List.length_map, hrhs.length_getD hcol]

theorem shaped_pivoted (ha : Shaped n n s.1) (hb : Shaped n w s.2) (hcol : col < n) :
    Shaped n n (pivoted n col s).1 ∧ Shaped n w (pivoted n col s).2 := by
  obtain ⟨hm,hrhs⟩ := shaped_swapped ha hb hcol
  obtain ⟨hrow,hrow'⟩ := length_pivotRow ha hb hcol
  exact ⟨hm.set hrow,hrhs.set hrow'⟩

theorem getD_set_self {r : List ℝ} (ha : a.length = n) (hcol : col < n) :
    (a.set col r).getD col [] = r := by
  rw [List.getD_eq_getElem?_getD, List.getElem?_set_self (by omega)]
  rfl

theorem getD_set_ne {i : ℕ} {r : List ℝ} (hi : i ≠ col) :
    (a.set col r).getD i [] = a.getD i [] := by
  rw [List.getD_eq_getElem?_getD, List.getElem?_set_ne (Ne.symm hi), List.getD_eq_getElem?_getD]

/-- A column with a usable pivot is cleared row by row. -/
theorem eliminateColumn_eq (ha : Shaped n n s.1) (hb : Shaped n w s.2) (hcol : col < n) :
    eliminateColumn n s col =
      if |(s.1.getD (pivotOf n col s.1) []).getD col 0| < 1e-12 then none
      else some (clearedTo n col (pivoted n col s)) := by
  obtain ⟨hm,hrhs⟩ := shaped_swapped ha hb hcol
  have hleft := @mapIdx_eq_upTo _ col (swapped n col s).1 (fun i t => clearedRow col
    (((swapped n col s).1.getD i []).getD col 0) (pivotRow n col s) t) (pivotRow n col s)
  have hright := @mapIdx_eq_upTo _ col (swapped n col s).2 (fun i t => clearedRhs
    (((swapped n col s).1.getD i []).getD col 0) (pivotRhs n col s) t) (pivotRhs n col s)
  rw [hm.length_eq] at hleft
  rw [hrhs.length_eq] at hright
  refine if_congr decide_eq_true_iff rfl (congrArg some (Prod.ext ?_ ?_))
  · refine hleft.trans ?_
    rw [clearedTo, pivoted, getD_set_self hm.length_eq hcol]
    exact upTo_congr fun i hi => by rw [getD_set_ne hi]
  · refine hright.trans ?_
    rw [clearedTo, pivoted, getD_set_self hrhs.length_eq hcol]
    exact upTo_congr fun i hi => by rw [getD_set_ne hi]

theorem shaped_eliminateColumn (ha : Shaped n n s.1) (hb : Shaped n w s.2) (hcol : col < n)
    (h : eliminateColumn n s col = some s') : Shaped n n s'.1 ∧ Shaped n w s'.2 := by
  obtain ⟨ha',hb'⟩ := shaped_pivoted ha hb hcol
  rw [eliminateColumn_eq ha hb hcol] at h
  split at h
  · cases h
  · obtain rfl := Option.some.inj h
    exact shaped_clearedTo ha' hb' hcol n

/-- A pivot that is not too small is what is divided by. -/
theorem pivot_ne_zero (ha : Shaped n n s.1) (hcol : col < n)
    (h : ¬|(s.1.getD (pivotOf n col s.1) []).getD col 0| < 1e-12) :
    ((swapped n col s).1.getD col []).getD col 0 ≠ 0 := by
  rw [swapped, getD_swapRows ha hcol (pivotOf_lt hcol s.1), Equiv.swap_apply_left]
  intro hzero
  apply h
  rw [hzero, abs_zero]
  norm_num

theorem mapM_entryAt (ha : Shaped n n a) (hcol : col < n) :
    ((List.range (n-col)).mapM fun i => entryAt a (col+i) col) =
      .ok ((List.range (n-col)).map fun i => (a.getD (col+i) []).getD col 0) :=
  mapM_ok fun i hi => by
    have hlt := List.mem_range.mp hi
    exact entryAt_ok ha (by omega) hcol

theorem mapM_divide {d : ℝ} (hd : d ≠ 0) (xs : List ℝ) :
    (xs.mapM fun x => divide x d) = .ok (xs.map fun x => x/d) :=
  mapM_ok fun _ _ => divide_ok hd

/-- The checks on a column never stop it. -/
theorem eliminateColumnChecked_ok (ha : Shaped n n s.1) (hb : Shaped n w s.2) (hcol : col < n) :
    eliminateColumnChecked n s col = .ok (eliminateColumn n s col) := by
  obtain ⟨hm,hrhs⟩ := shaped_swapped ha hb hcol
  obtain ⟨hm',hrhs'⟩ := shaped_pivoted ha hb hcol
  have hp := pivotOf_lt hcol s.1
  have hlen := ha.length_eq
  have hlen' := hb.length_eq
  have hrow := hm.length_getD hcol
  rw [eliminateColumn_eq ha hb hcol, eliminateColumnChecked, mapM_entryAt ha hcol, ok_bind]
  dsimp only
  rw [List.map_map, show col+Floating.argMax (List.map (Floating.abs ∘ fun i =>
    (s.1.getD (col+i) []).getD col 0) (List.range (n-col))) = pivotOf n col s.1 from rfl,
    entryAt_ok ha hp hcol, ok_bind]
  split
  · next hlt =>
    have hsmall : |(s.1.getD (pivotOf n col s.1) []).getD col 0| < 1e-12 := of_decide_eq_true hlt
    rw [if_pos hsmall]
    rfl
  · next hlt =>
    have hlarge : ¬|(s.1.getD (pivotOf n col s.1) []).getD col 0| < 1e-12 := fun h =>
      hlt (decide_eq_true h)
    have hscale := mapM_divide (pivot_ne_zero ha hcol hlarge)
    rw [if_neg hlarge, swapChecked_ok (by omega) (by omega), ok_bind,
      swapChecked_ok (by omega) (by omega), ok_bind,
      show swapRows s.1 col (pivotOf n col s.1) = (swapped n col s).1 from rfl,
      show swapRows s.2 col (pivotOf n col s.1) = (swapped n col s).2 from rfl,
      entryAt_ok hm hcol hcol, ok_bind, index_ok (hcol.trans_eq hm.length_eq.symm) [], ok_bind,
      bound_ok hrow.ge, ok_bind, hscale, ok_bind,
      index_ok (hcol.trans_eq hrhs.length_eq.symm) [], ok_bind, hscale, ok_bind,
      List.take_of_length_le hrow.le, List.drop_eq_nil_of_le hrow.le, List.append_nil]
    change some <$> (List.range n).foldlM (eliminateRow n col) (pivoted n col s) = _
    rw [foldlM_eliminateRow hm' hrhs' hcol le_rfl]
    rfl

end Column

section System
variable {n w col : ℕ} {a rhs : List (List ℝ)} {s s' : List (List ℝ) × List (List ℝ)}

theorem eliminateChecked_ok (cols : List ℕ) (hcols : ∀ c ∈ cols, c < n) (ha : Shaped n n s.1)
    (hb : Shaped n w s.2) :
    eliminateChecked n cols s = .ok (cols.foldlM (eliminateColumn n) s) := by
  induction cols generalizing s with
  | nil => rfl
  | cons col cols ih =>
    have hcol := hcols col List.mem_cons_self
    rw [eliminateChecked, eliminateColumnChecked_ok ha hb hcol, ok_bind, List.foldlM_cons]
    cases hs : eliminateColumn n s col with
    | none => rfl
    | some s' =>
      obtain ⟨ha',hb'⟩ := shaped_eliminateColumn ha hb hcol hs
      exact ih (fun c hc => hcols c (List.mem_cons_of_mem col hc)) ha' hb'

/-- The solver stops nowhere: it comes to what the reading without checks comes to. -/
theorem solveChecked_ok (ha : Shaped n n a) (hrhs : Shaped n w rhs) :
    solveChecked a rhs = .ok (solve a rhs) := by
  unfold solveChecked solve
  rw [ha.length_eq, hrhs.length_eq]
  dsimp only
  by_cases hn : n = 0
  · rw [if_pos hn, if_pos (.inl hn)]
    rfl
  · have hhead : (a.headD []).length = n := by
      have hrow := ha.length_getD (Nat.pos_of_ne_zero hn)
      rwa [← List.headD_eq_getD] at hrow
    have hsize : ¬((a.headD []).length ≠ n ∨ n ≠ n) := by rw [hhead, or_self, not_not]
    rw [if_neg hn, index_ok (by have := ha.length_eq; omega) [], ok_bind, ← List.headD_eq_getD,
      if_neg hsize, if_neg (not_or.mpr ⟨hn,hsize⟩),
      eliminateChecked_ok (List.range n) (fun c hc => List.mem_range.mp hc) ha hrhs, ok_bind]
    cases (List.range n).foldlM (eliminateColumn n) (a,rhs) <;> rfl

end System
end ConfluxFL.Dense
