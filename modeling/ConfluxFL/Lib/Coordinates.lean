import Mathlib.Algebra.BigOperators.Pi
import Mathlib.Analysis.Convex.Combination
import Mathlib.Data.List.GetD

/-! Vectors kept as lists. A coordinate past the end counts as zero, so every coordinate can be
read from any list, and what adds to each coordinate of an accumulator adds up coordinate by
coordinate. A mixture whose weights are shares of one lies in the convex hull. -/
namespace Coordinates

section Lists
variable {α β γ : Type*}

theorem getD_zipWith {f : α → β → γ} {a : List α} {b : List β} {k : ℕ} (x : α) (y : β) (z : γ)
    (ha : k < a.length) (hb : k < b.length) :
    (a.zipWith f b).getD k z = f (a.getD k x) (b.getD k y) := by
  simp [List.getD_eq_getElem?_getD,List.getElem?_zipWith,List.getElem?_eq_getElem ha,
    List.getElem?_eq_getElem hb]

/-- A list given by its coordinates. -/
theorem getD_map_range {f : ℕ → α} {n k : ℕ} {x : α} (hk : k < n) :
    ((List.range n).map f).getD k x = f k := by
  rw [List.getD_eq_getElem _ _ (by rwa [List.length_map, List.length_range]), List.getElem_map,
    List.getElem_range]

/-- Lists of one length with the same coordinates. -/
theorem ext_getD {a b : List α} (x : α) (hlen : a.length = b.length)
    (h : ∀ k < a.length, a.getD k x = b.getD k x) : a = b := by
  refine List.ext_getElem hlen fun k ha hb => ?_
  have hk := h k ha
  rwa [List.getD_eq_getElem _ _ ha, List.getD_eq_getElem _ _ hb] at hk

/-- A list is given by its own coordinates. -/
theorem map_range_getD (l : List α) (x : α) : (List.range l.length).map (l.getD · x) = l :=
  ext_getD x (by simp) fun k hk => getD_map_range (by simpa using hk)

/-- A coordinate of an accumulator that rows are zipped into is the accumulator of the row's
coordinates. -/
theorem getD_foldl_zipWith {f : α → β → α} {rows : List (List β)} {n k : ℕ} (x : α)
    (y : β) (hk : k < n) (h : ∀ r ∈ rows, r.length = n) {acc : List α} (hacc : acc.length = n) :
    (rows.foldl (fun acc r => acc.zipWith f r) acc).getD k x =
      rows.foldl (fun a r => f a (r.getD k y)) (acc.getD k x) := by
  induction rows generalizing acc with
  | nil => rfl
  | cons r rows ih =>
    rw [List.forall_mem_cons] at h
    rw [List.foldl_cons, List.foldl_cons, ih h.2 (by rw [List.length_zipWith, hacc, h.1, min_self]),
      getD_zipWith x y x (hacc.symm ▸ hk) (h.1.symm ▸ hk)]

theorem all_iff_getD {p : α → Bool} {l : List α} (x : α) :
    l.all p = true ↔ ∀ j < l.length, p (l.getD j x) = true := by
  rw [List.all_eq_true]
  constructor
  · intro h j hj
    rw [List.getD_eq_getElem _ _ hj]
    exact h _ (List.getElem_mem hj)
  · intro h a ha
    obtain ⟨j,hj,rfl⟩ := List.mem_iff_getElem.mp ha
    have := h j hj
    rwa [List.getD_eq_getElem _ _ hj] at this

end Lists

section Sums
variable {R β : Type*} [AddCommMonoid R] {f : List R → β → List R} {term : β → ℕ → R} {dim : ℕ}
  {bs : List β}

/-- Steps that add to every coordinate of an accumulator. -/
theorem foldl_spec (hf : ∀ acc b, b ∈ bs → acc.length = dim → (f acc b).length = dim ∧
      ∀ k < dim, (f acc b).getD k 0 = acc.getD k 0+term b k)
    {acc : List R} (hacc : acc.length = dim) : (bs.foldl f acc).length = dim ∧
      ∀ k < dim, (bs.foldl f acc).getD k 0 = acc.getD k 0+(bs.map fun b => term b k).sum := by
  induction bs generalizing acc with
  | nil => exact ⟨hacc,fun k _ => by simp⟩
  | cons b bs ih =>
    obtain ⟨hlen,hstep⟩ := hf acc b List.mem_cons_self hacc
    obtain ⟨hlen',hrest⟩ := ih (fun acc b' hb' => hf acc b' (List.mem_cons_of_mem b hb')) hlen
    refine ⟨hlen',fun k hk => ?_⟩
    rw [List.foldl_cons, hrest k hk, hstep k hk, List.map_cons, List.sum_cons, add_assoc]

/-- A sum over some of the coordinates is the sum over all of them when nothing is left out. -/
theorem sum_map_eq_sum_range_iff {R : Type*} [AddCommMonoid R] [PartialOrder R]
    [IsOrderedCancelAddMonoid R] {coords : List ℕ} {f : ℕ → R} (hnodup : coords.Nodup)
    (hsub : ∀ c ∈ coords, c < dim) (hf : ∀ c, 0 ≤ f c) :
    (coords.map f).sum = ((List.range dim).map f).sum ↔ ∀ c < dim, c ∉ coords → f c = 0 := by
  have hsubset : coords.toFinset ⊆ (List.range dim).toFinset := fun c hc =>
    List.mem_toFinset.mpr (List.mem_range.mpr (hsub c (List.mem_toFinset.mp hc)))
  rw [← List.sum_toFinset f hnodup, ← List.sum_toFinset f List.nodup_range,
    ← Finset.sum_sdiff hsubset, right_eq_add, Finset.sum_eq_zero_iff_of_nonneg fun c _ => hf c]
  simp only [Finset.mem_sdiff, List.mem_toFinset, List.mem_range, and_imp]

end Sums

section Points
variable {R : Type*} [Zero R]

/-- A list read as a point of the space of its dimension. -/
def point (dim : ℕ) (w : List R) : Fin dim → R := fun k => w.getD k 0

theorem point_replicate (dim n : ℕ) : point dim (List.replicate n (0 : R)) = 0 := by
  funext k
  rw [point, List.getD_eq_getElem?_getD, List.getElem?_replicate]
  split <;> rfl

end Points

section Translations
variable {R : Type*} [CommSemiring R] {v a b : List R} {dim : ℕ} {ps : List (R × List R)}

/-- A list moved by another. -/
def shift (v w : List R) : List R := w.zipWith (·+·) v

theorem length_shift (h : a.length ≤ v.length) : (shift v a).length = a.length := by
  rw [shift, List.length_zipWith, Nat.min_eq_left h]

theorem getD_shift {k : ℕ} (hk : k < a.length) (h : a.length ≤ v.length) :
    (shift v a).getD k 0 = a.getD k 0+v.getD k 0 := getD_zipWith 0 0 0 hk (hk.trans_le h)

theorem getD_map_shift (rows : List (List R)) (i : ℕ) :
    (rows.map (shift v)).getD i [] = shift v (rows.getD i []) := by
  simp only [List.getD_eq_getElem?_getD, List.getElem?_map]
  cases rows[i]? <;> rfl

/-- What compares two lists by differences does not see that both were moved. -/
theorem zipWith_shift {γ : Type*} {f : R → R → γ} (hf : ∀ x y c, f (x+c) (y+c) = f x y)
    (ha : a.length ≤ v.length) (hb : b.length ≤ v.length) :
    (shift v a).zipWith f (shift v b) = a.zipWith f b := by
  induction v generalizing a b with
  | nil =>
    rw [List.eq_nil_of_length_eq_zero (Nat.le_zero.mp ha)]
    rfl
  | cons c v ih =>
    cases a with
    | nil => rfl
    | cons x a =>
      cases b with
      | nil => rfl
      | cons y b =>
        have hrest := ih (Nat.le_of_succ_le_succ ha) (Nat.le_of_succ_le_succ hb)
        simp only [shift, List.zipWith_cons_cons, hf] at hrest ⊢
        rw [hrest]

/-- Some lists combined by their weights. -/
def combination (dim : ℕ) (ps : List (R × List R)) : List R :=
  (List.range dim).map fun k => (ps.map fun p => p.1*p.2.getD k 0).sum

@[simp] theorem length_combination : (combination dim ps).length = dim := by
  rw [combination, List.length_map, List.length_range]

/-- Adding up multiples of the lists, one after the other. -/
theorem foldl_combination {f : List R → R × List R → List R}
    (hrows : ∀ p ∈ ps, p.2.length = dim)
    (hf : ∀ acc, ∀ p ∈ ps, f acc p = acc.zipWith (fun e x => e+p.1*x) p.2) :
    ps.foldl f (List.replicate dim 0) = combination dim ps := by
  obtain ⟨hlen,hget⟩ := @foldl_spec _ _ _ f (fun p k => p.1*p.2.getD k 0) dim ps
    (fun acc p hp hacc => by
      have hrow := hrows p hp
      rw [hf acc p hp]
      refine ⟨by rw [List.length_zipWith, hacc, hrow, Nat.min_self],fun k hk => ?_⟩
      rw [getD_zipWith 0 0 0 (hacc.symm ▸ hk) (hrow.symm ▸ hk)])
    _ (List.length_replicate (n := dim) (a := (0 : R)))
  refine ext_getD 0 (hlen.trans length_combination.symm) fun k hk => ?_
  rw [hlen] at hk
  rw [hget k hk, combination, getD_map_range hk, List.getD_replicate _ hk, zero_add]

/-- A combination by shares of one moves with what it combines. -/
theorem combination_shift (hsum : (ps.map Prod.fst).sum = 1)
    (hrows : ∀ p ∈ ps, p.2.length = dim) (hv : v.length = dim) :
    combination dim (ps.map fun p => (p.1,shift v p.2)) = shift v (combination dim ps) := by
  have hlen : (shift v (combination dim ps)).length = dim := by
    rw [length_shift (by rw [length_combination, hv]), length_combination]
  refine ext_getD 0 (length_combination.trans hlen.symm) fun k hk => ?_
  rw [length_combination] at hk
  rw [getD_shift (by rwa [length_combination]) (by rw [length_combination, hv]), combination,
    combination, getD_map_range hk, getD_map_range hk, List.map_map]
  have hterm : ∀ p ∈ ps, ((fun p : R × List R => p.1*p.2.getD k 0) ∘
      fun p : R × List R => (p.1,shift v p.2)) p = p.1*p.2.getD k 0+p.1*v.getD k 0 := by
    intro p hp
    have hrow := hrows p hp
    change p.1*(shift v p.2).getD k 0 = _
    rw [getD_shift (hrow.symm ▸ hk) (by rw [hrow, hv]), mul_add]
  rw [List.map_congr_left hterm, List.sum_map_add, List.sum_map_mul_right]
  congr 1
  rw [show (ps.map fun p => p.1) = ps.map Prod.fst from rfl, hsum, one_mul]

end Translations

section Convex
variable {R ι E : Type*} [Field R] [LinearOrder R] [IsStrictOrderedRing R] [AddCommGroup E]
  [Module R E] {s : Set E} {l : List ι} {weight : ι → R} {at' : ι → E}

/-- A point of a convex hull is not below every generating point at any coordinate. -/
theorem exists_le_of_mem_convexHull {s : Set (ι → R)} {x : ι → R} (h : x ∈ convexHull R s) (k : ι) :
    ∃ y ∈ s, y k ≤ x k := by
  by_contra hnone
  push Not at hnone
  have hconvex : Convex R {y : ι → R | x k < y k} := convex_halfSpace_gt ⟨fun _ _ => rfl,fun _ _ => rfl⟩ _
  exact lt_irrefl (x k) (convexHull_min hnone hconvex h)

theorem exists_ge_of_mem_convexHull {s : Set (ι → R)} {x : ι → R} (h : x ∈ convexHull R s) (k : ι) :
    ∃ y ∈ s, x k ≤ y k := by
  by_contra hnone
  push Not at hnone
  have hconvex : Convex R {y : ι → R | y k < x k} := convex_halfSpace_lt ⟨fun _ _ => rfl,fun _ _ => rfl⟩ _
  exact lt_irrefl (x k) (convexHull_min hnone hconvex h)

/-- A convex set has the mixtures of its points by shares of one. -/
theorem sum_mem_of_convex (hs : Convex R s) (h0 : ∀ i ∈ l, 0 ≤ weight i)
    (h1 : (l.map weight).sum = 1) (hmem : ∀ i ∈ l, at' i ∈ s) :
    (l.map fun i => weight i•at' i).sum ∈ s := by
  rw [← Fin.sum_univ_fun_getElem] at h1 ⊢
  exact hs.sum_mem (fun i _ => h0 _ (List.getElem_mem i.2)) h1 fun i _ => hmem _ (List.getElem_mem i.2)

end Convex

end Coordinates
