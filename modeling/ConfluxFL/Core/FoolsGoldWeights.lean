import ConfluxFL.Core.Temporal
import ConfluxFL.Lib.Coordinates
import ConfluxFL.Lib.Extended

/-! FoolsGold's weights, entry by entry. Whoever renames the clients renames the weights, every
weight is a share of one, and no step divides by zero. -/
namespace ConfluxFL.Temporal
open Robust

section Entries
variable {ν : Type} [Floating ν] (n : ℕ) (c : ℕ → ℕ → ν)

/-- The similarity of two histories; a client is not held against itself. -/
def similarity (histories : List (List ν)) (i j : ℕ) : ν :=
  if i = j then 0 else cosineSimilarity (histories.getD i []) (histories.getD j [])

def rowMax (i : ℕ) : ν := ((List.range n).map (c i)).foldl Floating.max 0

def pardonedEntry (i j : ℕ) : ν :=
  if i ≠ j ∧ Floating.lt (rowMax n c i) (rowMax n c j) = true then
    c i j*(rowMax n c i/rowMax n c j)
  else c i j

/-- How unlike the others a client is, before anything is rescaled. -/
def distinctness (i : ℕ) : ν := Floating.clamp (1-rowMax n (pardonedEntry n c) i) 0 1

def maxDistinctness : ν := ((List.range n).map (distinctness n c)).foldl Floating.max 0

def weightOf (i : ℕ) : ν :=
  if Floating.le (maxDistinctness n c) 0 then 0
  else sharpened (maxDistinctness n c) (distinctness n c i)

variable {n c}

theorem getD_matrix {i j : ℕ} (hi : i < n) (hj : j < n) :
    ((matrix n c).getD i []).getD j 0 = c i j := by
  rw [matrix, Coordinates.getD_map_range hi, Coordinates.getD_map_range hj]

omit [Floating ν] in
theorem matrix_congr {c' : ℕ → ℕ → ν} (h : ∀ i < n, ∀ j < n, c i j = c' i j) :
    matrix n c = matrix n c' :=
  List.map_congr_left fun i hi => List.map_congr_left fun j hj =>
    h i (List.mem_range.mp hi) j (List.mem_range.mp hj)

omit [Floating ν] in
theorem length_matrix : (matrix n c).length = n := by rw [matrix, List.length_map, List.length_range]

theorem rowMaxima_matrix : rowMaxima (matrix n c) = (List.range n).map (rowMax n c) := by
  rw [rowMaxima, matrix, List.map_map]
  rfl

theorem pardoned_matrix :
    pardoned (matrix n c) (rowMaxima (matrix n c)) = matrix n (pardonedEntry n c) := by
  unfold pardoned
  rw [length_matrix]
  refine matrix_congr fun i hi j hj => ?_
  dsimp only
  rw [getD_matrix hi hj, rowMaxima_matrix, Coordinates.getD_map_range hi,
    Coordinates.getD_map_range hj]
  rfl

theorem foolsgoldWeights_eq (histories : List (List ν)) : foolsgoldWeights histories =
    (List.range histories.length).map (weightOf histories.length (similarity histories)) := by
  have hcs : (matrix histories.length fun i j => if i = j then 0 else
      cosineSimilarity (histories.getD i []) (histories.getD j [])) =
        matrix histories.length (similarity histories) := rfl
  unfold foolsgoldWeights
  dsimp only
  rw [hcs, pardoned_matrix, rowMaxima_matrix, List.map_map]
  change (if Floating.le (maxDistinctness histories.length (similarity histories)) 0 then _ else _) = _
  unfold weightOf
  split
  · rw [List.map_const', List.length_range]
  · rw [List.map_map]
    rfl

end Entries

section Renaming
variable {n : ℕ} {c c' : ℕ → ℕ → EReal} {σ : ℕ → ℕ}
  (hσ : ((List.range n).map σ).Perm (List.range n))

include hσ in
theorem foldl_max_map_range (f : ℕ → EReal) {f' : ℕ → EReal} (h : ∀ i < n, f' i = f (σ i)) :
    ((List.range n).map f').foldl Floating.max 0 = ((List.range n).map f).foldl Floating.max 0 := by
  have hmap : (List.range n).map f' = ((List.range n).map σ).map f := by
    rw [List.map_map]
    exact List.map_congr_left fun i hi => h i (List.mem_range.mp hi)
  rw [hmap]
  exact Floating.foldl_max_perm (hσ.map f) 0

include hσ in
theorem renaming_injective {i j : ℕ} (hi : i < n) (hj : j < n) : σ i = σ j ↔ i = j :=
  ⟨fun h => List.inj_on_of_nodup_map (hσ.nodup_iff.mpr List.nodup_range) (List.mem_range.mpr hi)
    (List.mem_range.mpr hj) h,congrArg σ⟩

variable (hc : ∀ i < n, ∀ j < n, c' i j = c (σ i) (σ j))
include hσ hc

theorem rowMax_renamed {i : ℕ} (hi : i < n) : rowMax n c' i = rowMax n c (σ i) :=
  foldl_max_map_range hσ (c (σ i)) fun j hj => hc i hi j hj

theorem pardonedEntry_renamed {i j : ℕ} (hi : i < n) (hj : j < n) :
    pardonedEntry n c' i j = pardonedEntry n c (σ i) (σ j) := by
  unfold pardonedEntry
  rw [rowMax_renamed hσ hc hi, rowMax_renamed hσ hc hj, hc i hi j hj]
  exact if_congr (and_congr (not_congr (renaming_injective hσ hi hj).symm) Iff.rfl) rfl rfl

theorem distinctness_renamed {i : ℕ} (hi : i < n) :
    distinctness n c' i = distinctness n c (σ i) := by
  unfold distinctness
  rw [rowMax_renamed hσ (fun i hi j hj => pardonedEntry_renamed hσ hc hi hj) hi]

theorem maxDistinctness_renamed : maxDistinctness n c' = maxDistinctness n c :=
  foldl_max_map_range hσ (distinctness n c) fun _ hi => distinctness_renamed hσ hc hi

theorem weightOf_renamed {i : ℕ} (hi : i < n) : weightOf n c' i = weightOf n c (σ i) := by
  unfold weightOf
  rw [maxDistinctness_renamed hσ hc, distinctness_renamed hσ hc hi]

end Renaming

section Weights
variable {histories : List (List EReal)}

/-- Histories in another order have the weights in that order. -/
theorem foolsgoldWeights_perm {order : List ℕ}
    (horder : order.Perm (List.range histories.length)) :
    foolsgoldWeights (order.map fun i => histories.getD i []) =
      order.map fun i => (foolsgoldWeights histories).getD i 0 := by
  have hlen : order.length = histories.length := horder.length_eq.trans List.length_range
  have hmap : (List.range histories.length).map (order.getD · 0) = order :=
    hlen ▸ Coordinates.map_range_getD order 0
  have hσ := hmap.symm ▸ horder
  have hsimilarity : ∀ i < histories.length, ∀ j < histories.length,
      similarity (order.map fun i => histories.getD i []) i j =
        similarity histories (order.getD i 0) (order.getD j 0) := by
    intro i hi j hj
    have hrow {k : ℕ} (hk : k < histories.length) :
        (order.map fun i => histories.getD i []).getD k [] = histories.getD (order.getD k 0) [] := by
      rw [List.getD_eq_getElem _ _ (by rwa [List.length_map, hlen]), List.getElem_map,
        List.getD_eq_getElem order _ (hlen.symm ▸ hk)]
    unfold similarity
    rw [hrow hi, hrow hj, if_congr (renaming_injective hσ hi hj) rfl rfl]
  rw [foolsgoldWeights_eq, foolsgoldWeights_eq, List.length_map, hlen]
  calc (List.range histories.length).map
        (weightOf histories.length (similarity (order.map fun i => histories.getD i [])))
    _ = (List.range histories.length).map
          (fun i => weightOf histories.length (similarity histories) (order.getD i 0)) :=
      List.map_congr_left fun i hi => weightOf_renamed hσ hsimilarity (List.mem_range.mp hi)
    _ = ((List.range histories.length).map (order.getD · 0)).map
          (weightOf histories.length (similarity histories)) := by
      rw [List.map_map]
      rfl
    _ = order.map (weightOf histories.length (similarity histories)) := by rw [hmap]
    _ = _ := List.map_congr_left fun i hi => (Coordinates.getD_map_range
      (List.mem_range.mp (horder.mem_iff.mp hi))).symm

theorem length_foolsgoldWeights (histories : List (List EReal)) :
    (foolsgoldWeights histories).length = histories.length := by
  rw [foolsgoldWeights_eq, List.length_map, List.length_range]

theorem weightOf_mem (n : ℕ) (c : ℕ → ℕ → EReal) (i : ℕ) : 0 ≤ weightOf n c i ∧ weightOf n c i ≤ 1 := by
  unfold weightOf
  split
  · exact ⟨le_rfl,zero_le_one⟩
  · exact Floating.clamp_extended_mem _

theorem foolsgoldWeights_mem {w : EReal} (h : w ∈ foolsgoldWeights histories) : 0 ≤ w ∧ w ≤ 1 := by
  rw [foolsgoldWeights_eq] at h
  obtain ⟨i,-,rfl⟩ := List.mem_map.mp h
  exact weightOf_mem _ _ i

end Weights

section Divisions
variable {ν : Type} [Floating ν]

/-- A quotient, and none by zero. -/
def checkedDiv (a b : ν) : Option ν := if Floating.beq b 0 then none else some (a/b)

def checkedCosine (a b : List ν) : Option ν :=
  let normA := Floating.sqrt (dot a a)
  let normB := Floating.sqrt (dot b b)
  if Floating.beq normA 0 || Floating.beq normB 0 then some 0
  else checkedDiv (dot a b) (normA*normB)

def checkedMatrix (n : ℕ) (entry : ℕ → ℕ → Option ν) : Option (List (List ν)) :=
  (List.range n).mapM fun i => (List.range n).mapM (entry i)

def checkedPardoned (cs : List (List ν)) (maxcs : List ν) : Option (List (List ν)) :=
  checkedMatrix cs.length fun i j =>
    let c := (cs.getD i []).getD j 0
    if i ≠ j ∧ Floating.lt (maxcs.getD i 0) (maxcs.getD j 0) = true then
      (checkedDiv (maxcs.getD i 0) (maxcs.getD j 0)).map (c*·)
    else some c

def checkedSharpened (maxWv w : ν) : Option ν := do
  let w ← checkedDiv w maxWv
  let w := if Floating.le 1 w then 0.99 else w
  let odds ← checkedDiv w (1-w)
  return Floating.clamp (Floating.ln odds+0.5) 0 1

/-- The computation of the weights, broken off where it would divide by zero. -/
def checkedWeights (histories : List (List ν)) : Option (List ν) := do
  let cs ← checkedMatrix histories.length fun i j =>
    if i = j then some 0 else checkedCosine (histories.getD i []) (histories.getD j [])
  let pardoned ← checkedPardoned cs (rowMaxima cs)
  let maxcs := rowMaxima pardoned
  let wv := maxcs.map fun m => Floating.clamp (1-m) 0 1
  let maxWv := wv.foldl Floating.max 0
  if Floating.le maxWv 0 then return List.replicate histories.length 0
  else wv.mapM (checkedSharpened maxWv)

theorem mapM_eq_some_map {α β : Type} {l : List α} {f : α → Option β} {g : α → β}
    (h : ∀ x ∈ l, f x = some (g x)) : l.mapM f = some (l.map g) := by
  induction l with
  | nil => rfl
  | cons x l ih =>
    rw [List.mapM_cons, h x List.mem_cons_self, ih fun y hy => h y (List.mem_cons_of_mem x hy)]
    rfl

omit [Floating ν] in
theorem checkedMatrix_eq {n : ℕ} {entry : ℕ → ℕ → Option ν} {c : ℕ → ℕ → ν}
    (h : ∀ i < n, ∀ j < n, entry i j = some (c i j)) :
    checkedMatrix n entry = some (matrix n c) :=
  mapM_eq_some_map fun i hi => mapM_eq_some_map fun j hj =>
    h i (List.mem_range.mp hi) j (List.mem_range.mp hj)

theorem checkedDiv_eq {a b : EReal} (h : b ≠ 0) : checkedDiv a b = some (a/b) :=
  if_neg (ne_true_of_eq_false (decide_eq_false h))

theorem checkedCosine_eq (a b : List EReal) : checkedCosine a b = some (cosineSimilarity a b) := by
  unfold checkedCosine cosineSimilarity
  dsimp only
  split
  · rfl
  · rename_i hzero
    rw [Bool.or_eq_true, not_or] at hzero
    exact checkedDiv_eq (mul_ne_zero (fun h => hzero.1 (decide_eq_true h))
      fun h => hzero.2 (decide_eq_true h))

theorem rowMax_nonneg (n : ℕ) (c : ℕ → ℕ → EReal) (i : ℕ) : 0 ≤ rowMax n c i :=
  Floating.le_foldl_max _ _

/-- Only a greater maximum divides, and the lesser one is not negative. -/
theorem checkedPardoned_eq (n : ℕ) (c : ℕ → ℕ → EReal) :
    checkedPardoned (matrix n c) (rowMaxima (matrix n c)) = some (matrix n (pardonedEntry n c)) := by
  unfold checkedPardoned
  rw [length_matrix]
  refine checkedMatrix_eq fun i hi j hj => ?_
  dsimp only
  rw [getD_matrix hi hj, rowMaxima_matrix, Coordinates.getD_map_range hi,
    Coordinates.getD_map_range hj]
  unfold pardonedEntry
  split
  · rename_i hlt
    have hpos : 0 < rowMax n c j :=
      (rowMax_nonneg n c i).trans_lt (of_decide_eq_true hlt.2)
    rw [checkedDiv_eq hpos.ne']
    rfl
  · rfl

theorem checkedSharpened_eq {maxWv : EReal} (h : maxWv ≠ 0) (w : EReal) :
    checkedSharpened maxWv w = some (sharpened maxWv w) := by
  unfold checkedSharpened sharpened
  rw [checkedDiv_eq h]
  dsimp only [bind, Option.bind]
  have hlt : (if Floating.le 1 (w/maxWv) then 0.99 else w/maxWv) < 1 := by
    split
    · exact EReal.coe_lt_coe_iff.mpr (by norm_num)
    · rename_i hle
      exact not_le.mp fun h => hle (decide_eq_true h)
  generalize (if Floating.le 1 (w/maxWv) then 0.99 else w/maxWv) = capped at hlt ⊢
  rw [checkedDiv_eq (EReal.sub_pos.mpr hlt).ne']
  rfl

theorem checkedWeights_eq (histories : List (List EReal)) :
    checkedWeights histories = some (foolsgoldWeights histories) := by
  have hcs : (checkedMatrix histories.length fun i j => if i = j then some 0 else
      checkedCosine (histories.getD i []) (histories.getD j [])) =
        some (matrix histories.length (similarity histories)) := by
    refine checkedMatrix_eq fun i _ j _ => ?_
    unfold similarity
    split
    · rfl
    · exact checkedCosine_eq _ _
  have hplain : (matrix histories.length fun i j => if i = j then 0 else
      cosineSimilarity (histories.getD i []) (histories.getD j [])) =
        matrix histories.length (similarity histories) := rfl
  unfold checkedWeights foolsgoldWeights
  rw [hcs, hplain]
  dsimp only [bind, Option.bind]
  rw [checkedPardoned_eq, ← pardoned_matrix]
  dsimp only
  generalize rowMaxima (pardoned (matrix _ (similarity histories)) _) = maxcs
  by_cases hle : Floating.le ((maxcs.map fun m => Floating.clamp (1-m) 0 1).foldl Floating.max 0) 0
  · rw [if_pos hle, if_pos hle]
    rfl
  · rw [if_neg hle, if_neg hle]
    exact mapM_eq_some_map fun w _ => checkedSharpened_eq (fun hzero => hle (decide_eq_true hzero.le)) w

/-- Histories of real numbers, in the arithmetic where a logarithm may be minus infinity. -/
def extended (rows : List (List ℝ)) : List (List EReal) := rows.map (List.map (↑))

/-- No step divides by zero, there is a weight for every client, each a share of one, and clients
in another order have their weights in that order. -/
theorem foolsgoldWeights_extended (histories : List (List ℝ)) :
    checkedWeights (extended histories) = some (foolsgoldWeights (extended histories)) ∧
      (foolsgoldWeights (extended histories)).length = histories.length ∧
      (∀ w ∈ foolsgoldWeights (extended histories), 0 ≤ w ∧ w ≤ 1) ∧
      ∀ order : List ℕ, order.Perm (List.range histories.length) →
        foolsgoldWeights (order.map fun i => (extended histories).getD i []) =
          order.map fun i => (foolsgoldWeights (extended histories)).getD i 0 := by
  have hlen : (extended histories).length = histories.length := List.length_map _
  exact ⟨checkedWeights_eq _,(length_foolsgoldWeights _).trans hlen,
    fun w hw => foolsgoldWeights_mem hw,fun order horder => foolsgoldWeights_perm (hlen ▸ horder)⟩

end Divisions
end ConfluxFL.Temporal
