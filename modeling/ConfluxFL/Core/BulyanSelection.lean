import ConfluxFL.Core.SplitBatches
import ConfluxFL.Lib.FloatScale

/-! Bulyan's selection next to the published one. The filter takes the count of Byzantine updates
anew from the size of what is left of the pool, so in the end it scores with too many neighbours. -/
namespace ConfluxFL.Robust

/-- The published selection: `n-2f` times the first update with the least sum of squared distances
to its `|pool|-f-2` nearest in what is left of the pool, with one `f` throughout. -/
noncomputable def publishedSelection (byzantineFraction : F32) (decoded : List (List F32)) : List ℕ :=
  let n := decoded.length
  let f := byzantineCount byzantineFraction n
  let best := krumBest (embed decoded : List (List ℝ)) fun size => size-f-2
  ((Greedy.move best)^[n-2*f] (List.range n,[])).2.insertionSort (· ≤ ·)

section Split
variable {c f : ℕ}

theorem drop_core {i : ℕ} (hi : i ≤ c) :
    (List.range c).drop i++List.range' c (2*f+1) = List.range' i (c+(2*f+1)-i) := by
  rw [List.range_eq_range', List.drop_range', Nat.zero_add, Nat.mul_one]
  have happend := @List.range'_append i (c-i) (2*f+1) 1
  rw [Nat.one_mul, Nat.add_sub_cancel' hi] at happend
  rw [happend]
  congr 1
  omega

/-- After the core, whatever the rule picks of the rest. -/
theorem selection_splitRows {count : ℕ → ℕ} {p : ℕ} (hp : p < 2*f+1)
    (hcount : ∀ size, 2*f+1 < size → count size ≤ size-1)
    (hlast : krumBest (embed (splitRows c f) : List (List ℝ)) count (List.range' c (2*f+1)) = p) :
    ((Greedy.move (krumBest (embed (splitRows c f) : List (List ℝ)) count))^[c+1]
      (List.range (c+(2*f+1)),[])).2.insertionSort (· ≤ ·) = List.range c++[c+p] := by
  have hcore := @Greedy.iterate_front ℕ (krumBest (embed (splitRows c f) : List (List ℝ)) count)
    (List.range c) (List.range' c (2*f+1)) [] fun i hi => by
      rw [List.length_range] at hi
      rw [drop_core hi.le]
      exact krumBest_core hi (hcount _ (by omega))
  have hall : List.range (c+(2*f+1)) = List.range c++List.range' c (2*f+1) := by
    have := @drop_core c f 0 (Nat.zero_le c)
    rw [List.drop_zero, Nat.sub_zero] at this
    rw [this, List.range_eq_range']
  rw [List.length_range, List.nil_append, ← hall] at hcore
  rw [Function.iterate_succ_apply', hcore, Greedy.move, hlast, List.getElem?_range' hp, Nat.one_mul]
  change (List.range c++[c+p]).insertionSort (· ≤ ·) = _
  refine List.Pairwise.insertionSort_eq (List.pairwise_append.mpr
    ⟨List.pairwise_le_range,List.pairwise_singleton _ _,fun a ha b hb => ?_⟩)
  rw [List.mem_singleton.mp hb]
  exact (List.mem_range.mp ha).le.trans (Nat.le_add_right c p)

variable {byzantineFraction : F32}

/-- With one `f` throughout, the last pick is the first of the smaller group. -/
theorem publishedSelection_splitRows (hf : 0 < f)
    (h : byzantineCount byzantineFraction (c+(2*f+1)) = f) :
    publishedSelection byzantineFraction (splitRows c f) = List.range c++[c] := by
  have hlen : (splitRows c f).length = c+(2*f+1) := by
    rw [splitRows, List.length_map, List.length_range]
  unfold publishedSelection
  dsimp only
  rw [hlen, h, show c+(2*f+1)-2*f = c+1 by omega]
  exact selection_splitRows (Nat.succ_pos _) (fun size _ => by omega)
    (krumBest_published hf (by omega))

/-- The filter picks the first of the larger group: it assumes fewer Byzantine updates in the last
pool than in the batch. -/
theorem bulyanFilter_splitBatch (hf : 0 < f) (hc : 2*f+2 ≤ c) (hmax : c+(2*f+1) < 2^64)
    (h : byzantineCount byzantineFraction (c+(2*f+1)) = f) :
    bulyanFilter ℝ byzantineFraction (splitBatch c f) = .ok (List.range c++[c+f]) := by
  have hne : splitBatch c f ≠ [] := List.ne_nil_of_length_pos (by rw [length_splitBatch]; omega)
  have hless : byzantineCount byzantineFraction (2*f+1) < f :=
    (Nat.min_le_left _ _).trans_lt (F32.floorToNat_half hf (by omega) hmax h)
  rw [bulyanFilter_eq decode_splitBatch hne, length_splitBatch, h,
    show max (c+(2*f+1)-2*f) 1 = c+1 by omega]
  congr 1
  refine selection_splitRows (by omega) (fun size hsize => ?_) (krumBest_recomputed hf ?_ ?_)
  · unfold neighbors
    omega
  · unfold neighbors
    omega
  · unfold neighbors
    omega

end Split

section All
variable {byzantineFraction : F32} {updates : List ClientDelta} {decoded : List (List F32)}

/-- Where nothing is left out, nothing depends on the scores. -/
theorem bulyanFilter_all (hd : decodeAndValidate updates = .ok decoded) (hne : updates ≠ [])
    (h : byzantineCount byzantineFraction updates.length = 0) :
    bulyanFilter ℝ byzantineFraction updates = .ok (publishedSelection byzantineFraction decoded) := by
  have hlen : decoded.length = updates.length := by
    rw [(decodeAndValidate_ok hd).1, List.length_map]
  have hpos := List.length_pos_iff.mpr hne
  have hall {best : List ℕ → ℕ} (hbest : Greedy.Picks best) :
      ((Greedy.move best)^[updates.length] (List.range updates.length,[])).2.insertionSort (· ≤ ·) =
        List.range updates.length := by
    have hperm := Greedy.perm_of_all hbest (List.range updates.length)
    rw [List.length_range] at hperm
    refine List.Perm.eq_of_pairwise (fun a b _ _ hab hba => le_antisymm hab hba)
      (List.pairwise_insertionSort _ _) List.pairwise_le_range
      ((List.perm_insertionSort _ _).trans hperm)
  unfold publishedSelection
  dsimp only
  rw [bulyanFilter_eq hd hne, hlen, h, Nat.mul_zero, Nat.sub_zero, Nat.max_eq_left hpos,
    hall (picks_krumBest _ _), hall (picks_krumBest _ _)]

end All

/-- In a batch within Bulyan's bound the filter selects what the paper does, whatever the updates
are, exactly when it assumes no Byzantine ones. -/
theorem bulyanFilter_published_iff (byzantineFraction : F32) (n : ℕ) (hmax : n < 2^64)
    (hn : 4*byzantineCount byzantineFraction n+3 ≤ n) :
    (∀ updates decoded, updates.length = n → decodeAndValidate updates = .ok decoded →
      bulyanFilter ℝ byzantineFraction updates =
        .ok (publishedSelection byzantineFraction decoded)) ↔
      byzantineCount byzantineFraction n = 0 := by
  constructor
  · intro hall
    by_contra hne
    obtain ⟨f,hf⟩ : ∃ f, f = byzantineCount byzantineFraction n := ⟨_,rfl⟩
    obtain ⟨c,rfl⟩ : ∃ c, n = c+(2*f+1) := ⟨n-(2*f+1),by omega⟩
    have hsame := hall (splitBatch c f) (splitRows c f) length_splitBatch decode_splitBatch
    rw [bulyanFilter_splitBatch (by omega) (by omega) hmax hf.symm,
      publishedSelection_splitRows (by omega) hf.symm] at hsame
    have hlast := List.append_cancel_left (Except.ok.inj hsame)
    rw [List.cons.injEq] at hlast
    omega
  · rintro hzero updates decoded rfl hd
    exact bulyanFilter_all hd (List.ne_nil_of_length_pos (by omega)) hzero

/-- A fraction of 0.15, and seven updates. -/
theorem bulyanFilter_published_iff_seven :
    (∀ updates decoded, updates.length = 7 → decodeAndValidate updates = .ok decoded →
      bulyanFilter ℝ ⟨0x3e19999a⟩ updates = .ok (publishedSelection ⟨0x3e19999a⟩ decoded)) ↔
        byzantineCount ⟨0x3e19999a⟩ 7 = 0 :=
  bulyanFilter_published_iff ⟨0x3e19999a⟩ 7 (by decide) (by decide +kernel)

/-- One Byzantine update is assumed among seven, and none among the last three. -/
theorem not_published_seven :
    4*byzantineCount ⟨0x3e19999a⟩ (splitBatch 4 1).length+3 ≤ (splitBatch 4 1).length ∧
      decodeAndValidate (splitBatch 4 1) = .ok (splitRows 4 1) ∧
      bulyanFilter ℝ ⟨0x3e19999a⟩ (splitBatch 4 1) = .ok [0,1,2,3,5] ∧
      publishedSelection ⟨0x3e19999a⟩ (splitRows 4 1) = [0,1,2,3,4] :=
  ⟨by decide +kernel,decode_splitBatch,
    bulyanFilter_splitBatch (by decide) (by decide) (by decide) (by decide +kernel),
    publishedSelection_splitRows (by decide) (by decide +kernel)⟩

end ConfluxFL.Robust
