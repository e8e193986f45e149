import ConfluxFL.Core.BulyanTrim
import ConfluxFL.Core.CheckedFilters

/-! What a selection is good for: the positions a filter returns are all in the batch, so the updates
it hands on are there; and in exact arithmetic their combination stays within the batch's range. All
of this fails where Divide-and-Conquer compares a NaN. -/
namespace ConfluxFL.Robust
open OrderStatistics

/-- A filter in front of another method, with its indexing checked. -/
def filteredChecked {ν : Type} (select : List ClientDelta → Except FilterStop (List ℕ))
    (combine : List ClientDelta → Except AggregatorError (List ν)) (updates : List ClientDelta) :
    Except FilterStop (List ν) := do
  if updates = [] then .error (.error .emptyBatch)
  else
    let selected ← select updates
    if selected = [] then .error (.error .emptyBatch)
    else
      let batch ← selected.mapM fun i =>
        match updates[i]? with
        | some u => .ok u
        | none => .error (.panic "index out of bounds")
      passOn (combine batch)

/-- A filter picks as many positions as it promises, and what is combined are the updates there. -/
structure WellFormed (byzantineFraction : F32) (updates : List ClientDelta)
    (select : List ClientDelta → Except FilterStop (List ℕ)) (count : ℕ) : Prop where
  picks : ∃ selected, select updates = .ok selected ∧ Picks updates.length count selected
  combines (combine : List ClientDelta → Except AggregatorError (List F32)) : ∃ batch,
    batch ≠ [] ∧ batch ⊆ updates ∧ filteredChecked select combine updates = passOn (combine batch)
  notEmpty : ∀ combine ∈ [fedAvgAggregate,coordinateWise (trimmedMean byzantineFraction)],
    filteredChecked select combine updates ≠ .error (.error .emptyBatch)

/-- Divide-and-conquer in any arithmetic, with a number of power iterations. -/
def divideAndConquerBy (ν : Type) [Floating ν] (iterations : ℕ) (byzantineFraction : F32)
    (updates : List ClientDelta) : Except AggregatorError (List ℕ) := do
  let decoded ← decodeAndValidate updates
  let n := decoded.length
  let f := byzantineCount byzantineFraction n
  if f = 0 then return List.range n
  else
    let scores := projections iterations (embed decoded : List (List ν))
    let ranked := (List.range n).insertionSort fun a b =>
      Floating.le (scores.getD b 0) (scores.getD a 0) = true
    return (List.range n).filter fun i => i ∉ ranked.take f

/-- The catalog's, in machine arithmetic. -/
theorem divideAndConquerBy_f32 (byzantineFraction : F32) (updates : List ClientDelta) :
    divideAndConquerBy F32 30 byzantineFraction updates =
      divideAndConquerFilter F32 byzantineFraction updates := by
  have hscore (rows : List (List F32)) (i : ℕ) : (projections 30 rows).getD i 0 =
      dot ((centeredRows rows).getD i []) (topSingularVector (centeredRows rows) 30)*
        dot ((centeredRows rows).getD i []) (topSingularVector (centeredRows rows) 30) := by
    unfold projections
    dsimp only
    by_cases hi : i < (centeredRows rows).length
    · simp [List.getD_eq_getElem?_getD,List.getElem?_eq_getElem hi]
    · rw [List.getD_eq_default _ _ (by rw [List.length_map]; omega),
        List.getD_eq_default _ _ (by omega)]
      change (0 : F32) = Floating.sum ([] : List F32)*Floating.sum []
      decide +kernel
  unfold divideAndConquerBy divideAndConquerFilter
  simp only [hscore]
  rfl

/-- No squared projection of an update onto the batch's main direction is a NaN. -/
def ProjectsToNumbers (iterations : ℕ) (decoded : List (List F32)) : Prop :=
  ∀ s ∈ projections iterations decoded, s.isNaN = false

/-- All five filters are well-formed, and in exact arithmetic what they are composed with stays
within the range of the batch. -/
structure SelectionsWellFormed (byzantineFraction : F32) (iterations : ℕ)
    (updates : List ClientDelta) (decoded : List (List F32)) : Prop where
  krum : WellFormed byzantineFraction updates (krumFilterChecked F32 byzantineFraction) 1
  multiKrum : WellFormed byzantineFraction updates (multiKrumFilterChecked F32 byzantineFraction)
    (updates.length-byzantineCount byzantineFraction updates.length)
  faba : WellFormed byzantineFraction updates (fabaFilterChecked F32 byzantineFraction)
    (updates.length-byzantineCount byzantineFraction updates.length)
  bulyan : WellFormed byzantineFraction updates (bulyanFilterChecked F32 byzantineFraction)
    (max 1 (updates.length-2*byzantineCount byzantineFraction updates.length))
  divideAndConquer : WellFormed byzantineFraction updates
    (fun us => divideAndConquerFilterChecked F32 byzantineFraction us iterations)
    (updates.length-byzantineCount byzantineFraction updates.length)
  withinRange : (∀ u ∈ updates, 0 < u.numSamples) →
    (∀ select ∈ [krumFilter ℝ byzantineFraction,multiKrumFilter ℝ byzantineFraction,
        fabaFilter ℝ byzantineFraction,divideAndConquerBy ℝ iterations byzantineFraction],
      AnswersBetween (filtered select fedAvgIn) updates decoded fun _ => true) ∧
    AnswersBetween (Robust.bulyan ℝ byzantineFraction) updates decoded fun _ => true

section Range

theorem getD_addScaled {acc src : List ℝ} {k : ℕ} (hacc : k < acc.length) (hsrc : k < src.length)
    (weight : ℝ) : (addScaled acc src weight).getD k 0 = acc.getD k 0+src.getD k 0*weight := by
  simp [addScaled,List.getD_eq_getElem?_getD,List.getElem?_zipWith,List.getElem?_eq_getElem hacc,
    List.getElem?_eq_getElem hsrc]

/-- A weighted sum of rows is between the bounds of its rows, weighted alike. -/
theorem foldl_addScaled_bounds {dim k : ℕ} (hk : k < dim) {lo hi total : ℝ}
    {weighted : List (ℝ × List ℝ)} (h : ∀ p ∈ weighted, p.2.length = dim ∧ 0 ≤ p.1/total ∧
      lo ≤ p.2.getD k 0 ∧ p.2.getD k 0 ≤ hi) {acc : List ℝ} (hacc : acc.length = dim) :
    acc.getD k 0+lo*(weighted.map fun p => p.1/total).sum ≤
        (weighted.foldl (fun acc p => addScaled acc p.2 (p.1/total)) acc).getD k 0 ∧
      (weighted.foldl (fun acc p => addScaled acc p.2 (p.1/total)) acc).getD k 0 ≤
        acc.getD k 0+hi*(weighted.map fun p => p.1/total).sum := by
  induction weighted generalizing acc with
  | nil => simp
  | cons p weighted ih =>
    obtain ⟨hlen,hweight,hlo,hhi⟩ := h p List.mem_cons_self
    obtain ⟨hlow,hhigh⟩ := ih (fun q hq => h q (List.mem_cons_of_mem p hq))
      (length_addScaled hacc hlen (p.1/total))
    rw [getD_addScaled (by omega) (by omega)] at hlow hhigh
    rw [List.foldl_cons, List.map_cons, List.sum_cons]
    have hlow' := mul_le_mul_of_nonneg_right hlo hweight
    have hhigh' := mul_le_mul_of_nonneg_right hhi hweight
    constructor <;> linarith

/-- Every row has its value at a coordinate in the column. -/
theorem getD_mem_column {decoded : List (List F32)} {w : List ℝ} (hw : w ∈ embed decoded) (k : ℕ) :
    w.getD k 0 ∈ column decoded k :=
  List.mem_map_of_mem hw

/-- The average by sample counts of a batch that has samples. -/
theorem fedAvgIn_between {updates : List ClientDelta} {decoded : List (List F32)}
    (hd : decodeAndValidate updates = .ok decoded) (hne : updates ≠ [])
    (hsamples : ∀ u ∈ updates, 0 < u.numSamples) :
    AnswersBetween fedAvgIn updates decoded fun _ => true := by
  have hlen : (embed decoded : List (List ℝ)).length = updates.length := length_embed_of_ok hd
  obtain ⟨raw,hraw⟩ : ∃ raw : List ℝ, raw = updates.map fun u => Floating.ofNat u.numSamples :=
    ⟨_,rfl⟩
  have hpositive : ∀ r ∈ raw, 0 < r := by
    intro r hr
    rw [hraw] at hr
    obtain ⟨u,hu,rfl⟩ := List.mem_map.mp hr
    exact Nat.cast_pos.mpr (hsamples u hu)
  have htotal : 0 < raw.sum := by
    refine List.sum_pos raw hpositive ?_
    rw [hraw]
    exact List.map_eq_nil_iff.not.mpr hne
  have hzip : (raw.zip (embed decoded : List (List ℝ))).map Prod.fst = raw :=
    List.map_fst_zip (by rw [hraw, List.length_map, hlen])
  have hweights : ((raw.zip (embed decoded : List (List ℝ))).map fun p => p.1/raw.sum).sum = 1 := by
    simp only [div_eq_mul_inv]
    rw [List.sum_map_mul_right]
    change ((raw.zip (embed decoded : List (List ℝ))).map Prod.fst).sum*raw.sum⁻¹ = 1
    rw [hzip, mul_inv_cancel₀ htotal.ne']
  have hout : fedAvgIn updates = .ok ((raw.zip (embed decoded : List (List ℝ))).foldl
      (fun acc p => addScaled acc p.2 (p.1/raw.sum))
        (zeros ((embed decoded : List (List ℝ)).headD []).length)) := by
    unfold fedAvgIn onBatch
    rw [if_neg hne, hd]
    unfold averageBySamples
    dsimp only
    rw [← hraw, Floating.sum_real, if_neg (by simpa [Floating.beq] using htotal.ne')]
  have hrow := @length_of_mem_embed ℝ _ updates decoded hd
  have hlength : ((raw.zip (embed decoded : List (List ℝ))).foldl
      (fun acc p => addScaled acc p.2 (p.1/raw.sum))
        (zeros ((embed decoded : List (List ℝ)).headD []).length)).length =
          (decoded.headD []).length := by
    rw [length_headD_embed]
    exact length_foldl (fun acc p hp hacc => length_addScaled hacc
      (hrow p.2 (List.of_mem_zip hp).2) _) (length_zeros _)
  refine ⟨_,hout,hlength,fun k x hx => ?_⟩
  obtain ⟨hk,hx⟩ := List.getElem?_eq_some_iff.mp hx
  have hsome : ∃ i < (column decoded k).length, (fun _ : ℕ => true) i = true := by
    rw [length_column hd]
    exact ⟨0,List.length_pos_iff.mpr hne,rfl⟩
  obtain ⟨lo,hi,hbounds,hiff⟩ := exists_bounds hsome
  obtain ⟨hlow,hhigh⟩ := @foldl_addScaled_bounds (decoded.headD []).length k (hlength ▸ hk) lo hi
    raw.sum (raw.zip (embed decoded)) (fun p hp => by
      obtain ⟨i,hi,hpi⟩ := List.mem_iff_getElem.mp (getD_mem_column (List.of_mem_zip hp).2 k)
      have := hbounds i _ (List.getElem?_eq_some_iff.mpr ⟨hi,hpi⟩) rfl
      exact ⟨hrow p.2 (List.of_mem_zip hp).2,
        div_nonneg (hpositive p.1 (List.of_mem_zip hp).1).le htotal.le,this⟩)
    (zeros ((embed decoded : List (List ℝ)).headD []).length)
    (by rw [length_zeros, length_headD_embed])
  have hzero : (zeros ((embed decoded : List (List ℝ)).headD []).length).getD k 0 = (0 : ℝ) := by
    rw [length_headD_embed]
    simp [zeros,List.getD_eq_getElem?_getD]
  rw [hzero, hweights, mul_one, zero_add, List.getD_eq_getElem _ _ hk, hx] at hlow
  rw [hzero, hweights, mul_one, zero_add, List.getD_eq_getElem _ _ hk, hx] at hhigh
  exact (hiff x).mpr ⟨hlow,hhigh⟩

end Range

section Filters
variable {byzantineFraction : F32} {updates : List ClientDelta} {decoded : List (List F32)}

theorem averageBySamples_ne_emptyBatch (us : List ClientDelta) (rows : List (List F32)) :
    averageBySamples us rows ≠ .error .emptyBatch := by
  unfold averageBySamples
  dsimp only
  split_ifs <;> exact nofun

/-- A selection of positions of a valid batch is all that well-formedness takes. -/
theorem wellFormed_of {select : List ClientDelta → Except FilterStop (List ℕ)}
    {selected : List ℕ} {count : ℕ} (hd : decodeAndValidate updates = .ok decoded)
    (hne : updates ≠ []) (hselect : select updates = .ok selected)
    (hpicks : Picks updates.length count selected) (hcount : 0 < count) :
    WellFormed byzantineFraction updates select count := by
  obtain ⟨batch,hbatch⟩ : ∃ batch, batch = selected.filterMap fun i => updates[i]? := ⟨_,rfl⟩
  have hpool : decodeAndValidate batch = .ok _ := hbatch ▸ decodeAndValidate_pool hd hpicks.inBounds
  have hpos : 0 < selected.length := by
    rw [hpicks.length]
    exact hcount
  have hbatchne : batch ≠ [] := List.ne_nil_of_length_pos
    (by rw [hbatch, length_pool hpicks.inBounds]; exact hpos)
  have hindex : (selected.mapM fun i => match updates[i]? with
      | some u => .ok u
      | none => .error (.panic "index out of bounds")) = (Except.ok batch : Except FilterStop _) := by
    refine Fallible.mapM_ok_iff.mpr ⟨fun i hi => ?_,?_⟩
    · rw [List.getElem?_eq_getElem (hpicks.inBounds i hi)]
      exact ⟨_,rfl⟩
    · rw [hbatch]
      refine List.filterMap_congr fun i hi => ?_
      rw [List.getElem?_eq_getElem (hpicks.inBounds i hi)]
      rfl
  have hcombine (combine : List ClientDelta → Except AggregatorError (List F32)) :
      filteredChecked select combine updates = passOn (combine batch) := by
    unfold filteredChecked
    rw [if_neg hne, hselect]
    change (if selected = [] then _ else _) = _
    rw [if_neg (List.ne_nil_of_length_pos hpos), hindex]
    rfl
  refine ⟨⟨selected,hselect,hpicks⟩,fun combine => ⟨batch,hbatchne,fun u hu => ?_,hcombine combine⟩,
    fun combine hmem => ?_⟩
  · rw [hbatch] at hu
    obtain ⟨i,-,hi⟩ := List.mem_filterMap.mp hu
    exact List.mem_of_getElem? hi
  · have herror : combine batch ≠ .error .emptyBatch := by
      rw [List.mem_cons, List.mem_singleton] at hmem
      obtain rfl | rfl := hmem
      · rw [← fedAvgIn_f32]
        unfold fedAvgIn onBatch
        rw [if_neg hbatchne, hpool]
        exact averageBySamples_ne_emptyBatch _ _
      · unfold coordinateWise onBatch
        rw [if_neg hbatchne, hpool]
        exact nofun
    rw [hcombine]
    cases hresult : combine batch with
    | ok out => exact nofun
    | error e =>
      intro h
      cases h
      exact herror hresult

theorem length_projections (iterations : ℕ) (rows : List (List F32)) :
    (projections iterations rows).length = rows.length := by
  unfold projections centeredRows
  dsimp only
  rw [List.length_map, List.length_map]

theorem picks_divideAndConquerBy (ν : Type) [Floating ν] (iterations : ℕ)
    (hd : decodeAndValidate updates = .ok decoded) :
    ∃ selected, divideAndConquerBy ν iterations byzantineFraction updates = .ok selected ∧
      Picks updates.length (updates.length-byzantineCount byzantineFraction updates.length)
        selected := by
  have hlen : decoded.length = updates.length := by
    rw [(decodeAndValidate_ok hd).1, List.length_map]
  have hf : byzantineCount byzantineFraction updates.length ≤ updates.length-1 :=
    Nat.min_le_right _ _
  unfold divideAndConquerBy
  rw [hd, ← hlen]
  rw [← hlen] at hf
  change ∃ selected, (if byzantineCount byzantineFraction decoded.length = 0 then _ else _) = _ ∧ _
  split_ifs with hzero
  · refine ⟨_,rfl,List.pairwise_lt_range,fun i hi => List.mem_range.mp hi,?_⟩
    rw [hzero, List.length_range, Nat.sub_zero]
  · exact ⟨_,rfl,picks_rest (List.perm_insertionSort _ _) (by omega)⟩

/-- Without a NaN among the projections nothing stops the filter. -/
theorem divideAndConquerFilterChecked_of (iterations : ℕ)
    (hd : decodeAndValidate updates = .ok decoded)
    (h : byzantineCount byzantineFraction updates.length = 0 ∨ ProjectsToNumbers iterations decoded) :
    divideAndConquerFilterChecked F32 byzantineFraction updates iterations =
      passOn (divideAndConquerBy F32 iterations byzantineFraction updates) := by
  have hlen : decoded.length = updates.length := by
    rw [(decodeAndValidate_ok hd).1, List.length_map]
  unfold divideAndConquerFilterChecked divideAndConquerBy
  rw [hd]
  change (if byzantineCount byzantineFraction decoded.length = 0 then _ else _) =
    passOn (if byzantineCount byzantineFraction decoded.length = 0 then _ else _)
  split_ifs with hzero
  · rfl
  · have hnumbers : ProjectsToNumbers iterations decoded :=
      h.resolve_left fun h0 => hzero (hlen ▸ h0)
    rw [embed_f32, expectNumbers_ok hnumbers]
    rfl

/-- With one, and something to exclude, it panics. -/
theorem divideAndConquerFilterChecked_panic (iterations : ℕ)
    (hd : decodeAndValidate updates = .ok decoded)
    (hf : byzantineCount byzantineFraction updates.length ≠ 0)
    (h : ¬ProjectsToNumbers iterations decoded) :
    divideAndConquerFilterChecked F32 byzantineFraction updates iterations =
      .error (.panic "scores are never NaN") := by
  have hlen : decoded.length = updates.length := by
    rw [(decodeAndValidate_ok hd).1, List.length_map]
  have hle : byzantineCount byzantineFraction updates.length ≤ updates.length-1 :=
    Nat.min_le_right _ _
  unfold ProjectsToNumbers at h
  push Not at h
  obtain ⟨s,hs,hnan⟩ := h
  unfold divideAndConquerFilterChecked
  rw [hd]
  change (if byzantineCount byzantineFraction decoded.length = 0 then _ else _) = _
  rw [if_neg (by rwa [hlen]), embed_f32, expectNumbers_panic _ hs (Bool.eq_true_of_not_eq_false hnan)]
  · rfl
  · rw [length_projections]
    omega

/-- In exact arithmetic the catalog's compositions stay within the range of the batch. -/
theorem filtered_within (byzantineFraction : F32) (iterations : ℕ)
    (hd : decodeAndValidate updates = .ok decoded) (hne : updates ≠ [])
    (hsamples : ∀ u ∈ updates, 0 < u.numSamples) :
    ∀ select ∈ [krumFilter ℝ byzantineFraction,multiKrumFilter ℝ byzantineFraction,
        fabaFilter ℝ byzantineFraction,divideAndConquerBy ℝ iterations byzantineFraction],
      AnswersBetween (filtered select fedAvgIn) updates decoded fun _ => true := by
  have hf : byzantineCount byzantineFraction updates.length < updates.length :=
    excludedAt_lt (Nat.ne_of_gt (List.length_pos_iff.mpr hne))
  have hone {select : List ClientDelta → Except AggregatorError (List ℕ)} {count : ℕ}
      (hpicks : ∃ selected, select updates = .ok selected ∧ Picks updates.length count selected)
      (hcount : 0 < count) :
      AnswersBetween (filtered select fedAvgIn) updates decoded fun _ => true := by
    obtain ⟨selected,hselect,hpicks⟩ := hpicks
    refine answersBetween_filtered hd hselect hpicks hcount ?_
    refine fedAvgIn_between (decodeAndValidate_pool hd hpicks.inBounds)
      (List.ne_nil_of_length_pos ?_) fun u hu => ?_
    · rw [length_pool hpicks.inBounds, hpicks.length]
      exact hcount
    · obtain ⟨i,-,hi⟩ := List.mem_filterMap.mp hu
      exact hsamples u (List.mem_of_getElem? hi)
  intro select hmem
  simp only [List.mem_cons, List.not_mem_nil, or_false] at hmem
  obtain rfl | rfl | rfl | rfl := hmem
  · exact hone (picks_krumFilter ℝ hd hne) Nat.one_pos
  · exact hone (picks_multiKrumFilter ℝ hd hne) (by omega)
  · exact hone (picks_fabaFilter ℝ hd hne) (by omega)
  · exact hone (picks_divideAndConquerBy ℝ iterations hd) (by omega)

end Filters

/-- The filters are well-formed on a batch exactly when nothing is to be excluded or
Divide-and-Conquer projects every update to a number. -/
theorem selectionsWellFormed_iff (byzantineFraction : F32) (iterations : ℕ)
    (updates : List ClientDelta) (decoded : List (List F32))
    (hd : decodeAndValidate updates = .ok decoded) (hne : updates ≠ []) :
    SelectionsWellFormed byzantineFraction iterations updates decoded ↔
      byzantineCount byzantineFraction updates.length = 0 ∨ ProjectsToNumbers iterations decoded := by
  constructor
  · intro h
    by_contra hnot
    rw [not_or] at hnot
    obtain ⟨selected,hselect,-⟩ := h.divideAndConquer.picks
    rw [divideAndConquerFilterChecked_panic iterations hd hnot.1 hnot.2] at hselect
    cases hselect
  · intro h
    have hf : byzantineCount byzantineFraction updates.length < updates.length :=
      excludedAt_lt (Nat.ne_of_gt (List.length_pos_iff.mpr hne))
    -- a checked filter answers like the one of the catalog
    have hone {select : List ClientDelta → Except FilterStop (List ℕ)}
        {plain : Except AggregatorError (List ℕ)} {count : ℕ} (hsame : select updates = passOn plain)
        (hpicks : ∃ selected, plain = .ok selected ∧ Picks updates.length count selected)
        (hcount : 0 < count) : WellFormed byzantineFraction updates select count := by
      obtain ⟨selected,hselect,hpicks⟩ := hpicks
      rw [hselect] at hsame
      exact wellFormed_of hd hne hsame hpicks hcount
    constructor
    · exact hone (krumFilterChecked_f32 _ hne) (picks_krumFilter F32 hd hne) Nat.one_pos
    · exact hone (multiKrumFilterChecked_f32 _ _) (picks_multiKrumFilter F32 hd hne) (by omega)
    · exact hone (fabaFilterChecked_f32 _ _) (picks_fabaFilter F32 hd hne) (by omega)
    · rw [max_comm]
      exact hone (bulyanFilterChecked_f32 _ _) (picks_bulyanFilter hd hne) (by omega)
    · exact hone (divideAndConquerFilterChecked_of iterations hd h)
        (picks_divideAndConquerBy F32 iterations hd) (by omega)
    · intro hsamples
      refine ⟨filtered_within byzantineFraction iterations hd hne hsamples,?_⟩
      obtain ⟨selected,hselect,-⟩ := @picks_bulyanFilter ℝ _ byzantineFraction _ _ hd hne
      refine bulyan_between byzantineFraction updates decoded _ hd hne ⟨selected,hselect,?_⟩
      rw [List.countP_eq_zero.mpr fun i _ => by simp]
      exact Nat.zero_le _

/-- Five updates, one of them to be excluded. -/
theorem selectionsWellFormed_iff_fiveWeights :
    SelectionsWellFormed ⟨0x3e4ccccd⟩ 30 fiveWeights
      [[⟨0x3f800000⟩],[⟨0x3f800000⟩],[⟨0x3f800000⟩],[⟨0x3f800000⟩],[⟨0x41100000⟩]] :=
  (selectionsWellFormed_iff ⟨0x3e4ccccd⟩ 30 fiveWeights _ (by decide +kernel)
    (List.cons_ne_nil _ _)).mpr (.inr (by unfold ProjectsToNumbers; decide +kernel))

/-- A weight whose square is too large for the arithmetic. -/
def farWeights : List ClientDelta :=
  [reportedWeight "a" ⟨0x60ad78ec⟩ 1,reportedWeight "b" F32.zero 1,reportedWeight "c" F32.zero 1,
    reportedWeight "d" F32.zero 1,reportedWeight "e" F32.zero 1]

/-- The direction becomes a NaN, and the filter panics on a valid batch. -/
theorem not_selectionsWellFormed_farWeights :
    decodeAndValidate farWeights = .ok [[⟨0x60ad78ec⟩],[F32.zero],[F32.zero],[F32.zero],[F32.zero]] ∧
      divideAndConquerFilterChecked F32 ⟨0x3e4ccccd⟩ farWeights 30 =
        .error (.panic "scores are never NaN") ∧
      ¬SelectionsWellFormed ⟨0x3e4ccccd⟩ 30 farWeights
        [[⟨0x60ad78ec⟩],[F32.zero],[F32.zero],[F32.zero],[F32.zero]] := by
  have hpanic : divideAndConquerFilterChecked F32 ⟨0x3e4ccccd⟩ farWeights 30 =
      .error (.panic "scores are never NaN") := by
    decide +kernel
  refine ⟨by decide +kernel,hpanic,fun h => ?_⟩
  obtain ⟨selected,hselect,-⟩ := h.divideAndConquer.picks
  rw [hpanic] at hselect
  cases hselect

end ConfluxFL.Robust
