import ConfluxFL.Core.BulyanSelection
import ConfluxFL.Core.CoordinateRobust
import ConfluxFL.Lib.Coordinates

/-! Bulyan's two parts together, in exact arithmetic: the filter keeps `n-2f` updates, and the
trimmed mean cuts off as many values as the fraction gives for that size. That is less than the
Byzantine updates that may have been kept. -/
namespace ConfluxFL.Robust
open OrderStatistics

/-- What the catalog builds for Bulyan, in any arithmetic. -/
def bulyan (ν : Type) [Floating ν] (byzantineFraction : F32) (updates : List ClientDelta) :
    Except AggregatorError (List ν) :=
  filtered (bulyanFilter ν byzantineFraction) (coordinateWise (trimmedMean byzantineFraction)) updates

/-- In machine arithmetic it is that. -/
example (params : AggregatorParams) : buildAggregator "bulyan" params =
    .ok ⟨_,.stateless (bulyan F32 params.byzantineFraction)⟩ := rfl

/-- No more corrupted updates are selected than the trimmed mean cuts off at each end. -/
def FewSelected (byzantineFraction : F32) (updates : List ClientDelta) (honest : ℕ → Bool) : Prop :=
  ∃ selected, bulyanFilter ℝ byzantineFraction updates = .ok selected ∧
    selected.countP (fun i => !honest i) ≤
      min (byzantineCount byzantineFraction selected.length) ((selected.length-1)/2)

section Selected
variable {updates : List ClientDelta} {decoded : List (List F32)} {honest : ℕ → Bool}
  {selected : List ℕ}

/-- A selected update is honest when it was in the batch. -/
def honestIn (honest : ℕ → Bool) (selected : List ℕ) (i : ℕ) : Bool := honest (selected.getD i 0)

theorem corrupted_selected : corrupted (honestIn honest selected) selected.length =
    selected.countP fun i => !honest i := by
  conv_rhs => rw [← Coordinates.map_range_getD selected 0, List.countP_map]
  rfl

/-- What is between honest values of the selection is between honest values of the batch. -/
theorem between_of_selected (hin : ∀ i ∈ selected, i < decoded.length) {k : ℕ} {x : ℝ}
    (h : Between (honestIn honest selected)
      (column (selected.map fun i => decoded.getD i []) k) x) :
    Between honest (column decoded k) x := by
  have hvalue {i : ℕ} {a : ℝ} (ha : (column (selected.map fun i => decoded.getD i []) k)[i]? = some a) :
      (column decoded k)[selected.getD i 0]? = some a := by
    simp only [column, embed, List.map_map, List.getElem?_map] at ha ⊢
    obtain ⟨j,hj,rfl⟩ := Option.map_eq_some_iff.mp ha
    have hlt := hin j (List.mem_of_getElem? hj)
    rw [List.getD_eq_getElem?_getD, hj]
    simp [List.getElem?_eq_getElem hlt,List.getD_eq_getElem?_getD]
  obtain ⟨⟨i,a,ha,hi,hle⟩,j,b,hb,hj,hle'⟩ := h
  exact ⟨⟨_,a,hvalue ha,hi,hle⟩,_,b,hvalue hb,hj,hle'⟩

/-- A method behind a filter stays between honest values of the batch when it does for what is
selected. -/
theorem answersBetween_filtered {select : List ClientDelta → Except AggregatorError (List ℕ)}
    {combine : List ClientDelta → Except AggregatorError (List ℝ)} {count : ℕ}
    (hd : decodeAndValidate updates = .ok decoded) (hselect : select updates = .ok selected)
    (hpicks : Picks updates.length count selected) (hcount : 0 < count)
    (h : AnswersBetween combine (selected.filterMap fun i => updates[i]?)
      (selected.map fun i => decoded.getD i []) (honestIn honest selected)) :
    AnswersBetween (filtered select combine) updates decoded honest := by
  have hlen : decoded.length = updates.length := by
    rw [(decodeAndValidate_ok hd).1, List.length_map]
  have hpos : 0 < selected.length := by
    rw [hpicks.length]
    exact hcount
  have hpool := decodeAndValidate_pool hd hpicks.inBounds
  have hpoolne : (selected.filterMap fun i => updates[i]?) ≠ [] :=
    List.ne_nil_of_length_pos (by rw [length_pool hpicks.inBounds]; exact hpos)
  have hsub : (selected.filterMap fun i => updates[i]?) ⊆ updates := fun u hu => by
    obtain ⟨i,-,hi⟩ := List.mem_filterMap.mp hu
    exact List.mem_of_getElem? hi
  have hne : updates ≠ [] := fun hnil => hpoolne (List.subset_nil.mp (hnil ▸ hsub))
  obtain ⟨out,hout,hdim,hbetween⟩ := h
  refine ⟨out,?_,?_,fun k x hx => between_of_selected
    (by rw [hlen]; exact hpicks.inBounds) (hbetween k x hx)⟩
  · unfold filtered
    rw [if_neg hne, hselect]
    change (if selected = [] then _ else _) = _
    rw [if_neg (List.ne_nil_of_length_pos hpos), hout]
  · rw [hdim]
    exact (hasDimension_of_ok hd hne).subset (hasDimension_of_ok hpool hpoolne) hsub

end Selected

/-- With no more corrupted updates selected than are cut off, Bulyan stays between honest values. -/
theorem bulyan_between (byzantineFraction : F32) (updates : List ClientDelta)
    (decoded : List (List F32)) (honest : ℕ → Bool)
    (hd : decodeAndValidate updates = .ok decoded) (hne : updates ≠ [])
    (hfew : FewSelected byzantineFraction updates honest) :
    AnswersBetween (bulyan ℝ byzantineFraction) updates decoded honest := by
  obtain ⟨selected,hselect,hcount⟩ := hfew
  obtain ⟨selected',hselect',hpicks⟩ := @picks_bulyanFilter ℝ _ byzantineFraction _ _ hd hne
  obtain rfl : selected' = selected := Except.ok.inj (hselect'.symm.trans hselect)
  have hpos : 0 < selected'.length := by
    rw [hpicks.length]
    omega
  have hpool := decodeAndValidate_pool hd hpicks.inBounds
  have hlen := length_pool hpicks.inBounds
  refine answersBetween_filtered hd hselect hpicks (by omega) ?_
  refine answersBetween_of hpool (List.ne_nil_of_length_pos (by omega)) fun k =>
    trimmedMean_between ?_ byzantineFraction ?_
  · rw [length_column hpool, hlen]
    refine exists_honest ?_
    rw [corrupted_selected]
    omega
  · rw [length_column hpool, hlen, corrupted_selected]
    exact hcount

section Seven

/-- One update of seven is Byzantine, and not selected. -/
theorem bulyan_between_seven :
    AnswersBetween (bulyan ℝ ⟨0x3e19999a⟩) (splitBatch 4 1) (splitRows 4 1) fun i => i != 4 := by
  refine bulyan_between ⟨0x3e19999a⟩ (splitBatch 4 1) (splitRows 4 1) _ decode_splitBatch
    (List.cons_ne_nil _ _) ⟨[0,1,2,3,5],?_,by decide +kernel⟩
  exact bulyanFilter_splitBatch (by decide) (by decide) (by decide) (by decide +kernel)

/-- With nothing to cut off, the trimmed mean is the mean. -/
theorem trimmedMean_of_zero {byzantineFraction : F32} {values : List ℝ}
    (h : byzantineCount byzantineFraction values.length = 0) :
    trimmedMean byzantineFraction values = values.sum/values.length := by
  have hperm := Floating.sortBy_perm values
  unfold trimmedMean
  dsimp only
  rw [h, Nat.zero_min, List.drop_zero, Nat.sub_zero, Nat.sub_zero, ← hperm.length_eq,
    List.take_length, mean_real, hperm.sum_eq]

/-- Only the Byzantine update sets the bit. -/
theorem eq_zero_of_honestBit {j : ℕ} {b : ℝ} (hj : (j != 5) = true)
    (hb : ([0,0,0,0,0,1,0] : List ℝ)[j]? = some b) : b = 0 := by
  rcases j with _ | _ | _ | _ | _ | _ | _ | j
  case succ.succ.succ.succ.succ.zero => exact absurd hj (by decide)
  case succ.succ.succ.succ.succ.succ.succ => simp at hb
  all_goals simpa [eq_comm] using hb

/-- One update of seven is Byzantine; it is selected, and one fraction of five is none. -/
theorem not_bulyan_between_seven :
    (∃ req, batchRequirement "bulyan" ⟨0x3e19999a⟩ (splitBatch 4 1).length = some req ∧
      req.satisfiedBy (splitBatch 4 1).length = true) ∧
    decodeAndValidate (splitBatch 4 1) = .ok (splitRows 4 1) ∧
    corrupted (fun i => i != 5) (splitBatch 4 1).length ≤
      byzantineCount ⟨0x3e19999a⟩ (splitBatch 4 1).length ∧
    ¬AnswersBetween (bulyan ℝ ⟨0x3e19999a⟩) (splitBatch 4 1) (splitRows 4 1) fun i => i != 5 := by
  have hrequired : batchRequirement "bulyan" ⟨0x3e19999a⟩ (splitBatch 4 1).length =
      some ⟨7,1,"Bulyan requires n ≥ 4f + 3"⟩ := by
    decide +kernel
  refine ⟨⟨_,hrequired,by decide +kernel⟩,decode_splitBatch,by decide +kernel,?_⟩
  rintro ⟨out,hout,-,hbetween⟩
  have hselect : bulyanFilter ℝ ⟨0x3e19999a⟩ (splitBatch 4 1) = .ok [0,1,2,3,5] :=
    bulyanFilter_splitBatch (by decide) (by decide) (by decide) (by decide +kernel)
  have hbatch : splitBatch 4 1 ≠ [] := List.cons_ne_nil _ _
  have hpool := @decodeAndValidate_pool _ _ (@decode_splitBatch 4 1) [0,1,2,3,5]
    (by rw [length_splitBatch]; decide)
  have hpoolne : ([0,1,2,3,5].filterMap fun i => (splitBatch 4 1)[i]?) ≠ [] := nofun
  have hcombine : coordinateWise (trimmedMean ⟨0x3e19999a⟩)
      ([0,1,2,3,5].filterMap fun i => (splitBatch 4 1)[i]?) = .ok out := by
    unfold bulyan filtered at hout
    rw [if_neg hbatch, hselect] at hout
    exact hout
  unfold coordinateWise onBatch at hcombine
  rw [if_neg hpoolne, hpool] at hcombine
  -- the third coordinate is the bit of the selected Byzantine update
  have hcolumn : column (splitRows 4 1) 2 = [0,0,0,0,0,1,0] := by
    simp [column,embed,splitRows,splitRow,List.range_succ,ofF32_one,ofF32_zero]
  have hkept : (embed ([0,1,2,3,5].map fun i => (splitRows 4 1).getD i []) : List (List ℝ)).map
      (fun w => w.getD 2 0) = [0,0,0,0,1] := by
    simp [embed,splitRows,splitRow,List.range_succ,ofF32_one,ofF32_zero]
  have hmean : trimmedMean ⟨0x3e19999a⟩ ([0,0,0,0,1] : List ℝ) = 1/5 := by
    rw [trimmedMean_of_zero (by decide +kernel)]
    norm_num
  have hthird : out[2]? = some (1/5) := by
    rw [← Except.ok.inj hcombine, ← hmean, ← hkept]
    rfl
  obtain ⟨-,j,b,hb,hj,hle⟩ := hbetween 2 (1/5) hthird
  rw [hcolumn] at hb
  rw [eq_zero_of_honestBit hj hb] at hle
  norm_num at hle

end Seven

end ConfluxFL.Robust
