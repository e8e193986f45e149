import ConfluxFL.Core.Build
import ConfluxFL.Lib.FloatLaws
import ConfluxFL.Lib.Selection

/-! Krum and the sample counts clients report: the choice does not read them, but the average over
the one update that is chosen divides by its count. -/
namespace ConfluxFL

/-- The batch with other sample counts, by position. -/
def recount (updates : List ClientDelta) (counts : ℕ → ℕ) : List ClientDelta :=
  updates.mapIdx fun i u => { u with numSamples := counts i }

/-- What a method of the catalog answers to its first batch. -/
def aggregateBuilt (name : String) (params : AggregatorParams) (injected : Injected)
    (updates : List ClientDelta) :
    Except AggregatorBuildError (Except AggregatorError (List F32)) :=
  (buildAggregator name params).map fun a => (a.2.aggregate a.2.init injected updates).1

/-- Equal as numbers: the sign of a zero does not count. -/
def SameValues (a b : List F32) : Prop := List.Forall₂ (fun x y => x.beq y = true) a b

/-- The first position no score is below. -/
structure LowestScore (scores : List F32) (i : ℕ) : Prop where
  lt_length : i < scores.length
  lowest : ∀ j < scores.length, (scores.getD j F32.zero).lt (scores.getD i F32.zero) = false
  first : ∀ j < i, (scores.getD i F32.zero).lt (scores.getD j F32.zero) = true

/-- Nothing Krum compares is a NaN, its answer is the lowest-scoring update's weights, and other
sample counts change nothing. -/
structure IgnoresCounts (params : AggregatorParams) (injected : Injected)
    (updates : List ClientDelta) (counts : ℕ → ℕ) : Prop where
  returnsWinner : ∃ decoded scores i out, decodeAndValidate updates = .ok decoded ∧
    krumScores params.byzantineFraction updates = .ok scores ∧
    (∀ j k, (distance decoded j k*distance decoded j k).isNaN = false) ∧
    (∀ s ∈ scores, s.isNaN = false) ∧ LowestScore scores i ∧
    aggregateBuilt "krum" params injected updates = .ok (.ok out) ∧
    SameValues out (decoded.getD i [])
  unchanged : aggregateBuilt "krum" params injected (recount updates counts) =
    aggregateBuilt "krum" params injected updates

/-- The lowest-scoring update reports a sample, in this batch and with the other counts. -/
def WinnerCounts (params : AggregatorParams) (updates : List ClientDelta) (counts : ℕ → ℕ) :
    Prop :=
  ∃ scores i u, krumScores params.byzantineFraction updates = .ok scores ∧
    LowestScore scores i ∧ updates[i]? = some u ∧ u.numSamples ≠ 0 ∧ counts i ≠ 0

section Scores
variable {decoded : List (List F32)}

/-- Every value of every row is finite. -/
def AllFinite (decoded : List (List F32)) : Prop := ∀ w ∈ decoded, ∀ x ∈ w, x.isFinite = true

theorem allFinite_of_ok {updates : List ClientDelta} (h : decodeAndValidate updates = .ok decoded) :
    AllFinite decoded := by
  obtain ⟨rfl,hall⟩ := decodeAndValidate_ok h
  intro w hw
  obtain ⟨u,hu,rfl⟩ := List.mem_map.mp hw
  exact (hall u hu).2.2.1

/-- A distance is not negative when one of its rows is finite and the other holds no NaN. -/
theorem nonneg_l2Distance {a b : List F32} (ha : ∀ x ∈ a, x.isFinite = true)
    (hb : ∀ x ∈ b, x.unpacked ≠ .notANumber) : (l2Distance a b).Nonneg := by
  refine (F32.nonneg_sum fun z hz => ?_).sqrt
  obtain ⟨x,hx,y,hy,rfl⟩ := mem_zipWith hz
  exact F32.nonneg_mul_self (F32.sub_ne_nan ((F32.isFinite_iff x).mp (ha x hx)) (hb y hy))

/-- A row that is not there is finite too. -/
theorem AllFinite.getD (h : AllFinite decoded) (k : ℕ) :
    ∀ x ∈ decoded.getD k [], x.isFinite = true := by
  intro x hx
  by_cases hk : k < decoded.length
  · rw [List.getD_eq_getElem _ _ hk] at hx
    exact h _ (List.getElem_mem hk) x hx
  · rw [List.getD_eq_default _ _ (Nat.le_of_not_lt hk)] at hx
    cases hx

theorem nonneg_distance (h : AllFinite decoded) (i j : ℕ) : (distance decoded i j).Nonneg := by
  unfold distance
  split
  · trivial
  · exact nonneg_l2Distance (h.getD _) fun x hx => ((F32.isFinite_iff x).mp (h.getD _ x hx)).ne_nan

theorem nonneg_distance_sq (h : AllFinite decoded) (i j : ℕ) :
    (distance decoded i j*distance decoded i j).Nonneg :=
  F32.nonneg_mul_self (nonneg_distance h i j).ne_nan

theorem nonneg_krumScore (h : AllFinite decoded) (neighbors i : ℕ) :
    (krumScore decoded neighbors i).Nonneg := by
  refine F32.nonneg_sum fun z hz => ?_
  have hmem := (List.mem_insertionSort _).mp (List.mem_of_mem_take hz)
  obtain ⟨j,-,rfl⟩ := List.mem_map.mp hmem
  exact nonneg_distance_sq h i j

theorem nonneg_krumScores {byzantineFraction : F32} {updates : List ClientDelta}
    {scores : List F32} (h : krumScores byzantineFraction updates = .ok scores) :
    ∀ s ∈ scores, s.Nonneg := by
  obtain ⟨decoded,hd,h⟩ := Fallible.except_bind_ok_iff.mp h
  cases h
  intro s hs
  obtain ⟨i,-,rfl⟩ := List.mem_map.mp hs
  exact nonneg_krumScore (allFinite_of_ok hd) _ i

theorem lowestScore_iff {scores : List F32} (h : ∀ s ∈ scores, s.Nonneg) {i : ℕ} :
    LowestScore scores i ↔ Floating.FirstLeast F32.key scores i := by
  have hlt {j k : ℕ} (hj : j < scores.length) (hk : k < scores.length) :
      (scores.getD j F32.zero).lt (scores.getD k F32.zero) =
        decide ((scores.getD j 0).key < (scores.getD k 0).key) := by
    have hmem {l : ℕ} (hl : l < scores.length) : scores.getD l F32.zero ∈ scores := by
      rw [List.getD_eq_getElem _ _ hl]
      exact List.getElem_mem hl
    exact F32.lt_eq_key (h _ (hmem hj)) (h _ (hmem hk))
  constructor
  · rintro ⟨hi,hleast,hfirst⟩
    refine ⟨hi,fun j hj => ?_,fun j hj => ?_⟩
    · have := hleast j hj
      rw [hlt hj hi, decide_eq_false_iff_not] at this
      exact not_lt.mp this
    · have := hfirst j hj
      rwa [hlt hi (hj.trans hi), decide_eq_true_iff] at this
  · rintro ⟨hi,hleast,hfirst⟩
    refine ⟨hi,fun j hj => ?_,fun j hj => ?_⟩
    · rw [hlt hj hi, decide_eq_false_iff_not]
      exact not_lt.mpr (hleast j hj)
    · rw [hlt hi (hj.trans hi), decide_eq_true_iff]
      exact hfirst j hj

/-- The filter keeps the lowest-scoring update. -/
theorem lowestScore_argMin {scores : List F32} (hne : scores ≠ []) (h : ∀ s ∈ scores, s.Nonneg) :
    LowestScore scores (argMin scores) :=
  (lowestScore_iff h).mpr (Floating.firstLeast_argMin hne fun a ha b hb =>
    F32.lt_eq_key (h a ha) (h b hb))

end Scores

section Average
variable {u : ClientDelta} {w : List F32}

/-- A count that is not zero makes the only update's share one. -/
theorem share_eq_one {n : ℕ} (hn : n ≠ 0) (hmax : n ≤ maxPlausibleSampleCount) :
    (F32.ofNat n).beq F32.zero = false ∧ F32.ofNat n/F32.ofNat n = F32.one := by
  have hlt : n < 2^127 := hmax.trans_lt (by decide)
  obtain ⟨m,e,hm,hu,-,-,-⟩ := F32.unpacked_ofNat_of_lt (Nat.pos_of_ne_zero hn) hlt
  refine ⟨?_,F32.div_self_of_finite hu⟩
  rw [F32.beq_eq, hu, F32.unpacked_zero]
  rfl

theorem sum_singleton_ofNat {n : ℕ} (hmax : n ≤ maxPlausibleSampleCount) :
    F32.sum [F32.ofNat n] = F32.ofNat n := by
  by_cases hn : n = 0
  · rw [hn]
    decide +kernel
  · obtain ⟨m,e,hm,hu,-,-,-⟩ :=
      F32.unpacked_ofNat_of_lt (Nat.pos_of_ne_zero hn) (hmax.trans_lt (by decide))
    exact F32.negZero_add (by rw [hu]; exact nofun)

theorem zipWith_replicate_length {α β γ : Type} (f : α → β → γ) (a : α) (bs : List β) :
    (List.replicate bs.length a).zipWith f bs = bs.map (f a) := by
  induction bs with
  | nil => rfl
  | cons b bs ih => simpa [List.replicate_succ] using ih

/-- What is left of a value after adding it to zero with share one. -/
theorem accumulate_one {w : List F32} (hw : ∀ x ∈ w, x.isFinite = true) :
    accumulateWeighted (List.replicate w.length F32.zero) w F32.one =
      w.map fun x => if x = F32.negZero then F32.zero else x := by
  unfold accumulateWeighted
  rw [zipWith_replicate_length]
  refine List.map_congr_left fun x hx => ?_
  rw [F32.mul_one_of_finite (hw x hx), F32.zero_add_of_finite (hw x hx)]

/-- The average over one update is that update, if it counts at all. -/
theorem fedAvgAggregate_singleton (h : decodeAndValidate [u] = .ok [w])
    (hmax : u.numSamples ≤ maxPlausibleSampleCount) : fedAvgAggregate [u] =
      if u.numSamples = 0 then .error .zeroWeightSum
      else .ok (w.map fun x => if x = F32.negZero then F32.zero else x) := by
  have hfinite := allFinite_of_ok h w List.mem_cons_self
  have heq : fedAvgAggregate [u] =
      if (F32.sum [F32.ofNat u.numSamples]).beq F32.zero then .error .zeroWeightSum
      else .ok (accumulateWeighted (List.replicate w.length F32.zero) w
        (F32.ofNat u.numSamples/F32.sum [F32.ofNat u.numSamples])) := by
    unfold fedAvgAggregate weightedAverage
    rw [if_neg (List.cons_ne_nil _ _), h]
    rfl
  rw [heq, sum_singleton_ofNat hmax]
  split
  · next hzero =>
    by_cases hn : u.numSamples = 0
    · rw [if_pos hn]
    · rw [(share_eq_one hn hmax).1] at hzero
      cases hzero
  · next hzero =>
    have hn : u.numSamples ≠ 0 := by
      intro hn
      rw [hn] at hzero
      exact hzero (by decide +kernel)
    rw [if_neg hn, (share_eq_one hn hmax).2, accumulate_one hfinite]

end Average

section Counts
variable {updates : List ClientDelta} {counts : ℕ → ℕ} {decoded : List (List F32)}

theorem getElem?_recount (i : ℕ) :
    (recount updates counts)[i]? = updates[i]?.map fun u => { u with numSamples := counts i } :=
  List.getElem?_mapIdx ..

/-- Validation reads the counts only to see that they are possible. -/
theorem decodeAndValidate_recount (h : decodeAndValidate updates = .ok decoded)
    (hcounts : ∀ i, counts i ≤ maxPlausibleSampleCount) :
    decodeAndValidate (recount updates counts) = .ok decoded := by
  obtain ⟨rfl,hall⟩ := decodeAndValidate_ok h
  have hmap : (recount updates counts).map (fun u => words u.weights) =
      updates.map fun u => words u.weights := by
    refine List.ext_getElem? fun i => ?_
    rw [List.getElem?_map, List.getElem?_map, getElem?_recount, Option.map_map]
    rfl
  rw [← hmap]
  refine @decodeAndValidate_of _ ((updates.map fun u => words u.weights).headD []).length
    fun v hv => ?_
  obtain ⟨i,hi⟩ := List.mem_iff_getElem?.mp hv
  rw [getElem?_recount] at hi
  obtain ⟨u,hu,rfl⟩ := Option.map_eq_some_iff.mp hi
  obtain ⟨hd,hlen,hfin,-⟩ := hall u (List.mem_of_getElem? hu)
  exact ⟨hd,hlen,hfin,hcounts i⟩

/-- The scores do not depend on the counts. -/
theorem krumScores_recount (byzantineFraction : F32) (h : decodeAndValidate updates = .ok decoded)
    (hcounts : ∀ i, counts i ≤ maxPlausibleSampleCount) :
    krumScores byzantineFraction (recount updates counts) =
      krumScores byzantineFraction updates := by
  unfold krumScores
  rw [h, decodeAndValidate_recount h hcounts, recount, List.length_mapIdx]

/-- What Krum comes to: the lowest-scoring update, averaged alone. -/
theorem krum_eq (params : AggregatorParams) (injected : Injected) {scores : List F32}
    {u : ClientDelta} (hscores : krumScores params.byzantineFraction updates = .ok scores)
    (hu : updates[argMin scores]? = some u) :
    aggregateBuilt "krum" params injected updates = .ok (fedAvgAggregate [u]) := by
  have hne : updates ≠ [] := by
    rintro rfl
    cases hu
  have hfilter : krumFilter params.byzantineFraction updates = .ok [argMin scores] := by
    unfold krumFilter
    rw [hscores]
    rfl
  change Except.ok (filteredAggregate (krumFilter params.byzantineFraction) fedAvgAggregate
    updates) = _
  unfold filteredAggregate
  rw [if_neg hne, hfilter]
  change Except.ok (fedAvgAggregate ([argMin scores].filterMap fun i => updates[i]?)) = _
  rw [List.filterMap_cons, hu, List.filterMap_nil]

end Counts

theorem sameValues_unsigned {w : List F32} (h : ∀ x ∈ w, x.isFinite = true) :
    SameValues (w.map fun x => if x = F32.negZero then F32.zero else x) w := by
  unfold SameValues
  rw [List.forall₂_map_left_iff, List.forall₂_same]
  intro x hx
  split
  · next heq =>
    rw [heq]
    decide +kernel
  · exact F32.beq_self ((F32.isFinite_iff x).mp (h x hx)).ne_nan

/-- A valid update that is averaged alone gives its own weights exactly when it reports a
sample. -/
theorem averaged_alone {u : ClientDelta} (hd : decodeWeights u.weights = .ok (words u.weights))
    (hfin : ∀ x ∈ words u.weights, x.isFinite = true)
    (hmax : u.numSamples ≤ maxPlausibleSampleCount) : fedAvgAggregate [u] =
      if u.numSamples = 0 then .error .zeroWeightSum
      else .ok ((words u.weights).map fun x => if x = F32.negZero then F32.zero else x) := by
  refine fedAvgAggregate_singleton (@decodeAndValidate_of [u] (words u.weights).length ?_) hmax
  intro v hv
  rw [List.mem_singleton.mp hv]
  exact ⟨hd,rfl,hfin,hmax⟩

/-- A batch of valid updates whose counts are replaced by possible ones gets the lowest-scoring
update's weights both times exactly when that update reports a sample both times. -/
theorem krum_ignoresCounts_iff (params : AggregatorParams) (injected : Injected)
    (updates : List ClientDelta) (counts : ℕ → ℕ) (hne : updates ≠ [])
    (hvalid : ∃ decoded, decodeAndValidate updates = .ok decoded)
    (hcounts : ∀ i, counts i ≤ maxPlausibleSampleCount) :
    IgnoresCounts params injected updates counts ↔ WinnerCounts params updates counts := by
  obtain ⟨decoded,hd⟩ := hvalid
  obtain ⟨scores,hscores⟩ : ∃ scores, krumScores params.byzantineFraction updates = .ok scores := by
    unfold krumScores
    rw [hd]
    exact ⟨_,rfl⟩
  have hnonneg := nonneg_krumScores hscores
  have hlen : scores.length = updates.length := Robust.length_krumScores
    ((Robust.krumScores_f32 _ _).trans hscores)
  have hsne : scores ≠ [] := by
    rintro rfl
    exact hne (List.length_eq_zero_iff.mp hlen.symm)
  have hwin := lowestScore_argMin hsne hnonneg
  obtain ⟨u,hu⟩ : ∃ u, updates[argMin scores]? = some u :=
    ⟨_,List.getElem?_eq_getElem (hlen ▸ hwin.lt_length)⟩
  obtain ⟨hdecoded,hall⟩ := decodeAndValidate_ok hd
  obtain ⟨hword,-,hfin,hmax⟩ := hall u (List.mem_of_getElem? hu)
  have hkrum := krum_eq params injected hscores hu
  rw [averaged_alone hword hfin hmax] at hkrum
  -- the same choice from the batch with the other counts
  have hu' : (recount updates counts)[argMin scores]? =
      some { u with numSamples := counts (argMin scores) } := by
    rw [getElem?_recount, hu]
    rfl
  have hkrum' := krum_eq params injected
    ((krumScores_recount params.byzantineFraction hd hcounts).trans hscores) hu'
  rw [averaged_alone (u := { u with numSamples := counts (argMin scores) }) hword hfin
    (hcounts _)] at hkrum'
  constructor
  · rintro ⟨⟨_,_,_,out,-,-,-,-,-,hout,-⟩,hsame⟩
    refine ⟨scores,argMin scores,u,hscores,hwin,hu,fun hzero => ?_,fun hzero => ?_⟩
    · rw [hkrum, if_pos hzero] at hout
      cases hout
    · rw [hkrum', if_pos hzero, hout] at hsame
      cases hsame
  · rintro ⟨scores',i,u',hscores',hwin',hu'',hcount,hcount'⟩
    obtain rfl : scores = scores' := Except.ok.inj (hscores.symm.trans hscores')
    obtain rfl : i = argMin scores :=
      ((lowestScore_iff hnonneg).mp hwin').unique ((lowestScore_iff hnonneg).mp hwin)
    obtain rfl : u = u' := Option.some_inj.mp (hu.symm.trans hu'')
    rw [if_neg hcount] at hkrum
    rw [if_neg hcount', ← hkrum] at hkrum'
    have hrow : decoded.getD (argMin scores) [] = words u.weights := by
      rw [hdecoded, List.getD_eq_getElem?_getD, List.getElem?_map, hu]
      rfl
    refine ⟨⟨decoded,scores,_,_,hd,hscores,fun j k => ?_,fun s hs => ?_,hwin,hkrum,?_⟩,hkrum'⟩
    · exact (F32.isNaN_eq_false_iff _).mpr (nonneg_distance_sq (allFinite_of_ok hd) j k).ne_nan
    · exact (F32.isNaN_eq_false_iff _).mpr (hnonneg s hs).ne_nan
    · rw [hrow]
      exact sameValues_unsigned hfin

/-- An update of one weight. -/
def reportedWeight (clientId : String) (weight : F32) (numSamples : ℕ) : ClientDelta :=
  ⟨clientId,1,encodeWeights [weight],numSamples,none,none,none⟩

/-- Weights 1, 2 and 9; the first two score alike, so the first wins. -/
def threeWeights (samples : ℕ) : List ClientDelta :=
  [reportedWeight "a" ⟨0x3f800000⟩ samples,reportedWeight "b" ⟨0x40000000⟩ 1,reportedWeight "c" ⟨0x41100000⟩ 1]

def fifthByzantine : AggregatorParams :=
  ⟨⟨0x3e4ccccd⟩,F32.one,none,none,none,none,none,none,none⟩

theorem krum_ignoresCounts_iff_threeWeights :
    threeWeights 5 ≠ [] ∧ IgnoresCounts fifthByzantine ⟨none,none⟩ (threeWeights 5) fun _ => 7 := by
  have hvalid : ∃ decoded, decodeAndValidate (threeWeights 5) = .ok decoded :=
    ⟨[[⟨0x3f800000⟩],[⟨0x40000000⟩],[⟨0x41100000⟩]],by decide +kernel⟩
  have hscores : krumScores fifthByzantine.byzantineFraction (threeWeights 5) =
      .ok [⟨0x3f800000⟩,⟨0x3f800000⟩,⟨0x42440000⟩] := by
    decide +kernel
  refine ⟨List.cons_ne_nil _ _,(krum_ignoresCounts_iff fifthByzantine ⟨none,none⟩ (threeWeights 5)
    (fun _ => 7) (List.cons_ne_nil _ _) hvalid fun _ => by decide).mpr ?_⟩
  refine ⟨_,0,_,hscores,⟨by decide,?_,nofun⟩,rfl,by decide,by decide⟩
  decide +kernel

/-- The winner reports no samples: Krum fails although the batch is valid. -/
theorem not_ignoresCounts_zeroSamples :
    aggregateBuilt "krum" fifthByzantine ⟨none,none⟩ (threeWeights 0) =
        .ok (.error .zeroWeightSum) ∧
      ¬IgnoresCounts fifthByzantine ⟨none,none⟩ (threeWeights 0) fun _ => 7 := by
  have hresult : aggregateBuilt "krum" fifthByzantine ⟨none,none⟩ (threeWeights 0) =
      .ok (.error .zeroWeightSum) := by
    decide +kernel
  refine ⟨hresult,?_⟩
  rintro ⟨⟨_,_,_,out,-,-,-,-,-,hout,-⟩,-⟩
  rw [hresult] at hout
  cases hout

end ConfluxFL
