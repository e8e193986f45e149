import ConfluxFL.Core.KrumCounts
import ConfluxFL.Core.Selections
import ConfluxFL.Lib.Calls
import ConfluxFL.Lib.DoubleError

/-! How many updates FLANDERS hands to its base method. The catalog gives the configured fraction
to the base only; the filter keeps the one it starts with. A panic, of which there is none as long
as the updates have a weight, leaves a lock behind that no later call gets past. -/
namespace ConfluxFL.Flanders

/-- The filter's own fraction. -/
def defaultFraction : F32 := ⟨0x3e4ccccd⟩

/-- `max(1, m - ⌈fraction·m⌉)`. -/
def keptCount (fraction : F32) (m : ℕ) : ℕ :=
  max (m-F64.ceilToNat (F64.ofF32 fraction*F64.ofNat m)) 1

/-- A part of a batch, in its order, where nothing has a higher score than what is left out. -/
def HandsOn (scores : List F64) (updates kept : List ClientDelta) (count : ℕ) : Prop :=
  ∃ positions, Robust.Picks updates.length count positions ∧
    kept = positions.filterMap (updates[·]?) ∧
    ((∀ s ∈ scores, s.isNaN = false) → ∀ i ∈ positions, ∀ j < updates.length, j ∉ positions →
      (scores.getD j F64.zero).lt (scores.getD i F64.zero) = false)

section Round
variable {ν ω : Type} [Floating ν] [Floating ω] [Precision ν ω]

/-- The forecast of a round. -/
def roundForecast (state : State ν) (updates : List ClientDelta) (decoded : List (List ν)) :
    Option (List (String × List ω)) :=
  forecast state.history (commonClients state.history
    (snapshotOf ((updates.map ClientDelta.clientId).zip decoded))) (decoded.headD []).length
      (forecastCoordinates (decoded.headD []).length maxForecastDim)

/-- The score that a round gives a client for its weights. -/
def roundScore (state : State ν) (updates : List ClientDelta) (decoded : List (List ν))
    (u : ClientDelta) (w : List ν) : ω :=
  anomalyScore (roundForecast state updates decoded) state.global
    (forecastCoordinates (decoded.headD []).length maxForecastDim) u.clientId w

/-- The scores of a round. -/
def roundScores (state : State ν) (updates : List ClientDelta) (decoded : List (List ν)) : List ω :=
  updates.zipWith (roundScore state updates decoded) decoded

theorem keptUpdates_eq (state : State ν) (updates : List ClientDelta) (decoded : List (List ν)) :
    keptUpdates state updates decoded = (updates.zipIdx.filter fun e =>
      e.2 ∈ lowest (roundScores state updates decoded) (keptSize
        ((roundForecast state updates decoded).isSome || state.global.isSome)
        updates.length)).map Prod.fst := rfl

end Round

section Panics
variable {ν ω : Type} [Floating ν] [Floating ω] [Precision ν ω]

omit [Floating ω] in
theorem eq_nil_of_observation {snapshot : Snapshot ν} {order : List String} {dim : ℕ}
    {coords : List ℕ} {m : Matrix ω} (h : observation snapshot order dim coords = some m) :
    m = [] ↔ coords = [] := by
  obtain ⟨columns,-,hm⟩ := Option.bind_eq_some_iff.mp h
  cases hm
  exact List.map_eq_nil_iff

/-- A fit panics when it has something to fit over no coordinates. -/
theorem forecastPanics_isSome_iff (history : List (Snapshot ν)) (order : List String) (dim : ℕ)
    (coords : List ℕ) : (forecastPanics ω history order dim coords).isSome = true ↔
      coords = [] ∧ (2 ≤ order.length ∧ 2 ≤ history.length) ∧
        (forecastPairs history order dim coords : List (Matrix ω × Matrix ω)) ≠ [] := by
  unfold forecastPanics
  split_ifs with htwo
  · rw [and_iff_right htwo]
    cases hpairs : (forecastPairs history order dim coords : List (Matrix ω × Matrix ω)) with
    | nil => exact iff_of_false Bool.false_ne_true fun h => h.2 rfl
    | cons p pairs =>
      have hp : p ∈ (forecastPairs history order dim coords : List (Matrix ω × Matrix ω)) :=
        hpairs ▸ List.mem_cons_self
      obtain ⟨q,-,hq⟩ := List.mem_filterMap.mp hp
      obtain ⟨x,hx,hq⟩ := Option.bind_eq_some_iff.mp hq
      obtain ⟨y,-,hq⟩ := Option.bind_eq_some_iff.mp hq
      cases hq
      rw [← eq_nil_of_observation hx, and_iff_left (List.cons_ne_nil _ _)]
      cases x with
      | nil => exact iff_of_true rfl rfl
      | cons row x => exact iff_of_false Bool.false_ne_true (List.cons_ne_nil _ _)
  · exact iff_of_false Bool.false_ne_true fun h => htwo h.2.1

theorem forecastCoordinates_eq_nil_iff (dim : ℕ) :
    forecastCoordinates dim maxForecastDim = [] ↔ dim = 0 := by
  unfold forecastCoordinates
  split_ifs with h
  · exact List.range_eq_nil
  · refine iff_of_false (fun hnil => ?_) fun hdim => h (.inl (hdim ▸ Nat.zero_le _))
    exact absurd (List.range_eq_nil.mp (List.map_eq_nil_iff.mp hnil)) (by decide)

/-- A batch with a weight does not panic. -/
theorem panics_eq_none_of_weight (state : State ν) {updates : List ClientDelta}
    (h : ∀ decoded, decodeAndValidate updates = .ok decoded → decoded.headD [] ≠ []) :
    panics ω state updates = none := by
  rcases onBatch_cases (fun _ => (none : Option String)) updates _ with
    ⟨e,he⟩ | ⟨decoded,hd,-,heq⟩
  · exact he
  · refine heq.trans (Option.not_isSome_iff_eq_none.mp fun hsome => h decoded hd ?_)
    rw [forecastPanics_isSome_iff, forecastCoordinates_eq_nil_iff] at hsome
    exact List.eq_nil_of_length_eq_zero hsome.1

end Panics

section Positions
variable {n k : ℕ}

/-- The first of a ranking of all positions, in their own order. -/
theorem picks_filter {ranked : List ℕ} (hperm : ranked.Perm (List.range n)) (hk : k ≤ n) :
    Robust.Picks n k ((List.range n).filter fun i => i ∈ ranked.take k) := by
  refine ⟨List.pairwise_lt_range.filter _,fun i hi => ?_,?_⟩
  · exact List.mem_range.mp (List.mem_of_mem_filter hi)
  · rw [(Robust.perm_filter_take hperm k).length_eq, List.length_take, hperm.length_eq,
      List.length_range, Nat.min_eq_left hk]

/-- Entries chosen by position are those at the positions. -/
theorem map_fst_filter_zipIdx {α : Type} (as : List α) (p : ℕ → Bool) :
    (as.zipIdx.filter fun e => p e.2).map Prod.fst =
      ((List.range as.length).filter p).filterMap (as[·]?) := by
  have hpositions : (List.range as.length).filter p =
      (as.zipIdx.filter fun e => p e.2).map Prod.snd := by
    rw [List.range_eq_range', ← List.zipIdx_map_snd, List.filter_map]
    rfl
  rw [hpositions, List.filterMap_map, ← List.filterMap_eq_map]
  refine List.filterMap_congr fun e he => ?_
  have hmem := List.mem_zipIdx_iff_getElem?.mp (List.mem_of_mem_filter he)
  exact hmem.symm

end Positions

section Kept
variable {ν ω : Type} [Floating ν] [Floating ω] [Precision ν ω] {updates : List ClientDelta}
  {decoded : List (List F32)}

omit [Floating ν] [Precision ν ω] in
theorem picks_lowest (scores : List ω) {k : ℕ} (hk : k ≤ scores.length) :
    Robust.Picks scores.length k
      ((List.range scores.length).filter fun i => i ∈ lowest scores k) :=
  picks_filter (List.perm_insertionSort _ _) hk

theorem length_roundScores (state : State ν) (hd : decodeAndValidate updates = .ok decoded) :
    (roundScores state updates (embed decoded)).length = updates.length := by
  rw [roundScores, List.length_zipWith, embed, List.length_map, (decodeAndValidate_ok hd).1,
    List.length_map, Nat.min_self]

theorem length_filterMap_picks {positions : List ℕ} {count : ℕ}
    (h : Robust.Picks updates.length count positions) :
    (positions.filterMap (updates[·]?)).length = count := by
  rw [List.length_filterMap_eq_countP, ← h.length, List.countP_eq_length]
  intro i hi
  rw [List.getElem?_eq_getElem (h.inBounds i hi)]
  rfl

/-- A round hands on the updates at the lowest positions, as many as the filter keeps. -/
theorem keptUpdates_positions (state : State ν) (hd : decodeAndValidate updates = .ok decoded)
    (hne : updates ≠ []) : ∃ k positions, k = keptSize
        ((roundForecast state updates (embed decoded)).isSome || state.global.isSome)
        updates.length ∧ 0 < k ∧ Robust.Picks updates.length k positions ∧
      keptUpdates state updates (embed decoded) = positions.filterMap (updates[·]?) ∧
      ∀ i, i ∈ positions ↔
        i < updates.length ∧ i ∈ lowest (roundScores state updates (embed decoded)) k := by
  have hpos := List.length_pos_iff.mpr hne
  have hlen := length_roundScores state hd
  generalize hk : keptSize ((roundForecast state updates (embed decoded)).isSome ||
    state.global.isSome) updates.length = k
  have hle : k ≤ updates.length ∧ 0 < k := by
    rw [← hk, keptSize]
    split <;> omega
  have hpicks := picks_lowest (roundScores state updates (embed decoded)) (hle.1.trans hlen.ge)
  rw [hlen] at hpicks
  refine ⟨k,_,rfl,hle.2,hpicks,?_,fun i => ?_⟩
  · rw [keptUpdates_eq, hk]
    exact map_fst_filter_zipIdx updates fun i =>
      i ∈ lowest (roundScores state updates (embed decoded)) k
  · rw [List.mem_filter, List.mem_range, decide_eq_true_iff]

/-- There is always something left for the base. -/
theorem keptUpdates_ne_nil (state : State ν) (hd : decodeAndValidate updates = .ok decoded)
    (hne : updates ≠ []) : keptUpdates state updates (embed decoded) ≠ [] := by
  obtain ⟨k,positions,-,hk,hpicks,heq,-⟩ := keptUpdates_positions state hd hne
  rw [heq]
  exact List.ne_nil_of_length_pos (hk.trans_eq (length_filterMap_picks hpicks).symm)

end Kept

section Ranking
variable {scores : List F64}

theorem isNaN_getD (h : ∀ s ∈ scores, s.isNaN = false) (i : ℕ) :
    (scores.getD i F64.zero).isNaN = false := by
  by_cases hi : i < scores.length
  · rw [List.getD_eq_getElem _ _ hi]
    exact h _ (List.getElem_mem hi)
  · rw [List.getD_eq_default _ _ (Nat.le_of_not_lt hi)]
    rfl

/-- Without a NaN the positions are sorted by the order of their scores. -/
theorem lowest_eq (h : ∀ s ∈ scores, s.isNaN = false) (k : ℕ) :
    lowest scores k = (StableSort.sortBy (fun i => (scores.getD i F64.zero).orderKey)
      (List.range scores.length)).take k := by
  have hrel : (fun i j => (!Floating.lt (scores.getD j 0) (scores.getD i 0)) = true) =
      fun i j => (scores.getD i F64.zero).orderKey ≤ (scores.getD j F64.zero).orderKey := by
    funext i j
    refine propext ?_
    rw [Bool.not_eq_true', ← not_lt, ← decide_eq_false_iff_not]
    exact Eq.congr (F64.lt_eq_orderKey (isNaN_getD h j) (isNaN_getD h i)) rfl
  unfold lowest StableSort.sortBy
  congr

/-- And no score among the lowest is above one that is not. -/
theorem lt_of_mem_lowest (h : ∀ s ∈ scores, s.isNaN = false) {k i j : ℕ}
    (hi : i ∈ lowest scores k) (hj : j < scores.length) (hrest : j ∉ lowest scores k) :
    (scores.getD j F64.zero).lt (scores.getD i F64.zero) = false := by
  rw [lowest_eq h] at hi hrest
  rw [F64.lt_eq_orderKey (isNaN_getD h j) (isNaN_getD h i), decide_eq_false_iff_not, not_lt]
  exact @StableSort.le_of_mem_take _ _ _ (fun i => (scores.getD i F64.zero).orderKey) _ k i j hi
    (List.mem_range.mpr hj) hrest

variable {updates kept : List ClientDelta} {decoded : List (List F32)} {count : ℕ}

/-- The number of updates that are handed on. -/
theorem HandsOn.length (h : HandsOn scores updates kept count) : kept.length = count := by
  obtain ⟨positions,hpicks,rfl,-⟩ := h
  exact length_filterMap_picks hpicks

/-- A round hands on as many updates as the filter keeps, and those with the lowest scores. -/
theorem handsOn_keptUpdates (state : State F32) (hd : decodeAndValidate updates = .ok decoded)
    (hne : updates ≠ []) :
    HandsOn (roundScores state updates (embed decoded)) updates
      (keptUpdates state updates (embed decoded)) (keptSize
        ((roundForecast state updates (embed decoded)).isSome || state.global.isSome)
        updates.length) := by
  obtain ⟨k,positions,rfl,-,hpicks,heq,hmem⟩ := keptUpdates_positions state hd hne
  refine ⟨positions,hpicks,heq,fun hnumbers i hi j hj hrest => ?_⟩
  refine lt_of_mem_lowest hnumbers ((hmem i).mp hi).2 (hj.trans_eq (length_roundScores state hd).symm)
    fun hlowest => hrest ?_
  exact (hmem j).mpr ⟨hj,hlowest⟩

end Ranking

section Runs
variable (params : AggregatorParams)

/-- FLANDERS over Krum, as the catalog builds it. -/
def call : State F32 → List ClientDelta → Except AggregatorError (List F32) × State F32 :=
  aggregate (filteredAggregate (krumFilter params.byzantineFraction) fedAvgAggregate)

def stateAfter (earlier : List (List ClientDelta)) : State F32 :=
  Calls.after (call params) ⟨[],none⟩ earlier

/-- No call of the sequence panics. -/
def calmFrom (state : State F32) : List (List ClientDelta) → Bool
  | [] => true
  | updates::rest =>
    (panics F64 state updates).isNone && calmFrom (call params state updates).2 rest

def calm : List (List ClientDelta) → Bool := calmFrom params ⟨[],none⟩

/-- A sequence of batches with a weight is calm from any state. -/
theorem calmFrom_of_weights {calls : List (List ClientDelta)}
    (h : ∀ updates ∈ calls, ∀ decoded, decodeAndValidate updates = .ok decoded →
      decoded.headD [] ≠ []) (state : State F32) : calmFrom params state calls = true := by
  induction calls generalizing state with
  | nil => rfl
  | cons updates calls ih =>
    rw [List.forall_mem_cons] at h
    rw [calmFrom, panics_eq_none_of_weight state h.1, ih h.2]
    rfl

/-- What the base gets of a valid batch, unless a panic has left the lock on the history
poisoned. -/
def handedOn (earlier : List (List ClientDelta)) (updates : List ClientDelta)
    (decoded : List (List F32)) : Option (List ClientDelta) :=
  if calm params (earlier++[updates]) then
    some (keptUpdates (stateAfter params earlier) updates decoded)
  else none

/-- No batch was accepted so far. -/
def firstRound (earlier : List (List ClientDelta)) : Bool :=
  (Calls.answers (call params) ⟨[],none⟩ earlier).all fun r => r.toOption.isNone

/-- How many of `m` updates are to be handed on by the configured fraction. -/
def promisedCount (earlier : List (List ClientDelta)) (m : ℕ) : ℕ :=
  if firstRound params earlier then m else keptCount params.byzantineFraction m

/-- Until a batch is accepted there is nothing to rank by, and from then on there is a model. -/
theorem stateAfter_cases (earlier : List (List ClientDelta)) :
    firstRound params earlier = true ∧ stateAfter params earlier = ⟨[],none⟩ ∨
      firstRound params earlier = false ∧ (stateAfter params earlier).global.isSome = true := by
  induction earlier using List.reverseRecOn with
  | nil => exact .inl ⟨rfl,rfl⟩
  | append_singleton earlier updates ih =>
    have hstate : stateAfter params (earlier++[updates]) =
        (call params (stateAfter params earlier) updates).2 := Calls.after_append _ _ _ _
    have hfirst : firstRound params (earlier++[updates]) = (firstRound params earlier &&
        (call params (stateAfter params earlier) updates).1.toOption.isNone) := by
      unfold firstRound
      rw [Calls.answers_append, List.all_append]
      exact congrArg _ (Bool.and_true _)
    rw [hstate, hfirst]
    rcases aggregate_cases (filteredAggregate (krumFilter params.byzantineFraction) fedAvgAggregate)
      (stateAfter params earlier) updates with ⟨e,he⟩ | ⟨w,history,heq⟩
    · rw [call, he]
      change (firstRound params earlier && true) = true ∧ _ ∨
        (firstRound params earlier && true) = false ∧ _
      rwa [Bool.and_true]
    · rw [call, heq]
      exact .inr ⟨Bool.and_false _,rfl⟩

/-- What a round keeps, by the filter's own fraction. -/
theorem keptSize_round (earlier : List (List ClientDelta)) (updates : List ClientDelta)
    (decoded : List (List F32)) :
    keptSize ((roundForecast (stateAfter params earlier) updates decoded).isSome ||
        (stateAfter params earlier).global.isSome) updates.length =
      if firstRound params earlier then updates.length
      else keptCount defaultFraction updates.length := by
  rcases stateAfter_cases params earlier with ⟨hfirst,hstate⟩ | ⟨hfirst,hglobal⟩
  · rw [hfirst, hstate]
    have hnone : roundForecast (ν := F32) ⟨[],none⟩ updates decoded = none :=
      if_neg fun h => absurd h.2 (by decide)
    rw [hnone]
    rfl
  · rw [hfirst, hglobal, Bool.or_true]
    rfl

/-- What a round that does not panic answers is what its base answers. -/
theorem aggregate_keptUpdates (base : List ClientDelta → Except AggregatorError (List F32))
    (state : State F32) {updates : List ClientDelta} {decoded : List (List F32)}
    (hd : decodeAndValidate updates = .ok decoded) (hne : updates ≠ []) :
    (aggregate base state updates).1 = base (keptUpdates state updates decoded) := by
  unfold aggregate onBatch
  rw [if_neg hne, hd]
  dsimp only
  rw [embed_f32]
  cases base (keptUpdates state updates decoded) with
  | error e => rfl
  | ok w => rfl

/-- The base gets what the scores single out; there are as many as the configured fraction promises
in the first round, and later exactly when the default promises as many. -/
theorem handsOn_keptUpdates_iff (earlier : List (List ClientDelta)) {updates : List ClientDelta}
    {decoded : List (List F32)} (hd : decodeAndValidate updates = .ok decoded) (hne : updates ≠ []) :
    HandsOn (roundScores (stateAfter params earlier) updates decoded) updates
        (keptUpdates (stateAfter params earlier) updates decoded)
        (promisedCount params earlier updates.length) ↔
      firstRound params earlier = true ∨
        keptCount params.byzantineFraction updates.length =
          keptCount defaultFraction updates.length := by
  have hkept := handsOn_keptUpdates (stateAfter params earlier) hd hne
  rw [embed_f32, keptSize_round] at hkept
  unfold promisedCount
  cases hfirst : firstRound params earlier with
  | true =>
    rw [hfirst, if_pos rfl] at hkept
    rw [if_pos rfl]
    exact iff_of_true hkept (.inl rfl)
  | false =>
    rw [hfirst, if_neg Bool.false_ne_true] at hkept
    rw [if_neg Bool.false_ne_true, or_iff_right Bool.false_ne_true]
    constructor
    · intro hpromised
      exact hpromised.length.symm.trans hkept.length
    · intro heq
      rwa [heq]

end Runs

/-- A batch hands on what is promised when no call so far panicked, its own included, and it is the
first that may be accepted or the default promises as many as the configured fraction. -/
theorem handsOn_promised_iff (params : AggregatorParams) (earlier : List (List ClientDelta))
    {updates : List ClientDelta} {decoded : List (List F32)}
    (hd : decodeAndValidate updates = .ok decoded) (hne : updates ≠ []) :
    buildAggregator "flanders" params = .ok ⟨_,(Aggregator.stateful ⟨[],none⟩
        (call params)).withPanics fun state _ updates => panics F64 state updates⟩ ∧
      (∀ base kept, handedOn params earlier updates decoded = some kept →
        (aggregate base (stateAfter params earlier) updates).1 = base kept) ∧
      ((∃ kept, handedOn params earlier updates decoded = some kept ∧
          HandsOn (roundScores (stateAfter params earlier) updates decoded) updates kept
            (promisedCount params earlier updates.length)) ↔
        calm params (earlier++[updates]) = true ∧
          (firstRound params earlier = true ∨
            keptCount params.byzantineFraction updates.length =
              keptCount defaultFraction updates.length)) := by
  have hsome (kept : List ClientDelta) : handedOn params earlier updates decoded = some kept ↔
      calm params (earlier++[updates]) = true ∧
        keptUpdates (stateAfter params earlier) updates decoded = kept := by
    unfold handedOn
    split_ifs with hcalm
    · rw [Option.some_inj, and_iff_right hcalm]
    · exact iff_of_false nofun fun h => hcalm h.1
  refine ⟨rfl,fun base kept hkept => ?_,?_⟩
  · obtain ⟨-,rfl⟩ := (hsome kept).mp hkept
    exact aggregate_keptUpdates base _ hd hne
  · rw [← handsOn_keptUpdates_iff params earlier hd hne]
    constructor
    · rintro ⟨kept,hkept,hpromised⟩
      obtain ⟨hcalm,rfl⟩ := (hsome kept).mp hkept
      exact ⟨hcalm,hpromised⟩
    · rintro ⟨hcalm,hpromised⟩
      exact ⟨_,(hsome _).mpr ⟨hcalm,rfl⟩,hpromised⟩

/-- Nobody is expected to be byzantine. -/
def noneByzantine : AggregatorParams := { fifthByzantine with byzantineFraction := F32.zero }

def sameWeights : List ClientDelta := [reportedWeight "a" F32.one 1,reportedWeight "b" F32.one 1]

theorem handsOn_promised_iff_sameWeights :
    buildAggregator "flanders" noneByzantine = .ok ⟨_,(Aggregator.stateful ⟨[],none⟩
        (call noneByzantine)).withPanics fun state _ updates => panics F64 state updates⟩ ∧
      (∀ base kept, handedOn noneByzantine [sameWeights] sameWeights [[F32.one],[F32.one]] =
          some kept →
        (aggregate base (stateAfter noneByzantine [sameWeights]) sameWeights).1 = base kept) ∧
      ((∃ kept, handedOn noneByzantine [sameWeights] sameWeights [[F32.one],[F32.one]] = some kept ∧
          HandsOn (roundScores (stateAfter noneByzantine [sameWeights]) sameWeights
              [[F32.one],[F32.one]]) sameWeights kept
            (promisedCount noneByzantine [sameWeights] 2)) ↔
        calm noneByzantine ([sameWeights]++[sameWeights]) = true ∧
          (firstRound noneByzantine [sameWeights] = true ∨
            keptCount noneByzantine.byzantineFraction 2 = keptCount defaultFraction 2)) :=
  handsOn_promised_iff noneByzantine [sameWeights] (by decide +kernel) (List.cons_ne_nil _ _)

/-- In the second round the base gets one of two updates, where it is promised both. -/
theorem not_handsOn_sameWeights :
    decodeAndValidate sameWeights = .ok [[F32.one],[F32.one]] ∧
      calm noneByzantine ([sameWeights]++[sameWeights]) = true ∧
      firstRound noneByzantine [sameWeights] = false ∧
      ¬∃ kept, handedOn noneByzantine [sameWeights] sameWeights [[F32.one],[F32.one]] = some kept ∧
        HandsOn (roundScores (stateAfter noneByzantine [sameWeights]) sameWeights
            [[F32.one],[F32.one]]) sameWeights kept
          (promisedCount noneByzantine [sameWeights] sameWeights.length) := by
  have hd : decodeAndValidate sameWeights = .ok [[F32.one],[F32.one]] := by decide +kernel
  have hcalm : calm noneByzantine ([sameWeights]++[sameWeights]) = true := by decide +kernel
  have hfirst : firstRound noneByzantine [sameWeights] = false := by decide +kernel
  refine ⟨hd,hcalm,hfirst,?_⟩
  rintro ⟨kept,hkept,hpromised⟩
  rw [handedOn, if_pos hcalm, Option.some_inj] at hkept
  subst hkept
  rw [handsOn_keptUpdates_iff noneByzantine _ hd (List.cons_ne_nil _ _), hfirst] at hpromised
  exact absurd hpromised (by decide +kernel)

end ConfluxFL.Flanders
