import ConfluxFL.Core.Build
import ConfluxFL.Core.CoordinateRobust
import ConfluxFL.Core.ExactBatch
import ConfluxFL.Core.Selections

/-! The stateless methods do not know where zero is: a batch whose updates are all moved by one
vector is aggregated to the same model moved by that vector. So it does not matter whether clients
send models or differences from a common one. In exact arithmetic. -/
namespace ConfluxFL
open Coordinates

/-- The updates of `us'` are those of `us`, each moved by `v`. -/
structure MovedBy (v : List ℝ) (us us' : List ClientDelta) : Prop where
  samples : us'.map ClientDelta.numSamples = us.map ClientDelta.numSamples
  rows : ∃ decoded decoded', decodeAndValidate us = .ok decoded ∧
    decodeAndValidate us' = .ok decoded' ∧ (∀ w ∈ decoded, w.length = v.length) ∧
    (embed decoded' : List (List ℝ)) = (embed decoded).map (shift v)

/-- The answer moves with the batch, and a refusal stays what it is. -/
def MovesAlong (aggregate : List ClientDelta → Except AggregatorError (List ℝ))
    (us us' : List ClientDelta) (v : List ℝ) : Prop :=
  aggregate us' = (aggregate us).map (shift v)

/-- A filter picks the same updates wherever the batch is moved to. -/
def PicksAlike (select : List ClientDelta → Except AggregatorError (List ℕ)) : Prop :=
  ∀ {v : List ℝ} {us us' : List ClientDelta}, MovedBy v us us' → select us' = select us

section Rows
variable {v : List ℝ} {rows : List (List ℝ)} {dim : ℕ}

theorem length_getD_le (hrows : ∀ w ∈ rows, w.length ≤ v.length) (i : ℕ) :
    (rows.getD i []).length ≤ v.length := by
  rw [List.getD_eq_getElem?_getD]
  cases hi : rows[i]? with
  | none => exact Nat.zero_le _
  | some w => exact hrows w (List.mem_of_getElem? hi)

theorem l2Distance_shift {a b : List ℝ} (ha : a.length ≤ v.length) (hb : b.length ≤ v.length) :
    Robust.l2Distance (shift v a) (shift v b) = Robust.l2Distance a b := by
  have hdiff : ∀ x y c : ℝ, (x+c-(y+c))*(x+c-(y+c)) = (x-y)*(x-y) := by
    intro x y c
    rw [add_sub_add_right_eq_sub]
  rw [Robust.l2Distance, Robust.l2Distance,
    zipWith_shift (f := fun x y : ℝ => (x-y)*(x-y)) hdiff ha hb]

theorem distance_shift (hrows : ∀ w ∈ rows, w.length ≤ v.length) (i j : ℕ) :
    Robust.distance (rows.map (shift v)) i j = Robust.distance rows i j := by
  unfold Robust.distance
  rw [getD_map_shift, getD_map_shift,
    l2Distance_shift (length_getD_le hrows _) (length_getD_le hrows _)]

theorem krumScore_shift (hrows : ∀ w ∈ rows, w.length ≤ v.length) :
    Robust.krumScore (rows.map (shift v)) = Robust.krumScore rows := by
  funext neighbors i
  unfold Robust.krumScore
  rw [List.length_map]
  simp only [distance_shift hrows]

/-- The mean of some rows as a combination of them. -/
theorem sharedMean_combination (hrows : ∀ w ∈ rows, w.length = dim) :
    sharedMean dim rows = combination dim (rows.map fun w => (1/(rows.length : ℝ),w)) := by
  rw [← foldl_combination (f := fun acc p => acc.zipWith (fun e x => e+p.1*x) p.2)
    (by simpa using hrows) fun _ _ _ => rfl, List.foldl_map]
  unfold sharedMean addScaled zeros
  congr 1
  funext acc w
  refine congrFun (congrFun (congrArg List.zipWith ?_) acc) w
  funext a x
  exact congrArg (a+·) (mul_comm x _)

theorem sharedMean_shift (hrows : ∀ w ∈ rows, w.length = v.length) (hne : rows ≠ []) :
    sharedMean v.length (rows.map (shift v)) = shift v (sharedMean v.length rows) := by
  have hshifted : ∀ w ∈ rows.map (shift v), w.length = v.length := by
    intro w hw
    obtain ⟨w',hw',rfl⟩ := List.mem_map.mp hw
    rw [length_shift (hrows w' hw').le, hrows w' hw']
  have hpos : (rows.length : ℝ) ≠ 0 := Nat.cast_ne_zero.mpr (List.length_pos_iff.mpr hne).ne'
  rw [sharedMean_combination hshifted, sharedMean_combination hrows, ← combination_shift]
  · rw [List.length_map, List.map_map, List.map_map]
    rfl
  · rw [List.map_map]
    change (rows.map fun _ => 1/(rows.length : ℝ)).sum = 1
    rw [List.map_const', List.sum_replicate, nsmul_eq_mul, mul_one_div, div_self hpos]
  · simpa using hrows
  · rfl

theorem poolScores_shift (hrows : ∀ w ∈ rows, w.length ≤ v.length) :
    Robust.poolScores (rows.map (shift v)) = Robust.poolScores rows := by
  funext count pool
  have hpool : (pool.map fun i => (rows.map (shift v)).getD i []) =
      (pool.map fun i => rows.getD i []).map (shift v) := by
    rw [List.map_map]
    exact List.map_congr_left fun i _ => getD_map_shift rows i
  unfold Robust.poolScores
  rw [hpool, krumScore_shift fun w hw => ?_]
  obtain ⟨i,-,rfl⟩ := List.mem_map.mp hw
  exact length_getD_le hrows i

/-- FABA drops the same update. -/
theorem fabaStep_shift (hrows : ∀ w ∈ rows, w.length = v.length) {remaining : List ℕ}
    (hin : ∀ i ∈ remaining, i < rows.length) :
    Robust.fabaStep (rows.map (shift v)) remaining = Robust.fabaStep rows remaining := by
  unfold Robust.fabaStep
  by_cases hone : remaining.length ≤ 1
  · rw [if_pos hone, if_pos hone]
  · rw [if_neg hone, if_neg hone]
    have hpool : (remaining.map fun i => (rows.map (shift v)).getD i []) =
        (remaining.map fun i => rows.getD i []).map (shift v) := by
      rw [List.map_map]
      exact List.map_congr_left fun i _ => getD_map_shift rows i
    have hall : ∀ w ∈ remaining.map fun i => rows.getD i [], w.length = v.length := by
      intro w hw
      obtain ⟨i,hi,rfl⟩ := List.mem_map.mp hw
      rw [List.getD_eq_getElem _ _ (hin i hi)]
      exact hrows _ (List.getElem_mem _)
    have hne : (remaining.map fun i => rows.getD i []) ≠ [] := by
      intro hnil
      rw [List.map_eq_nil_iff] at hnil
      simp [hnil] at hone
    dsimp only
    rw [hpool]
    generalize (remaining.map fun i => rows.getD i []) = kept at hall hne
    have hhead : (kept.headD []).length = v.length ∧
        ((kept.map (shift v)).headD []).length = v.length := by
      cases kept with
      | nil => exact absurd rfl hne
      | cons w kept =>
        have hw := hall w List.mem_cons_self
        exact ⟨hw,(length_shift hw.le).trans hw⟩
    rw [hhead.1, hhead.2, sharedMean_shift hall hne, List.map_map]
    have hdist : ∀ w ∈ kept, ((fun w => Robust.l2Distance w (shift v (sharedMean v.length kept))) ∘
        shift v) w = Robust.l2Distance w (sharedMean v.length kept) := by
      intro w hw
      exact l2Distance_shift (hall w hw).le (length_sharedMean hall).le
    rw [List.map_congr_left hdist]

/-- The rows around their mean. -/
theorem centered_shift (hrows : ∀ w ∈ rows, w.length = v.length) (hne : rows ≠ []) :
    ((rows.map (shift v)).map fun row =>
      row.zipWith (·-·) (sharedMean v.length (rows.map (shift v)))) =
      rows.map fun row => row.zipWith (·-·) (sharedMean v.length rows) := by
  rw [sharedMean_shift hrows hne, List.map_map]
  refine List.map_congr_left fun w hw => ?_
  exact zipWith_shift (f := fun x y : ℝ => x-y) (fun x y c => add_sub_add_right_eq_sub x y c)
    (hrows w hw).le (length_sharedMean hrows).le

end Rows

section Batches
variable {v : List ℝ} {us us' : List ClientDelta} {f : F32}

theorem MovedBy.length (h : MovedBy v us us') : us'.length = us.length := by
  have hlen := congrArg List.length h.samples
  rwa [List.length_map, List.length_map] at hlen

theorem MovedBy.nil_iff (h : MovedBy v us us') : us' = [] ↔ us = [] := by
  rw [← List.length_eq_zero_iff, h.length, List.length_eq_zero_iff]

theorem length_of_mem_embed_of {decoded : List (List F32)} {n : ℕ}
    (h : ∀ w ∈ decoded, w.length = n) : ∀ w ∈ (embed decoded : List (List ℝ)), w.length = n := by
  intro w hw
  obtain ⟨w',hw',rfl⟩ := List.mem_map.mp hw
  rw [List.length_map, h w' hw']

theorem krumScores_alike (h : MovedBy v us us') :
    (Robust.krumScores f us' : Except AggregatorError (List ℝ)) = Robust.krumScores f us := by
  obtain ⟨decoded,decoded',hd,hd',hlen,hrows⟩ := h.rows
  have hle : ∀ w ∈ (embed decoded : List (List ℝ)), w.length ≤ v.length :=
    fun w hw => (length_of_mem_embed_of hlen w hw).le
  unfold Robust.krumScores
  rw [hd, hd', h.length]
  change Except.ok _ = Except.ok _
  rw [hrows, krumScore_shift hle]

theorem picksAlike_krum : PicksAlike (Robust.krumFilter ℝ f) := by
  intro v us us' h
  unfold Robust.krumFilter
  rw [krumScores_alike h]

theorem picksAlike_multiKrum : PicksAlike (Robust.multiKrumFilter ℝ f) := by
  intro v us us' h
  unfold Robust.multiKrumFilter
  rw [krumScores_alike h, h.length]

theorem picksAlike_bulyan : PicksAlike (Robust.bulyanFilter ℝ f) := by
  intro v us us' h
  by_cases hne : us = []
  · rw [hne, h.nil_iff.mpr hne]
  · obtain ⟨decoded,decoded',hd,hd',hlen,hrows⟩ := h.rows
    have hle : ∀ w ∈ (embed decoded : List (List ℝ)), w.length ≤ v.length :=
      fun w hw => (length_of_mem_embed_of hlen w hw).le
    have hbest : Robust.krumBest (embed decoded' : List (List ℝ)) =
        Robust.krumBest (embed decoded : List (List ℝ)) := by
      funext count pool
      rw [Robust.krumBest, hrows, poolScores_shift hle, Robust.krumBest]
    rw [Robust.bulyanFilter_eq hd hne, Robust.bulyanFilter_eq hd' fun hnil => hne (h.nil_iff.mp hnil),
      h.length, hbest]

theorem picksAlike_faba : PicksAlike (Robust.fabaFilter ℝ f) := by
  intro v us us' h
  obtain ⟨decoded,decoded',hd,hd',hlen,hrows⟩ := h.rows
  have hcount : decoded'.length = decoded.length := by
    have := congrArg List.length hrows
    simpa [embed] using this
  have hbounded := @Run.bounded_map _ _ (Robust.fabaStep (embed decoded : List (List ℝ)))
    (Robust.fabaStep (embed decoded' : List (List ℝ))) id
    (fun remaining : List ℕ => ∀ i ∈ remaining, i < decoded.length)
    (fun s s' hs hstep i hi => by
      unfold Robust.fabaStep at hstep
      split_ifs at hstep
      cases hstep
      exact hs i (List.mem_of_mem_eraseIdx hi))
    (fun s hs => by
      rw [id, Option.map_id, id, hrows]
      exact fabaStep_shift (length_of_mem_embed_of hlen) (by simpa [embed] using hs))
    (byzantineCount f decoded.length) (s := List.range decoded.length)
    fun i hi => List.mem_range.mp hi
  unfold Robust.fabaFilter
  rw [hd, hd']
  change Except.ok _ = Except.ok _
  rw [hcount]
  exact congrArg (fun l => Except.ok (l.insertionSort (· ≤ ·))) hbounded

theorem picksAlike_divideAndConquer : PicksAlike (Robust.divideAndConquerFilter ℝ f) := by
  intro v us us' h
  obtain ⟨decoded,decoded',hd,hd',hlen,hrows⟩ := h.rows
  have hcount : decoded'.length = decoded.length := by
    have := congrArg List.length hrows
    simpa [embed] using this
  unfold Robust.divideAndConquerFilter
  rw [hd, hd']
  change (if byzantineCount f decoded'.length = 0 then _ else _) =
    if byzantineCount f decoded.length = 0 then _ else _
  rw [hcount]
  split
  · rfl
  · dsimp only
    rw [hrows]
    have hall := length_of_mem_embed_of hlen
    generalize (embed decoded : List (List ℝ)) = rows at hall
    cases rows with
    | nil => rfl
    | cons w rows =>
      have hw := hall w List.mem_cons_self
      have hhead : (((w::rows).map (shift v)).headD []).length = v.length :=
        (length_shift hw.le).trans hw
      rw [hhead, centered_shift hall (List.cons_ne_nil w rows)]
      have hhead' : ((w::rows).headD []).length = v.length := hw
      rw [hhead']

/-- A part of a moved batch is that part, moved. -/
theorem MovedBy.pool (h : MovedBy v us us') {pool : List ℕ} (hin : ∀ i ∈ pool, i < us.length) :
    MovedBy v (pool.filterMap fun i => us[i]?) (pool.filterMap fun i => us'[i]?) := by
  obtain ⟨decoded,decoded',hd,hd',hlen,hrows⟩ := h.rows
  have hcount : us.length = decoded.length := by rw [(decodeAndValidate_ok hd).1, List.length_map]
  refine ⟨?_,_,_,Robust.decodeAndValidate_pool hd hin,
    Robust.decodeAndValidate_pool hd' fun i hi => h.length ▸ hin i hi,fun w hw => ?_,?_⟩
  · rw [List.map_filterMap, List.map_filterMap]
    refine List.filterMap_congr fun i _ => ?_
    rw [← List.getElem?_map, ← List.getElem?_map, h.samples]
  · obtain ⟨i,hi,rfl⟩ := List.mem_map.mp hw
    rw [List.getD_eq_getElem _ _ (hcount ▸ hin i hi)]
    exact hlen _ (List.getElem_mem _)
  · have hembed : ∀ d : List (List F32), (embed (pool.map fun i => d.getD i []) : List (List ℝ)) =
        pool.map fun i => (embed d).getD i [] := by
      intro d
      simp only [Robust.getD_embed]
      simp [embed]
    rw [hembed, hembed, hrows, List.map_map]
    exact List.map_congr_left fun i _ => getD_map_shift _ i

end Batches

section Averages
variable {v : List ℝ} {us us' : List ClientDelta} {weighted : List (ℝ × List ℝ)} {total : ℝ}

/-- The rows moved, their weights kept. -/
def shiftRows (v : List ℝ) (weighted : List (ℝ × List ℝ)) : List (ℝ × List ℝ) :=
  weighted.map fun p => (p.1,shift v p.2)

theorem zip_shiftRows (weights : List ℝ) (rows : List (List ℝ)) :
    weights.zip (rows.map (shift v)) = shiftRows v (weights.zip rows) := by
  rw [List.zip_map_right]
  rfl

theorem map_fst_shiftRows : (shiftRows v weighted).map Prod.fst = weighted.map Prod.fst := by
  rw [shiftRows, List.map_map]
  rfl

theorem map_snd_shiftRows :
    (shiftRows v weighted).map Prod.snd = (weighted.map Prod.snd).map (shift v) := by
  rw [shiftRows, List.map_map, List.map_map]
  rfl

/-- Rows by their shares of the total. -/
noncomputable def shares (weighted : List (ℝ × List ℝ)) (total : ℝ) : List (ℝ × List ℝ) :=
  weighted.map fun p => (p.1/total,p.2)

theorem combination_shares_shift (hrows : ∀ p ∈ weighted, p.2.length = v.length)
    (htotal : (weighted.map Prod.fst).sum = total) (hne : total ≠ 0) :
    combination v.length (shares (shiftRows v weighted) total) =
      shift v (combination v.length (shares weighted total)) := by
  rw [← combination_shift]
  · simp only [shares, shiftRows, List.map_map]
    rfl
  · have hsum : ((shares weighted total).map Prod.fst).sum = (weighted.map Prod.fst).sum/total := by
      simp only [shares, List.map_map, div_eq_mul_inv, ← List.sum_map_mul_right]
      rfl
    rw [hsum, htotal, div_self hne]
  · intro p hp
    obtain ⟨p',hp',rfl⟩ := List.mem_map.mp hp
    exact hrows p' hp'
  · rfl

theorem normalizedSum_shift (hrows : ∀ p ∈ weighted, p.2.length = v.length)
    (htotal : (weighted.map Prod.fst).sum = total) (hne : total ≠ 0) :
    Robust.normalizedSum v.length (shiftRows v weighted) total =
      shift v (Robust.normalizedSum v.length weighted total) := by
  have hcombined : ∀ ps : List (ℝ × List ℝ), (∀ p ∈ ps, p.2.length = v.length) →
      Robust.normalizedSum v.length ps total = combination v.length (shares ps total) := by
    intro ps hps
    have hshares : ∀ p ∈ shares ps total, p.2.length = v.length := by
      intro p hp
      obtain ⟨p',hp',rfl⟩ := List.mem_map.mp hp
      exact hps p' hp'
    rw [← foldl_combination (f := fun acc p => acc.zipWith (fun e x => e+p.1*x) p.2) hshares
      fun _ _ _ => rfl, shares, List.foldl_map]
    rfl
  have hshifted : ∀ p ∈ shiftRows v weighted, p.2.length = v.length := by
    intro p hp
    obtain ⟨p',hp',rfl⟩ := List.mem_map.mp hp
    exact (length_shift (hrows p' hp').le).trans (hrows p' hp')
  rw [hcombined _ hshifted, hcombined _ hrows, combination_shares_shift hrows htotal hne]

/-- FedAvg's average as a sum by normalized weights. -/
theorem averageBySamples_normalized (rows : List (List ℝ)) : averageBySamples us rows =
    if totalSamples us = 0 then .error .zeroWeightSum
    else .ok (Robust.normalizedSum (rows.headD []).length
      ((us.map fun u => (u.numSamples : ℝ)).zip rows) (totalSamples us)) := by
  unfold averageBySamples
  dsimp only
  have hraw : (us.map fun u => (Floating.ofNat u.numSamples : ℝ)) =
      us.map fun u => (u.numSamples : ℝ) := rfl
  have hzero : Floating.beq (totalSamples us : ℝ) 0 = decide (totalSamples us = 0) :=
    decide_eq_decide.mpr Nat.cast_eq_zero
  rw [hraw, Floating.sum_real, sum_numSamples, hzero]
  by_cases h : totalSamples us = 0
  · rw [if_pos (decide_eq_true h), if_pos h]
  · rw [if_neg (by simpa using h), if_neg h]
    unfold Robust.normalizedSum
    congr 2
    funext acc p
    refine congrFun (congrFun (congrArg List.zipWith ?_) acc) p.2
    funext a x
    exact congrArg (a+·) (mul_comm x _)

theorem averageBySamples_shift {rows : List (List ℝ)} (hrows : ∀ w ∈ rows, w.length = v.length)
    (hlen : us.length = rows.length)
    (hsamples : us'.map ClientDelta.numSamples = us.map ClientDelta.numSamples) :
    averageBySamples us' (rows.map (shift v)) = (averageBySamples us rows).map (shift v) := by
  have htotal : totalSamples us' = totalSamples us := congrArg List.sum hsamples
  have hraw : (us'.map fun u => (u.numSamples : ℝ)) = us.map fun u => (u.numSamples : ℝ) := by
    have := congrArg (List.map (Nat.cast : ℕ → ℝ)) hsamples
    rwa [List.map_map, List.map_map] at this
  rw [averageBySamples_normalized, averageBySamples_normalized, htotal, hraw]
  by_cases h : totalSamples us = 0
  · rw [if_pos h, if_pos h]
    rfl
  · rw [if_neg h, if_neg h, zip_shiftRows]
    have hhead : (rows.headD []).length = v.length ∧
        ((rows.map (shift v)).headD []).length = v.length := by
      cases rows with
      | nil => exact absurd (List.eq_nil_of_length_eq_zero hlen) (ne_nil_of_totalSamples h)
      | cons w rows =>
        have hw := hrows w List.mem_cons_self
        exact ⟨hw,(length_shift hw.le).trans hw⟩
    rw [hhead.1, hhead.2]
    refine congrArg Except.ok (normalizedSum_shift ?_ ?_ (Nat.cast_ne_zero.mpr h))
    · exact fun p hp => hrows p.2 (List.of_mem_zip hp).2
    · rw [List.map_fst_zip (by rw [List.length_map, hlen]), sum_numSamples]

/-- The methods that work on the decoded batch. -/
theorem movesAlong_onBatch (h : MovedBy v us us')
    {combine : List ClientDelta → List (List ℝ) → Except AggregatorError (List ℝ)}
    (hcombine : ∀ decoded, decodeAndValidate us = .ok decoded → us ≠ [] →
      (∀ w ∈ (embed decoded : List (List ℝ)), w.length = v.length) →
      combine us' ((embed decoded).map (shift v)) = (combine us (embed decoded)).map (shift v)) :
    MovesAlong (fun us => onBatch .error us fun decoded => combine us (embed decoded)) us us' v := by
  obtain ⟨decoded,decoded',hd,hd',hlen,hrows⟩ := h.rows
  unfold MovesAlong onBatch
  dsimp only
  by_cases hne : us = []
  · rw [if_pos hne, if_pos (h.nil_iff.mpr hne)]
    rfl
  · rw [if_neg hne, if_neg fun hnil => hne (h.nil_iff.mp hnil), hd, hd']
    dsimp only
    rw [hrows]
    exact hcombine decoded hd hne (length_of_mem_embed_of hlen)

theorem movesAlong_fedAvg (h : MovedBy v us us') : MovesAlong fedAvgIn us us' v :=
  movesAlong_onBatch h fun decoded hd _ hrows => averageBySamples_shift hrows
    (by rw [embed, List.length_map, (decodeAndValidate_ok hd).1, List.length_map]) h.samples

end Averages

section Statistics
variable {xs : List ℝ} (c : ℝ)

theorem sortBy_add (xs : List ℝ) :
    Floating.sortBy id (xs.map (·+c)) = (Floating.sortBy id xs).map (·+c) := by
  unfold Floating.sortBy
  refine (List.map_insertionSort _ _ (·+c) xs fun a _ b _ => ?_).symm
  have hle : ∀ a b : ℝ, Floating.le a b = true ↔ a ≤ b := fun a b => decide_eq_true_iff
  simp only [id, hle, add_le_add_iff_right]

theorem mean_add (hne : xs ≠ []) : Robust.mean (xs.map (·+c)) = Robust.mean xs+c := by
  have hpos : (xs.length : ℝ) ≠ 0 := Nat.cast_ne_zero.mpr (List.length_pos_iff.mpr hne).ne'
  rw [Robust.mean_real, Robust.mean_real, List.sum_map_add, List.map_const', List.sum_replicate,
    List.length_map, List.map_id', nsmul_eq_mul, add_div, mul_div_cancel_left₀ c hpos]

theorem getD_map_add {k : ℕ} (hk : k < xs.length) :
    (xs.map (·+c)).getD k 0 = xs.getD k 0+c := by
  rw [List.getD_eq_getElem _ _ (by rwa [List.length_map]), List.getElem_map,
    List.getD_eq_getElem _ _ hk]

theorem trimmedMean_add (f : F32) (hne : xs ≠ []) :
    Robust.trimmedMean f (xs.map (·+c)) = Robust.trimmedMean f xs+c := by
  have hpos := List.length_pos_iff.mpr hne
  have hlen := (Floating.sortBy_perm xs).length_eq
  unfold Robust.trimmedMean
  dsimp only
  rw [List.length_map]
  have hcap : min (byzantineCount f xs.length) ((xs.length-1)/2) ≤ (xs.length-1)/2 :=
    Nat.min_le_right _ _
  generalize min (byzantineCount f xs.length) ((xs.length-1)/2) = trim at hcap
  rw [sortBy_add, ← List.map_drop, ← List.map_take]
  refine mean_add c (List.ne_nil_of_length_pos ?_)
  rw [List.length_take, List.length_drop, hlen]
  omega

theorem median_add (hne : xs ≠ []) : Robust.median (xs.map (·+c)) = Robust.median xs+c := by
  have hpos := List.length_pos_iff.mpr hne
  have hlen := (Floating.sortBy_perm xs).length_eq
  unfold Robust.median
  dsimp only
  rw [List.length_map, sortBy_add]
  split
  · exact getD_map_add c (by rw [hlen]; omega)
  · rw [getD_map_add c (by rw [hlen]; omega), getD_map_add c (by rw [hlen]; omega)]
    have htwo : ∀ a b : ℝ, (a+c+(b+c))/(2.0 : ℝ) = (a+b)/(2.0 : ℝ)+c := by
      intro a b
      norm_num
      ring
    exact htwo _ _

theorem medianOfMeans_add (hne : xs ≠ []) :
    Robust.medianOfMeans (xs.map (·+c)) = Robust.medianOfMeans xs+c := by
  have hpos := List.length_pos_iff.mpr hne
  have hgroups : Robust.groups xs.length 2 ≠ 0 := by
    unfold Robust.groups
    omega
  have hchunks : (Robust.chunks 2 (xs.map (·+c))).map Robust.mean =
      ((Robust.chunks 2 xs).map Robust.mean).map (·+c) := by
    unfold Robust.chunks
    rw [List.length_map, List.map_map, List.map_map, List.map_map]
    refine List.map_congr_left fun i hi => ?_
    have hstart := Robust.groups_mul two_pos (List.mem_range.mp hi)
    change Robust.mean (((xs.map (·+c)).drop (i*2)).take 2) = _
    rw [← List.map_drop, ← List.map_take]
    refine mean_add c (List.ne_nil_of_length_pos ?_)
    rw [List.length_take, List.length_drop]
    omega
  unfold Robust.medianOfMeans
  rw [hchunks]
  refine median_add c (List.ne_nil_of_length_pos ?_)
  rw [List.length_map, Robust.length_chunks]
  omega

end Statistics

section Methods
variable {v : List ℝ} {us us' : List ClientDelta}

/-- One coordinate at a time. -/
theorem movesAlong_coordinateWise (h : MovedBy v us us') {combine : List ℝ → ℝ}
    (hcombine : ∀ xs c, xs ≠ [] → combine (xs.map (·+c)) = combine xs+c) :
    MovesAlong (Robust.coordinateWise combine) us us' v := by
  have hcolumns : Robust.coordinateWise combine = fun us => onBatch .error us fun decoded =>
      .ok ((List.range ((embed decoded : List (List ℝ)).headD []).length).map fun k =>
        combine ((embed decoded).map fun w => w.getD k 0)) := by
    funext us
    unfold Robust.coordinateWise
    simp only [length_headD_embed]
  rw [hcolumns]
  refine @movesAlong_onBatch _ _ _ h (fun _ rows => .ok ((List.range (rows.headD []).length).map
    fun k => combine (rows.map fun w => w.getD k 0))) fun decoded hd hne hrows =>
    congrArg Except.ok ?_
  have hcount : (embed decoded : List (List ℝ)).length = us.length := by
    rw [embed, List.length_map, (decodeAndValidate_ok hd).1, List.length_map]
  have hnonempty : (embed decoded : List (List ℝ)) ≠ [] :=
    List.ne_nil_of_length_pos (by rw [hcount]; exact List.length_pos_iff.mpr hne)
  generalize (embed decoded : List (List ℝ)) = rows at hrows hnonempty
  have hhead : (rows.headD []).length = v.length ∧
      ((rows.map (shift v)).headD []).length = v.length := by
    cases rows with
    | nil => exact absurd rfl hnonempty
    | cons w rows =>
      have hw := hrows w List.mem_cons_self
      exact ⟨hw,(length_shift hw.le).trans hw⟩
  rw [hhead.1, hhead.2]
  have hlen : ((List.range v.length).map fun k =>
      combine (rows.map fun w => w.getD k 0)).length = v.length := by
    rw [List.length_map, List.length_range]
  refine ext_getD 0 ?_ fun k hk => ?_
  · rw [length_shift hlen.le, hlen, List.length_map, List.length_range]
  · rw [List.length_map, List.length_range] at hk
    rw [getD_shift (hlen.symm ▸ hk) hlen.le, getD_map_range hk, getD_map_range hk, List.map_map,
      ← hcombine _ _ (by simpa using hnonempty), List.map_map]
    congr 1
    refine List.map_congr_left fun w hw => ?_
    have hw' := hrows w hw
    exact getD_shift (hw'.symm ▸ hk) hw'.le

/-- A filter in front of a method. -/
theorem movesAlong_filtered (h : MovedBy v us us')
    {select : List ClientDelta → Except AggregatorError (List ℕ)}
    {combine : List ClientDelta → Except AggregatorError (List ℝ)} (hselect : PicksAlike select)
    (hbounds : ∀ us decoded, decodeAndValidate us = .ok decoded → us ≠ [] →
      ∃ selected, select us = .ok selected ∧ ∀ i ∈ selected, i < us.length)
    (hcombine : ∀ {us us'}, MovedBy v us us' → MovesAlong combine us us' v) :
    MovesAlong (Robust.filtered select combine) us us' v := by
  unfold MovesAlong Robust.filtered
  by_cases hne : us = []
  · rw [if_pos hne, if_pos (h.nil_iff.mpr hne)]
    rfl
  · rw [if_neg hne, if_neg fun hnil => hne (h.nil_iff.mp hnil), hselect h]
    obtain ⟨decoded,_,hd,-⟩ := h.rows
    obtain ⟨selected,hsel,hin⟩ := hbounds us decoded hd hne
    rw [hsel]
    change (if selected = [] then _ else _) = Except.map (shift v) (if selected = [] then _ else _)
    by_cases hsome : selected = []
    · rw [if_pos hsome, if_pos hsome]
      rfl
    · rw [if_neg hsome, if_neg hsome]
      exact hcombine (h.pool hin)

end Methods

section GeometricMedian
variable {v estimate : List ℝ} {weighted : List (ℝ × List ℝ)} {us us' : List ClientDelta}

/-- A reweighting of moved rows around a moved estimate. -/
theorem weiszfeldStep_shift (hrows : ∀ p ∈ weighted, p.2.length = v.length)
    (hlen : estimate.length = v.length) :
    Robust.weiszfeldStep (shiftRows v weighted) (shift v estimate) =
      (Robust.weiszfeldStep weighted estimate).map (shift v) := by
  have hinverse : (shiftRows v weighted).map
      (fun p => p.1/Floating.max (Robust.l2Distance p.2 (shift v estimate)) 1e-6) =
      weighted.map fun p => p.1/Floating.max (Robust.l2Distance p.2 estimate) 1e-6 := by
    rw [shiftRows, List.map_map]
    refine List.map_congr_left fun p hp => ?_
    exact congrArg (fun r => p.1/Floating.max r 1e-6) (l2Distance_shift (hrows p hp).le hlen.le)
  unfold Robust.weiszfeldStep
  dsimp only
  rw [hinverse, map_snd_shiftRows, zip_shiftRows, length_shift hlen.le, hlen]
  have hcount : (weighted.map fun p =>
      p.1/Floating.max (Robust.l2Distance p.2 estimate) 1e-6).length = weighted.length :=
    List.length_map _
  generalize (weighted.map fun p => p.1/Floating.max (Robust.l2Distance p.2 estimate) 1e-6) = inverse
    at hcount
  by_cases hle : (Floating.le (Floating.sum inverse) 0 || !Floating.isFinite (Floating.sum inverse)) = true
  · rw [if_pos hle, if_pos hle]
    rfl
  · rw [if_neg hle, if_neg hle, Option.map_some]
    refine congrArg some (normalizedSum_shift (fun p hp => ?_) ?_ fun hzero => hle ?_)
    · obtain ⟨q,hq,heq⟩ := List.mem_map.mp (List.of_mem_zip hp).2
      rw [← heq]
      exact hrows q hq
    · rw [List.map_fst_zip (by rw [List.length_map, hcount]), Floating.sum_real]
    · rw [hzero]
      exact Bool.or_eq_true_iff.mpr (.inl (decide_eq_true le_rfl))

theorem length_weiszfeldStep (hrows : ∀ p ∈ weighted, p.2.length = v.length)
    (hlen : estimate.length = v.length) {next : List ℝ}
    (h : Robust.weiszfeldStep weighted estimate = some next) : next.length = v.length := by
  unfold Robust.weiszfeldStep at h
  dsimp only at h
  split_ifs at h
  cases h
  rw [hlen]
  refine Robust.length_normalizedSum (fun p hp => ?_) _
  obtain ⟨q,hq,heq⟩ := List.mem_map.mp (List.of_mem_zip hp).2
  rw [← heq]
  exact hrows q hq

theorem geometricMedian_shift (hrows : ∀ p ∈ weighted, p.2.length = v.length) (hne : weighted ≠ [])
    (htotal : 0 < (weighted.map Prod.fst).sum) :
    Robust.geometricMedian (shiftRows v weighted) = shift v (Robust.geometricMedian weighted) := by
  have hhead : ((weighted.map Prod.snd).headD []).length = v.length ∧
      (((shiftRows v weighted).map Prod.snd).headD []).length = v.length := by
    cases weighted with
    | nil => exact absurd rfl hne
    | cons p weighted =>
      have hp := hrows p List.mem_cons_self
      exact ⟨hp,(length_shift hp.le).trans hp⟩
  have hpositive : Floating.lt 0 (weighted.map Prod.fst).sum = true := decide_eq_true htotal
  unfold Robust.geometricMedian
  dsimp only
  rw [hhead.1, hhead.2, map_fst_shiftRows, Floating.sum_real, if_pos hpositive, if_pos hpositive]
  have hstart := normalizedSum_shift hrows rfl htotal.ne'
  have hlen := Robust.length_normalizedSum hrows (weighted.map Prod.fst).sum
  rw [hstart]
  exact @Run.bounded_map _ _ (Robust.weiszfeldStep weighted)
    (Robust.weiszfeldStep (shiftRows v weighted)) (shift v)
    (fun estimate => estimate.length = v.length)
    (fun _ _ hlen hstep => length_weiszfeldStep hrows hlen hstep)
    (fun _ hlen => weiszfeldStep_shift hrows hlen) 8 _ hlen

theorem movesAlong_geometricMedian (h : MovedBy v us us') (htotal : totalSamples us ≠ 0) :
    MovesAlong Robust.geometricMedianAggregate us us' v := by
  have haggregate : Robust.geometricMedianAggregate = fun us => onBatch .error us fun decoded =>
      .ok (Robust.geometricMedian ((us.map fun u => (Floating.ofNat u.numSamples : ℝ)).zip
        (embed decoded))) := by
    funext us
    rfl
  rw [haggregate]
  have hbatch := @movesAlong_onBatch _ _ _ h (fun us rows => .ok (Robust.geometricMedian
    ((us.map fun u => (Floating.ofNat u.numSamples : ℝ)).zip rows)))
  refine hbatch ?_
  intro decoded hd hne hrows
  have hraw : (us'.map fun u => (Floating.ofNat u.numSamples : ℝ)) =
      us.map fun u => (Floating.ofNat u.numSamples : ℝ) := by
    have := congrArg (List.map (Floating.ofNat : ℕ → ℝ)) h.samples
    rwa [List.map_map, List.map_map] at this
  have hcount : (embed decoded : List (List ℝ)).length = us.length := by
    rw [embed, List.length_map, (decodeAndValidate_ok hd).1, List.length_map]
  rw [hraw, zip_shiftRows, geometricMedian_shift]
  · rw [Except.map]
  · exact fun p hp => hrows p.2 (List.of_mem_zip hp).2
  · refine List.ne_nil_of_length_pos ?_
    rw [List.length_zip, List.length_map, hcount, Nat.min_self]
    exact List.length_pos_iff.mpr hne
  · rw [List.map_fst_zip (by rw [List.length_map, hcount])]
    have hsum : (us.map fun u => (Floating.ofNat u.numSamples : ℝ)).sum = totalSamples us :=
      sum_numSamples us
    rw [hsum]
    exact Nat.cast_pos.mpr (Nat.pos_of_ne_zero htotal)

end GeometricMedian

section Catalog

/-- The methods of the catalog that keep nothing between rounds and need no sidecar, in any
arithmetic. -/
def statelessMethod (ν : Type) [Floating ν] (f : F32) :
    String → Option (List ClientDelta → Except AggregatorError (List ν))
  | "fedavg" => some fedAvgIn
  | "krum" => some (Robust.filtered (Robust.krumFilter ν f) fedAvgIn)
  | "multi_krum" => some (Robust.filtered (Robust.multiKrumFilter ν f) fedAvgIn)
  | "trimmed_mean" => some (Robust.coordinateWise (Robust.trimmedMean f))
  | "median" => some (Robust.coordinateWise Robust.median)
  | "faba" => some (Robust.filtered (Robust.fabaFilter ν f) fedAvgIn)
  | "bulyan" => some (Robust.filtered (Robust.bulyanFilter ν f)
      (Robust.coordinateWise (Robust.trimmedMean f)))
  | "geometric_median" => some Robust.geometricMedianAggregate
  | "median_of_means" => some (Robust.coordinateWise Robust.medianOfMeans)
  | "divide_and_conquer" => some (Robust.filtered (Robust.divideAndConquerFilter ν f) fedAvgIn)
  | _ => none

theorem krum_filtered (f : F32) : krum f =
    .stateless (Robust.filtered (Robust.krumFilter F32 f) fedAvgIn) := by
  have hselect : Robust.krumFilter F32 f = krumFilter f := funext (Robust.krumFilter_f32 f)
  have hcombine : (fedAvgIn : _ → Except AggregatorError (List F32)) = fedAvgAggregate :=
    funext fedAvgIn_f32
  rw [hselect, hcombine]
  rfl

/-- What they panic with in machine arithmetic. -/
def statelessPanics (f : F32) (name : String) (updates : List ClientDelta) : Option String :=
  if name = "divide_and_conquer" then
    Robust.panicOf (Robust.divideAndConquerFilterChecked F32 f updates 30)
  else none

/-- In machine arithmetic these are the ones the catalog builds. -/
theorem buildAggregator_statelessMethod {params : AggregatorParams} {name : String}
    {aggregate : List ClientDelta → Except AggregatorError (List F32)}
    (h : statelessMethod F32 params.byzantineFraction name = some aggregate) :
    buildAggregator name params = .ok ⟨_,(Aggregator.stateless aggregate).withPanics
      fun _ _ => statelessPanics params.byzantineFraction name⟩ := by
  have hcombine : (fedAvgIn : _ → Except AggregatorError (List F32)) = fedAvgAggregate :=
    funext fedAvgIn_f32
  unfold statelessMethod at h
  split at h <;> cases h
  case h_1 | h_3 | h_6 | h_10 =>
    rw [hcombine]
    rfl
  case h_2 =>
    rw [← krum_filtered]
    rfl
  all_goals rfl

theorem inBounds_divideAndConquer (f : F32) {us : List ClientDelta} {decoded : List (List F32)}
    (hd : decodeAndValidate us = .ok decoded) :
    ∃ selected, Robust.divideAndConquerFilter ℝ f us = .ok selected ∧
      ∀ i ∈ selected, i < us.length := by
  have hlen : decoded.length = us.length := by rw [(decodeAndValidate_ok hd).1, List.length_map]
  unfold Robust.divideAndConquerFilter
  rw [hd, ← hlen]
  change ∃ selected, (if byzantineCount f decoded.length = 0 then _ else _) = _ ∧ _
  split
  · exact ⟨_,rfl,fun i hi => List.mem_range.mp hi⟩
  · exact ⟨_,rfl,fun i hi => List.mem_range.mp (List.mem_filter.mp hi).1⟩

/-- Whatever stateless method the catalog builds, its answer on a moved batch is the answer on the
batch, moved, and what it refuses it refuses wherever the batch is. The geometric median starts
from zero where nobody claims a sample, which does not move. -/
theorem movesAlong_statelessMethod (params : AggregatorParams) (name : String)
    (aggregate : List ClientDelta → Except AggregatorError (List ℝ))
    (h : statelessMethod ℝ params.byzantineFraction name = some aggregate) :
    (∃ machine, statelessMethod F32 params.byzantineFraction name = some machine ∧
      buildAggregator name params = .ok ⟨_,(Aggregator.stateless machine).withPanics
        fun _ _ => statelessPanics params.byzantineFraction name⟩) ∧
    ∀ v us us', MovedBy v us us' → (name = "geometric_median" → totalSamples us ≠ 0) →
      MovesAlong aggregate us us' v := by
  have hin {select : List ClientDelta → Except AggregatorError (List ℕ)} {k : ℕ}
      {us : List ClientDelta}
      (h : ∃ selected, select us = .ok selected ∧ Robust.Picks us.length k selected) :
      ∃ selected, select us = .ok selected ∧ ∀ i ∈ selected, i < us.length := by
    obtain ⟨selected,hsel,hpicks⟩ := h
    exact ⟨selected,hsel,hpicks.inBounds⟩
  constructor
  · have hmachine : ∃ machine, statelessMethod F32 params.byzantineFraction name = some machine := by
      unfold statelessMethod at h ⊢
      split at h <;> cases h <;> exact ⟨_,rfl⟩
    obtain ⟨machine,hm⟩ := hmachine
    exact ⟨machine,hm,buildAggregator_statelessMethod hm⟩
  · intro v us us' hmoved hsamples
    unfold statelessMethod at h
    split at h <;> cases h
    case h_1 => exact movesAlong_fedAvg hmoved
    case h_2 =>
      exact movesAlong_filtered hmoved picksAlike_krum
        (fun _ _ hd hne => hin (Robust.picks_krumFilter ℝ hd hne)) movesAlong_fedAvg
    case h_3 =>
      exact movesAlong_filtered hmoved picksAlike_multiKrum
        (fun _ _ hd hne => hin (Robust.picks_multiKrumFilter ℝ hd hne)) movesAlong_fedAvg
    case h_4 => exact movesAlong_coordinateWise hmoved fun _ c hne => trimmedMean_add c _ hne
    case h_5 => exact movesAlong_coordinateWise hmoved fun _ c hne => median_add c hne
    case h_6 =>
      exact movesAlong_filtered hmoved picksAlike_faba
        (fun _ _ hd hne => hin (Robust.picks_fabaFilter ℝ hd hne)) movesAlong_fedAvg
    case h_7 =>
      exact movesAlong_filtered hmoved picksAlike_bulyan
        (fun _ _ hd hne => hin (Robust.picks_bulyanFilter hd hne)) fun hmoved =>
        movesAlong_coordinateWise hmoved fun _ c hne => trimmedMean_add c _ hne
    case h_8 => exact movesAlong_geometricMedian hmoved (hsamples rfl)
    case h_9 => exact movesAlong_coordinateWise hmoved fun _ c hne => medianOfMeans_add c hne
    case h_10 =>
      exact movesAlong_filtered hmoved picksAlike_divideAndConquer
        (fun _ _ hd _ => inBounds_divideAndConquer _ hd) movesAlong_fedAvg

theorem movedBy_sent {v : List ℝ} {sends sends' : List (List F32)} (clientId : String)
    (hfinite : ∀ w ∈ sends++sends', w.length = v.length ∧ ∀ x ∈ w, x.isFinite = true)
    (hrows : sends'.map (·.map F32.toReal) = (sends.map (·.map F32.toReal)).map (shift v))
    (hlen : sends'.length = sends.length) :
    MovedBy v (sends.map (sent clientId)) (sends'.map (sent clientId)) := by
  have hdecode : ∀ sends : List (List F32),
      (∀ w ∈ sends, w.length = v.length ∧ ∀ x ∈ w, x.isFinite = true) →
      decodeAndValidate (sends.map (sent clientId)) =
        .ok ((sends.map (sent clientId)).map fun u => words u.weights) := by
    intro sends hfinite
    refine @decodeAndValidate_sent v.length _ fun u hu => ?_
    obtain ⟨w,hw,rfl⟩ := List.mem_map.mp hu
    exact ⟨clientId,w,rfl,hfinite w hw⟩
  have hd := hdecode sends fun w hw => hfinite w (List.mem_append_left _ hw)
  have hd' := hdecode sends' fun w hw => hfinite w (List.mem_append_right _ hw)
  have hsent : ∀ sends : List (List F32),
      (sends.map (sent clientId)).map row = sends.map (·.map F32.toReal) := by
    intro sends
    rw [List.map_map]
    exact List.map_congr_left fun w _ => row_sent clientId w
  refine ⟨?_,_,_,hd,hd',fun w hw => ?_,?_⟩
  · rw [List.map_map, List.map_map]
    change sends'.map (fun _ => 1) = sends.map fun _ => 1
    rw [List.map_const', List.map_const', hlen]
  · rw [List.map_map] at hw
    obtain ⟨w',hw',rfl⟩ := List.mem_map.mp hw
    change (words (encodeWeights w')).length = v.length
    rw [words_encodeWeights]
    exact (hfinite w' (List.mem_append_left _ hw')).1
  · rw [embed_of_ok hd, embed_of_ok hd', hsent, hsent, hrows]

/-- Two clients, moved by one in the second coordinate. -/
theorem movesAlong_statelessMethod_twoClients :
    MovesAlong (Robust.filtered (Robust.krumFilter ℝ F32.zero) fedAvgIn)
      ([[F32.zero,F32.zero],[F32.one,F32.zero]].map (sent "a"))
      ([[F32.zero,F32.one],[F32.one,F32.one]].map (sent "a")) [0,1] := by
  have hmoved : MovedBy [0,1] ([[F32.zero,F32.zero],[F32.one,F32.zero]].map (sent "a"))
      ([[F32.zero,F32.one],[F32.one,F32.one]].map (sent "a")) := by
    refine movedBy_sent "a" (fun w hw => ?_) ?_ rfl
    · simp only [List.cons_append, List.nil_append, List.mem_cons, List.not_mem_nil, or_false] at hw
      refine ⟨by obtain rfl | rfl | rfl | rfl := hw <;> rfl,?_⟩
      obtain rfl | rfl | rfl | rfl := hw <;> decide +kernel
    · simp [shift]
  exact (movesAlong_statelessMethod ⟨F32.zero,F32.zero,none,none,none,none,none,none,none⟩ "krum"
    _ rfl).2 _ _ _ hmoved fun h => absurd h (by decide)

end Catalog
end ConfluxFL
