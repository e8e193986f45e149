import ConfluxFL.Core.ExactBatch
import ConfluxFL.Core.KrumCounts

/-! The geometric median in exact arithmetic. Every reweighting mixes the updates by shares of
one, so the estimate stays among them; without samples there is nothing to share. -/
namespace ConfluxFL.Robust
open Coordinates

/-- The updates of a batch as points. -/
def points (dim : ℕ) (updates : List ClientDelta) : Set (Fin dim → ℝ) :=
  {x | ∃ u ∈ updates, point dim (row u) = x}

/-- A convex combination of the updates, with every coordinate between two of theirs. -/
structure StaysInData (updates : List ClientDelta) (out : List ℝ) : Prop where
  combination : point out.length out ∈ convexHull ℝ (points out.length updates)
  between : ∀ k < out.length, (∃ u ∈ updates, (row u).getD k 0 ≤ out.getD k 0) ∧
    ∃ u ∈ updates, out.getD k 0 ≤ (row u).getD k 0

section Mixtures
variable {updates : List ClientDelta} {dim : ℕ}

theorem staysInData_iff {out : List ℝ} :
    StaysInData updates out ↔ point out.length out ∈ convexHull ℝ (points out.length updates) := by
  refine ⟨StaysInData.combination,fun h => ⟨h,fun k hk => ?_⟩⟩
  obtain ⟨_,⟨u,hu,rfl⟩,hle⟩ := exists_le_of_mem_convexHull h ⟨k,hk⟩
  obtain ⟨_,⟨v,hv,rfl⟩,hge⟩ := exists_ge_of_mem_convexHull h ⟨k,hk⟩
  exact ⟨⟨u,hu,hle⟩,v,hv,hge⟩

/-- A mixture by shares of one is a convex combination. -/
theorem mixture_mem {coefficient : ClientDelta → ℝ} (h0 : ∀ u ∈ updates, 0 ≤ coefficient u)
    (h1 : (updates.map coefficient).sum = 1) :
    point dim (mixture dim updates coefficient) ∈ convexHull ℝ (points dim updates) := by
  have hpoint : point dim (mixture dim updates coefficient) =
      (updates.map fun u => coefficient u•point dim (row u)).sum := by
    funext k
    rw [Pi.list_sum_apply, List.map_map, point, getD_mixture k.2]
    rfl
  rw [hpoint]
  exact sum_mem_of_convex (convex_convexHull ℝ _) h0 h1 fun u hu =>
    subset_convexHull ℝ _ ⟨u,hu,rfl⟩

/-- Weights that are not negative, divided by their sum. -/
theorem mixture_normalized_mem {weight : ClientDelta → ℝ} (h0 : ∀ u ∈ updates, 0 ≤ weight u)
    (hpos : 0 < (updates.map weight).sum) :
    point dim (mixture dim updates fun u => weight u/(updates.map weight).sum) ∈
      convexHull ℝ (points dim updates) := by
  refine mixture_mem (fun u hu => div_nonneg (h0 u hu) hpos.le) ?_
  simp only [div_eq_mul_inv, List.sum_map_mul_right]
  exact mul_inv_cancel₀ hpos.ne'

end Mixtures

section Weiszfeld
variable {updates : List ClientDelta} {decoded : List (List F32)} {estimate : List ℝ}

/-- The batch as the statistic sees it. -/
noncomputable def weightedRows (updates : List ClientDelta) : List (ℝ × List ℝ) :=
  updates.map fun u => ((u.numSamples : ℝ),row u)

/-- The weight of an update by the inverse of its distance from the estimate. -/
noncomputable def inverseWeight (estimate : List ℝ) (u : ClientDelta) : ℝ :=
  u.numSamples/Floating.max (l2Distance (row u) estimate) 1e-6

theorem inverseWeight_pos_iff {u : ClientDelta} : 0 < inverseWeight estimate u ↔ 0 < u.numSamples := by
  have hguard : 0 < Floating.max (l2Distance (row u) estimate) (1e-6 : ℝ) := by
    rw [Floating.max_real]
    exact lt_max_of_lt_right (by norm_num)
  rw [inverseWeight, div_pos_iff_of_pos_right hguard, Nat.cast_pos]

theorem inverseWeight_nonneg (u : ClientDelta) : 0 ≤ inverseWeight estimate u := by
  rcases Nat.eq_zero_or_pos u.numSamples with h | h
  · rw [inverseWeight, h, Nat.cast_zero, zero_div]
  · exact (inverseWeight_pos_iff.mpr h).le

theorem normalizedSum_real (hd : decodeAndValidate updates = .ok decoded)
    (weight : ClientDelta → ℝ) (total : ℝ) :
    normalizedSum (decoded.headD []).length (updates.map fun u => (weight u,row u)) total =
      mixture (decoded.headD []).length updates fun u => weight u/total := by
  unfold normalizedSum
  rw [List.foldl_map]
  exact foldl_mixture hd fun acc u _ => rfl

/-- A reweighting with weights to share moves the estimate to a mixture. -/
theorem weiszfeldStep_real (hd : decodeAndValidate updates = .ok decoded)
    (hlen : estimate.length = (decoded.headD []).length) :
    weiszfeldStep (weightedRows updates) estimate =
      if (updates.map (inverseWeight estimate)).sum ≤ 0 then none
      else some (mixture (decoded.headD []).length updates fun u =>
        inverseWeight estimate u/(updates.map (inverseWeight estimate)).sum) := by
  have hinverse : (weightedRows updates).map
      (fun p => p.1/Floating.max (l2Distance p.2 estimate) 1e-6) =
        updates.map (inverseWeight estimate) := by
    rw [weightedRows, List.map_map]
    rfl
  have hrows : (weightedRows updates).map Prod.snd = updates.map row := by
    rw [weightedRows, List.map_map]
    rfl
  unfold weiszfeldStep
  dsimp only
  rw [hinverse, hrows, List.zip_map', Floating.sum_real, hlen, normalizedSum_real hd]
  have hle : (Floating.le (updates.map (inverseWeight estimate)).sum 0 ||
      !Floating.isFinite (updates.map (inverseWeight estimate)).sum) =
        decide ((updates.map (inverseWeight estimate)).sum ≤ 0) := Bool.or_false _
  rw [hle]
  by_cases h : (updates.map (inverseWeight estimate)).sum ≤ 0
  · rw [if_pos (decide_eq_true h), if_pos h]
  · rw [if_neg (by simpa using h), if_neg h]

theorem geometricMedianAggregate_real (hd : decodeAndValidate updates = .ok decoded)
    (hne : updates ≠ []) : geometricMedianAggregate updates =
      .ok (Run.bounded (weiszfeldStep (weightedRows updates)) 8
        (if 0 < totalSamples updates then
          mixture (decoded.headD []).length updates (sampleShare updates)
        else zeros (decoded.headD []).length)) := by
  unfold geometricMedianAggregate onBatch geometricMedian
  rw [if_neg hne, hd]
  dsimp only
  rw [zip_embed hd]
  have hrows : (updates.map fun u => ((Floating.ofNat u.numSamples : ℝ),row u)).map Prod.snd =
      embed decoded := by
    rw [embed_of_ok hd, List.map_map]
    rfl
  have hweights : (updates.map fun u => ((Floating.ofNat u.numSamples : ℝ),row u)).map Prod.fst =
      updates.map fun u => (u.numSamples : ℝ) := by
    rw [List.map_map]
    rfl
  rw [hrows, hweights, length_headD_embed, Floating.sum_real, sum_numSamples,
    normalizedSum_real hd (fun u => Floating.ofNat u.numSamples)]
  refine congrArg (fun s => Except.ok (Run.bounded _ 8 s)) ?_
  rw [Floating.lt_real]
  by_cases h : 0 < totalSamples updates
  · rw [if_pos (decide_eq_true (Nat.cast_pos.mpr h)), if_pos h]
    rfl
  · rw [if_neg (by simpa using h), if_neg h]

theorem totalSamples_pos_iff : 0 < totalSamples updates ↔ ∃ u ∈ updates, 0 < u.numSamples := by
  rw [totalSamples, Nat.pos_iff_ne_zero, Ne, List.sum_eq_zero_iff]
  simp [Nat.pos_iff_ne_zero]

/-- With a sample somewhere, every estimate is among the updates. -/
theorem geometricMedian_mem {out : List ℝ} (hd : decodeAndValidate updates = .ok decoded)
    (hne : updates ≠ []) (hsome : ∃ u ∈ updates, 0 < u.numSamples)
    (h : geometricMedianAggregate updates = .ok out) :
    point out.length out ∈ convexHull ℝ (points out.length updates) := by
  let dim := (decoded.headD []).length
  have htotal := totalSamples_pos_iff.mpr hsome
  rw [geometricMedianAggregate_real hd hne, if_pos htotal] at h
  suffices hmem : ∀ v, v = out → v.length = dim ∧
      point dim v ∈ convexHull ℝ (points dim updates) by
    obtain ⟨hlen,hmem⟩ := hmem out rfl
    rwa [hlen]
  rintro _ rfl
  rw [← Except.ok.inj h]
  refine Run.bounded_of_invariant (fun v : List ℝ => v.length = dim ∧
    point dim v ∈ convexHull ℝ (points dim updates)) (fun v v' hv hstep => ?_) 8
    ⟨length_mixture,mixture_mem (fun u _ => sampleShare_nonneg u) (sum_sampleShare htotal.ne')⟩
  rw [weiszfeldStep_real hd hv.1] at hstep
  split_ifs at hstep with hsum
  cases hstep
  exact ⟨length_mixture,mixture_normalized_mem (fun u _ => inverseWeight_nonneg u)
    (not_le.mp hsum)⟩

/-- Without samples no weight is positive, and the estimate stays where it starts. -/
theorem geometricMedian_of_none (hd : decodeAndValidate updates = .ok decoded) (hne : updates ≠ [])
    (hnone : ∀ u ∈ updates, u.numSamples = 0) :
    geometricMedianAggregate updates = .ok (zeros (decoded.headD []).length : List ℝ) := by
  have htotal : ¬0 < totalSamples updates := by
    rw [totalSamples_pos_iff]
    rintro ⟨u,hu,hpos⟩
    exact hpos.ne' (hnone u hu)
  have hstep : weiszfeldStep (weightedRows updates) (zeros (decoded.headD []).length) = none := by
    rw [weiszfeldStep_real hd (length_zeros _), if_pos]
    refine le_of_eq (List.sum_eq_zero fun x hx => ?_)
    obtain ⟨u,hu,rfl⟩ := List.mem_map.mp hx
    rw [inverseWeight, hnone u hu, Nat.cast_zero, zero_div]
  rw [geometricMedianAggregate_real hd hne, if_neg htotal, Run.bounded, hstep]

end Weiszfeld

/-- With a sample somewhere the estimate stays among the updates; without one it is the origin,
wherever the updates are. -/
theorem geometricMedian_staysInData_iff {updates : List ClientDelta} {out : List ℝ}
    (h : geometricMedianAggregate updates = .ok out) : StaysInData updates out ↔
      (∃ u ∈ updates, 0 < u.numSamples) ∨ 0 ∈ convexHull ℝ (points out.length updates) := by
  obtain ⟨decoded,hd,hdim,-⟩ := onBatch_ok h
  rw [staysInData_iff]
  by_cases hsome : ∃ u ∈ updates, 0 < u.numSamples
  · exact iff_of_true (geometricMedian_mem hd hdim.1 hsome h) (.inl hsome)
  · have hnone : ∀ u ∈ updates, u.numSamples = 0 := fun u hu =>
      Nat.eq_zero_of_not_pos fun hpos => hsome ⟨u,hu,hpos⟩
    rw [geometricMedian_of_none hd hdim.1 hnone] at h
    cases h
    rw [zeros, point_replicate, or_iff_right hsome]

/-- Three updates, one of them without samples: the median stays between them. -/
theorem geometricMedian_staysInData_iff_sampled :
    let batch := [reportedWeight "a" F32.one 2,reportedWeight "b" F32.zero 1,
      reportedWeight "c" F32.one 0]
    ∃ out, geometricMedianAggregate batch = .ok (out : List ℝ) ∧ StaysInData batch out := by
  intro batch
  have hd : decodeAndValidate batch = .ok [[F32.one],[F32.zero],[F32.one]] := by decide +kernel
  have hout := geometricMedianAggregate_real hd (List.cons_ne_nil _ _)
  exact ⟨_,hout,(geometricMedian_staysInData_iff hout).mpr
    (.inl ⟨_,List.mem_cons_self,Nat.two_pos⟩)⟩

/-- The median of a single update without samples, away from the origin, is not that update. -/
theorem not_staysInData_oneWeight :
    geometricMedianAggregate [reportedWeight "a" F32.one 0] = .ok [(0 : ℝ)] ∧
      ¬StaysInData [reportedWeight "a" F32.one 0] [0] := by
  have hd : decodeAndValidate [reportedWeight "a" F32.one 0] = .ok [[F32.one]] := by decide +kernel
  refine ⟨geometricMedian_of_none hd (List.cons_ne_nil _ _) (by decide),fun hstays => ?_⟩
  obtain ⟨⟨u,hu,hle⟩,-⟩ := hstays.between 0 zero_lt_one
  rw [List.mem_singleton.mp hu] at hle
  rw [row_of_encoded rfl, List.map_singleton, F32.toReal_one] at hle
  norm_num at hle

end ConfluxFL.Robust
