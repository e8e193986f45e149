import ConfluxFL.Core.Vectors
import ConfluxFL.Lib.Coordinates
import ConfluxFL.Lib.Exact

/-! Batches in exact arithmetic. A weighted sum of the updates is known by the coefficient each of
them has; FedAvg's are the shares of the samples. -/
namespace ConfluxFL

/-- An update's weights as real numbers. -/
noncomputable def row (u : ClientDelta) : List ℝ := (words u.weights).map F32.toReal

/-- The sum of the updates by their coefficients. -/
noncomputable def mixture (dim : ℕ) (updates : List ClientDelta) (coefficient : ClientDelta → ℝ) :
    List ℝ :=
  (List.range dim).map fun k => (updates.map fun u => coefficient u*(row u).getD k 0).sum

/-- A model moved by the updates' distances from it, by their coefficients. -/
noncomputable def moved (global : List ℝ) (updates : List ClientDelta)
    (coefficient : ClientDelta → ℝ) : List ℝ :=
  (List.range global.length).map fun k => global.getD k 0+
    (updates.map fun u => coefficient u*((row u).getD k 0-global.getD k 0)).sum

def totalSamples (updates : List ClientDelta) : ℕ := (updates.map ClientDelta.numSamples).sum

/-- `n_k / Σn`. -/
noncomputable def sampleShare (updates : List ClientDelta) (u : ClientDelta) : ℝ :=
  u.numSamples/totalSamples updates

theorem row_of_encoded {u : ClientDelta} {weights : List F32} (h : u.weights = encodeWeights weights) :
    row u = weights.map F32.toReal := by
  rw [row, h, words_encodeWeights]

section Mixtures
variable {dim : ℕ} {updates : List ClientDelta} {coefficient : ClientDelta → ℝ}

@[simp] theorem length_mixture : (mixture dim updates coefficient).length = dim := by
  rw [mixture, List.length_map, List.length_range]

theorem getD_mixture {k : ℕ} (hk : k < dim) : (mixture dim updates coefficient).getD k 0 =
    (updates.map fun u => coefficient u*(row u).getD k 0).sum := by
  rw [mixture, Coordinates.getD_map_range hk]

theorem mixture_congr {coefficient' : ClientDelta → ℝ}
    (h : ∀ u ∈ updates, coefficient u = coefficient' u) :
    mixture dim updates coefficient = mixture dim updates coefficient' := by
  unfold mixture
  refine List.map_congr_left fun k _ => congrArg List.sum (List.map_congr_left fun u hu => ?_)
  rw [h u hu]

@[simp] theorem length_moved {global : List ℝ} :
    (moved global updates coefficient).length = global.length := by
  rw [moved, List.length_map, List.length_range]

theorem getD_moved {global : List ℝ} {k : ℕ} (hk : k < global.length) :
    (moved global updates coefficient).getD k 0 = global.getD k 0+
      (updates.map fun u => coefficient u*((row u).getD k 0-global.getD k 0)).sum := by
  rw [moved, Coordinates.getD_map_range hk]

/-- Moving by shares of one ends at the mixture, wherever it starts. -/
theorem moved_eq_mixture {global : List ℝ} (h : (updates.map coefficient).sum = 1) :
    moved global updates coefficient = mixture global.length updates coefficient := by
  refine List.map_congr_left fun k _ => ?_
  have hsplit : (updates.map fun u => coefficient u*((row u).getD k 0-global.getD k 0)).sum =
      (updates.map fun u => coefficient u*(row u).getD k 0).sum-
        (updates.map coefficient).sum*global.getD k 0 := by
    rw [eq_sub_iff_add_eq, ← List.sum_map_mul_right, ← List.sum_map_add]
    exact congrArg List.sum (List.map_congr_left fun u _ => by ring)
  rw [hsplit, h, one_mul]
  ring

end Mixtures

section Samples
variable {updates : List ClientDelta}

theorem ne_nil_of_totalSamples (h : totalSamples updates ≠ 0) : updates ≠ [] := by
  rintro rfl
  exact h rfl

theorem sum_numSamples (updates : List ClientDelta) :
    (updates.map fun u => (u.numSamples : ℝ)).sum = totalSamples updates := by
  rw [totalSamples, Nat.cast_list_sum, List.map_map]
  rfl

theorem sampleShare_nonneg (u : ClientDelta) : 0 ≤ sampleShare updates u :=
  div_nonneg (Nat.cast_nonneg _) (Nat.cast_nonneg _)

theorem sum_sampleShare (h : totalSamples updates ≠ 0) :
    (updates.map (sampleShare updates)).sum = 1 := by
  have hsum : (updates.map (sampleShare updates)).sum =
      (updates.map fun u => (u.numSamples : ℝ)).sum/totalSamples updates := by
    simp only [div_eq_mul_inv, ← List.sum_map_mul_right]
    rfl
  rw [hsum, sum_numSamples, div_self (Nat.cast_ne_zero.mpr h)]

end Samples

section Batch
variable {updates : List ClientDelta} {decoded : List (List F32)}

theorem embed_of_ok (hd : decodeAndValidate updates = .ok decoded) :
    embed decoded = updates.map row := by
  rw [embed, (decodeAndValidate_ok hd).1, List.map_map]
  rfl

theorem length_row (hd : decodeAndValidate updates = .ok decoded) {u : ClientDelta}
    (hu : u ∈ updates) : (row u).length = (decoded.headD []).length := by
  rw [row, List.length_map, ((decodeAndValidate_ok hd).2 u hu).2.1]

theorem zip_embed {β : Type} (hd : decodeAndValidate updates = .ok decoded) (f : ClientDelta → β) :
    (updates.map f).zip (embed decoded) = updates.map fun u => (f u,row u) := by
  rw [embed_of_ok hd, List.zip_map']

theorem zip_rows (hd : decodeAndValidate updates = .ok decoded) :
    updates.zip (embed decoded) = updates.map fun u => (u,row u) := by
  have hzip := zip_embed hd id
  rwa [List.map_id] at hzip

/-- An accumulator to which every update adds its own multiple of its weights. -/
theorem foldl_mixture_of_length {dim : ℕ} (hrow : ∀ u ∈ updates, (row u).length = dim)
    {f : List ℝ → ClientDelta → List ℝ} {coefficient : ClientDelta → ℝ}
    (hf : ∀ acc, ∀ u ∈ updates, f acc u = acc.zipWith (fun a x => a+coefficient u*x) (row u)) :
    updates.foldl f (zeros dim) = mixture dim updates coefficient := by
  obtain ⟨hlen,hget⟩ := @Coordinates.foldl_spec ℝ ClientDelta _ f
    (fun u k => coefficient u*(row u).getD k 0) dim updates
    (fun acc u hu hacc => by
      have hrow := hrow u hu
      rw [hf acc u hu]
      refine ⟨by rw [List.length_zipWith, hacc, hrow, Nat.min_self],fun k hk => ?_⟩
      rw [Coordinates.getD_zipWith 0 0 0 (hacc.symm ▸ hk) (hrow.symm ▸ hk)])
    (zeros _) (length_zeros _)
  refine Coordinates.ext_getD 0 (hlen.trans length_mixture.symm) fun k hk => ?_
  rw [hlen] at hk
  rw [hget k hk, getD_mixture hk, zeros, List.getD_replicate _ hk, zero_add]

theorem foldl_mixture (hd : decodeAndValidate updates = .ok decoded)
    {f : List ℝ → ClientDelta → List ℝ} {coefficient : ClientDelta → ℝ}
    (hf : ∀ acc, ∀ u ∈ updates, f acc u = acc.zipWith (fun a x => a+coefficient u*x) (row u)) :
    updates.foldl f (zeros (decoded.headD []).length) =
      mixture (decoded.headD []).length updates coefficient :=
  foldl_mixture_of_length (fun _ hu => length_row hd hu) hf

/-- The unweighted mean of some updates. -/
theorem sharedMean_row {dim : ℕ} (hrow : ∀ u ∈ updates, (row u).length = dim) :
    sharedMean dim (updates.map row) = mixture dim updates fun _ => 1/updates.length := by
  unfold sharedMean
  rw [List.foldl_map, List.length_map]
  refine foldl_mixture_of_length hrow fun acc u _ => ?_
  unfold addScaled
  refine congrFun (congrFun (congrArg List.zipWith ?_) acc) (row u)
  funext a x
  exact congrArg (a+·) (mul_comm x _)

/-- An accumulator to which every update adds a multiple of its distance from the model, and the
model moved by a multiple of what came together. -/
theorem zipWith_foldl_moved (hd : decodeAndValidate updates = .ok decoded) {global : List ℝ}
    (hlen : global.length = (decoded.headD []).length) {f : List ℝ → ClientDelta → List ℝ}
    {coefficient : ClientDelta → ℝ} (hf : ∀ acc, ∀ u ∈ updates, f acc u =
      acc.zipWith (fun a p => a+coefficient u*(p.1-p.2)) ((row u).zip global)) (scale : ℝ) :
    global.zipWith (fun x d => x+scale*d) (updates.foldl f (zeros global.length)) =
      moved global updates fun u => scale*coefficient u := by
  obtain ⟨hacc,hget⟩ := @Coordinates.foldl_spec ℝ ClientDelta _ f
    (fun u k => coefficient u*((row u).getD k 0-global.getD k 0)) global.length updates
    (fun acc u hu hacc => by
      have hrow := (length_row hd hu).trans hlen.symm
      rw [hf acc u hu]
      refine ⟨by rw [List.length_zipWith, List.length_zip, hacc, hrow, Nat.min_self, Nat.min_self],
        fun k hk => ?_⟩
      have hzip : ((row u).zip global).getD k (0,0) = ((row u).getD k 0,global.getD k 0) :=
        Coordinates.getD_zipWith 0 0 (0,0) (hrow.symm ▸ hk) hk
      rw [Coordinates.getD_zipWith 0 (0,0) 0 (hacc.symm ▸ hk)
        (by rwa [List.length_zip, hrow, Nat.min_self]), hzip])
    (zeros _) (length_zeros _)
  have hmoved : (global.zipWith (fun x d => x+scale*d)
      (updates.foldl f (zeros global.length))).length = global.length := by
    rw [List.length_zipWith, hacc, Nat.min_self]
  refine Coordinates.ext_getD 0 (hmoved.trans length_moved.symm) fun k hk => ?_
  rw [hmoved] at hk
  rw [Coordinates.getD_zipWith 0 0 0 hk (hacc.symm ▸ hk), hget k hk, getD_moved hk, zeros,
    List.getD_replicate _ hk, zero_add, ← List.sum_map_mul_left]
  simp only [mul_assoc]

/-- FedAvg's combination is by shares of the samples, where there are any. -/
theorem averageBySamples_real (hd : decodeAndValidate updates = .ok decoded) :
    averageBySamples updates (embed decoded : List (List ℝ)) =
      if totalSamples updates = 0 then .error .zeroWeightSum
      else .ok (mixture (decoded.headD []).length updates (sampleShare updates)) := by
  unfold averageBySamples
  dsimp only
  rw [Floating.sum_real, zip_embed hd, length_headD_embed, List.foldl_map]
  have htotal : (updates.map fun u => (Floating.ofNat u.numSamples : ℝ)).sum =
      totalSamples updates := sum_numSamples updates
  rw [htotal]
  have hzero : Floating.beq (totalSamples updates : ℝ) 0 = decide (totalSamples updates = 0) :=
    decide_eq_decide.mpr Nat.cast_eq_zero
  rw [hzero]
  by_cases h : totalSamples updates = 0
  · rw [if_pos (decide_eq_true h), if_pos h]
  · rw [if_neg (by simpa using h), if_neg h]
    refine congrArg Except.ok (foldl_mixture hd fun acc u _ => ?_)
    unfold addScaled
    refine congrFun (congrFun (congrArg List.zipWith ?_) acc) (row u)
    funext a x
    exact congrArg (a+·) (mul_comm x _)

theorem fedAvgIn_of_ok (hd : decodeAndValidate updates = .ok decoded)
    (htotal : totalSamples updates ≠ 0) : fedAvgIn updates =
      .ok (mixture (decoded.headD []).length updates (sampleShare updates)) := by
  unfold fedAvgIn onBatch
  rw [if_neg (ne_nil_of_totalSamples htotal), hd]
  dsimp only
  rw [averageBySamples_real hd, if_neg htotal]

/-- What FedAvg answers. -/
theorem fedAvgIn_real {w : List ℝ} (h : fedAvgIn updates = .ok w) :
    ∃ decoded, decodeAndValidate updates = .ok decoded ∧ totalSamples updates ≠ 0 ∧
      w = mixture (decoded.headD []).length updates (sampleShare updates) := by
  obtain ⟨decoded,hd,-,hout⟩ := onBatch_ok h
  rw [averageBySamples_real hd] at hout
  split_ifs at hout with hzero
  exact ⟨decoded,hd,hzero,(Except.ok.inj hout).symm⟩

end Batch

section Acceptance
variable {updates : List ClientDelta} {dim : ℕ}

/-- A batch the methods go on with, of this dimension. -/
def Accepted (updates : List ClientDelta) (dim : ℕ) : Prop :=
  updates ≠ [] ∧ ∃ decoded, decodeAndValidate updates = .ok decoded ∧
    (decoded.headD []).length = dim

theorem embed_words (updates : List ClientDelta) :
    embed (updates.map fun u => words u.weights) = updates.map row := by
  rw [embed, List.map_map]
  rfl

theorem Accepted.length_headD (h : Accepted updates dim) :
    ((updates.map fun u => words u.weights).headD []).length = dim := by
  obtain ⟨-,decoded,hd,hdim⟩ := h
  rwa [← (decodeAndValidate_ok hd).1]

theorem Accepted.length_row (h : Accepted updates dim) {u : ClientDelta} (hu : u ∈ updates) :
    (row u).length = dim := by
  obtain ⟨-,decoded,hd,hdim⟩ := h
  exact (ConfluxFL.length_row hd hu).trans hdim

theorem Accepted.onBatch (h : Accepted updates dim) {ρ : Type} (refuse : AggregatorError → ρ)
    (f : List (List F32) → ρ) :
    onBatch refuse updates f = f (updates.map fun u => words u.weights) := by
  obtain ⟨hne,decoded,hd,-⟩ := h
  unfold ConfluxFL.onBatch
  rw [if_neg hne, hd, (decodeAndValidate_ok hd).1]

/-- An update with these weights and one sample. -/
def sent (clientId : String) (weights : List F32) : ClientDelta :=
  ⟨clientId,1,encodeWeights weights,1,none,none,none⟩

theorem row_sent (clientId : String) (weights : List F32) :
    row (sent clientId weights) = weights.map F32.toReal := row_of_encoded rfl

theorem decodeAndValidate_sent {dim : ℕ} {us : List ClientDelta}
    (h : ∀ u ∈ us, ∃ clientId weights, u = sent clientId weights ∧ weights.length = dim ∧
      ∀ x ∈ weights, x.isFinite = true) :
    decodeAndValidate us = .ok (us.map fun u => words u.weights) := by
  have hsamples : 1 ≤ maxPlausibleSampleCount := by decide
  refine @decodeAndValidate_of us dim fun u hu => ?_
  obtain ⟨clientId,weights,rfl,hlen,hfinite⟩ := h u hu
  have hwords : words (sent clientId weights).weights = weights := words_encodeWeights weights
  rw [hwords]
  exact ⟨decodeWeights_encodeWeights weights,hlen,hfinite,hsamples⟩

end Acceptance
end ConfluxFL
