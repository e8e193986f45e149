import ConfluxFL.Core.Aggregator
import ConfluxFL.Lib.Fallible
import ConfluxFL.Lib.Floating

/-! What the aggregation methods share, in any arithmetic: the decoded batch, weighted sums of
its rows, FedAvg's average, and the dimension a batch has. -/
namespace ConfluxFL
variable {ν ω : Type} [Floating ν] [Floating ω] [Precision ν ω]
open Precision

/-- A decoded batch as values of the arithmetic at hand. -/
def embed (decoded : List (List F32)) : List (List ν) :=
  decoded.map fun w => w.map Floating.ofF32

/-- Element-wise `acc + src * weight`. -/
def addScaled (acc src : List ν) (weight : ν) : List ν :=
  acc.zipWith (fun a s => a+s*weight) src

def zeros (dim : ℕ) : List ν := List.replicate dim 0

/-- The unweighted mean, with `1/n` folded into each term. -/
def sharedMean (dim : ℕ) (rows : List (List ν)) : List ν :=
  rows.foldl (fun acc w => addScaled acc w (1/Floating.ofNat rows.length)) (zeros dim)

/-- Element-wise `acc + (src - reference) * scale`, summed in the wider type. -/
def addScaledDifference (acc : List ω) (src reference : List ν) (scale : ω) : List ω :=
  acc.zipWith (fun a p => a+(widen p.1-widen p.2)*scale) (src.zip reference)

/-- The average by reported sample counts. -/
def averageBySamples (updates : List ClientDelta) (decoded : List (List ν)) :
    Except AggregatorError (List ν) :=
  let raw : List ν := updates.map fun u => Floating.ofNat u.numSamples
  let total := Floating.sum raw
  if Floating.beq total 0 then .error .zeroWeightSum
  else .ok ((raw.zip decoded).foldl (fun acc p => addScaled acc p.2 (p.1/total))
    (zeros (decoded.headD []).length))

theorem mem_zipWith {α β γ : Type} {f : α → β → γ} {a : List α} {b : List β} {z : γ}
    (h : z ∈ a.zipWith f b) : ∃ x ∈ a, ∃ y ∈ b, f x y = z := by
  rw [← List.map_uncurry_zip_eq_zipWith] at h
  obtain ⟨⟨x,y⟩,hp,rfl⟩ := List.mem_map.mp h
  exact ⟨x,(List.of_mem_zip hp).1,y,(List.of_mem_zip hp).2,rfl⟩

/-- What every method does first: refuse an empty batch, decode and validate the others, and go
on with the decoded updates. -/
def onBatch {ρ : Type} (refuse : AggregatorError → ρ) (updates : List ClientDelta)
    (f : List (List F32) → ρ) : ρ :=
  if updates = [] then refuse .emptyBatch
  else
    match decodeAndValidate updates with
    | .error e => refuse e
    | .ok decoded => f decoded

/-- FedAvg in any arithmetic. -/
def fedAvgIn (updates : List ClientDelta) : Except AggregatorError (List ν) :=
  onBatch .error updates fun decoded => averageBySamples updates (embed decoded)

theorem embed_f32 (decoded : List (List F32)) : (embed decoded : List (List F32)) = decoded := by
  simp only [embed, Floating.ofF32, List.map_id']

/-- In machine arithmetic it is the one the catalog builds. -/
theorem fedAvgIn_f32 (updates : List ClientDelta) :
    (fedAvgIn updates : Except AggregatorError (List F32)) = fedAvgAggregate updates := by
  unfold fedAvgIn onBatch fedAvgAggregate weightedAverage
  split
  · rfl
  · cases decodeAndValidate updates with
    | error e => rfl
    | ok decoded =>
      simp only [embed_f32]
      rfl

/-- A value that is not finite would become every later round's start, so it is refused under
the method's own name. -/
def refuseNonFinite (method : String) (next : List ν) : Option AggregatorError :=
  (next.findIdx? fun w => !Floating.isFinite w).map fun index =>
    .nonFiniteWeights ("<"++method++" server optimizer>") index

section Decoding
variable {updates : List ClientDelta} {decoded : List (List F32)}

theorem decodeAll_ok (h : decodeAll updates = .ok decoded) :
    decoded = updates.map (fun u => words u.weights) ∧
      ∀ u ∈ updates, decodeWeights u.weights = .ok (words u.weights) := by
  unfold decodeAll at h
  induction updates generalizing decoded with
  | nil =>
    cases h
    exact ⟨rfl,nofun⟩
  | cons u updates ih =>
    rw [List.mapM_cons, Fallible.except_bind_ok_iff] at h
    obtain ⟨w,hw,h⟩ := h
    rw [Fallible.except_bind_ok_iff] at h
    obtain ⟨rest,hrest,h⟩ := h
    cases h
    obtain ⟨rfl,hall⟩ := ih hrest
    have hu : decodeWeights u.weights = .ok w := by
      split at hw
      · rename_i w' hw'
        cases hw
        exact hw'
      · cases hw
    have hwords : w = words u.weights := by
      unfold decodeWeights at hu
      split_ifs at hu
      cases hu
      rfl
    subst hwords
    refine ⟨rfl,fun v hv => ?_⟩
    rcases List.mem_cons.mp hv with rfl | hv
    · exact hu
    · exact hall v hv

theorem firstRejection_none {dim : ℕ} {batch : List (ClientDelta × List F32)}
    (h : firstRejection dim batch = none) : ∀ p ∈ batch, p.2.length = dim ∧
      (∀ x ∈ p.2, x.isFinite = true) ∧ p.1.numSamples ≤ maxPlausibleSampleCount := by
  unfold firstRejection at h
  dsimp only at h
  rw [Option.or_eq_none_iff, List.findSome?_eq_none_iff, List.findSome?_eq_none_iff] at h
  intro p hp
  have hlength := h.1 p hp
  have hvalue := h.2 p hp
  split at hvalue
  · cases hvalue
  · rename_i hfinite
    rw [List.findIdx?_eq_none_iff] at hfinite
    refine ⟨?_,fun x hx => ?_,?_⟩
    · by_contra hne
      simp [hne] at hlength
    · simpa using hfinite x hx
    · by_contra hlt
      simp [Nat.lt_of_not_le hlt] at hvalue

/-- What an accepted batch is: every update decodes, all to the same number of weights, all of
these are finite, and the sample counts are possible ones. -/
theorem decodeAndValidate_ok (h : decodeAndValidate updates = .ok decoded) :
    decoded = updates.map (fun u => words u.weights) ∧ ∀ u ∈ updates,
      decodeWeights u.weights = .ok (words u.weights) ∧
      (words u.weights).length = (decoded.headD []).length ∧
      (∀ x ∈ words u.weights, x.isFinite = true) ∧ u.numSamples ≤ maxPlausibleSampleCount := by
  unfold decodeAndValidate at h
  rw [Fallible.except_bind_ok_iff] at h
  obtain ⟨decoded',hdecoded,h⟩ := h
  split at h
  · cases h
  · rename_i hnone
    cases h
    obtain ⟨rfl,hall⟩ := decodeAll_ok hdecoded
    refine ⟨rfl,fun u hu => ⟨hall u hu,?_⟩⟩
    have hzip : updates.zip (updates.map fun u => words u.weights) =
        updates.map fun u => (u,words u.weights) := by
      simpa using List.zip_map' (f := id) (g := fun u : ClientDelta => words u.weights)
        (l := updates)
    rw [hzip] at hnone
    exact firstRejection_none hnone _ (List.mem_map_of_mem hu)

/-- And what such updates come to. -/
theorem decodeAndValidate_of {dim : ℕ} (h : ∀ u ∈ updates,
      decodeWeights u.weights = .ok (words u.weights) ∧ (words u.weights).length = dim ∧
        (∀ x ∈ words u.weights, x.isFinite = true) ∧ u.numSamples ≤ maxPlausibleSampleCount) :
    decodeAndValidate updates = .ok (updates.map fun u => words u.weights) := by
  have hall : decodeAll updates = .ok (updates.map fun u => words u.weights) := by
    unfold decodeAll
    induction updates with
    | nil => rfl
    | cons u updates ih =>
      rw [List.mapM_cons, (h u List.mem_cons_self).1,
        ih fun v hv => h v (List.mem_cons_of_mem u hv)]
      rfl
  have hzip : updates.zip (updates.map fun u => words u.weights) =
      updates.map fun u => (u,words u.weights) := by
    simpa using List.zip_map' (f := id) (g := fun u : ClientDelta => words u.weights)
      (l := updates)
  have hhead : ∀ u ∈ updates, (words u.weights).length =
      ((updates.map fun u => words u.weights).headD []).length := by
    intro u hu
    cases updates with
    | nil => cases hu
    | cons v updates =>
      rw [(h u hu).2.1]
      exact (h v List.mem_cons_self).2.1.symm
  have hnone : firstRejection ((updates.map fun u => words u.weights).headD []).length
      (updates.zip (updates.map fun u => words u.weights)) = none := by
    rw [hzip]
    unfold firstRejection
    dsimp only
    rw [Option.or_eq_none_iff, List.findSome?_eq_none_iff, List.findSome?_eq_none_iff]
    constructor
    · intro p hp
      obtain ⟨u,hu,rfl⟩ := List.mem_map.mp hp
      exact if_neg (not_not.mpr (hhead u hu))
    · intro p hp
      obtain ⟨u,hu,rfl⟩ := List.mem_map.mp hp
      have hfinite : (words u.weights).findIdx? (fun x => !x.isFinite) = none := by
        rw [List.findIdx?_eq_none_iff]
        intro x hx
        rw [(h u hu).2.2.1 x hx]
        rfl
      simp only [hfinite]
      exact if_neg (h u hu).2.2.2.not_gt
  simp only [decodeAndValidate, hall, bind, Except.bind, hnone]

end Decoding

section Dimension

/-- A batch that is not empty and whose updates all have `dim` weights. -/
def HasDimension (updates : List ClientDelta) (dim : ℕ) : Prop :=
  updates ≠ [] ∧ ∀ u ∈ updates, ∃ w, decodeWeights u.weights = .ok w ∧ w.length = dim

/-- An accepted batch has the dimension of its first update. -/
theorem hasDimension_of_ok {updates : List ClientDelta} {decoded : List (List F32)}
    (h : decodeAndValidate updates = .ok decoded) (hne : updates ≠ []) :
    HasDimension updates (decoded.headD []).length :=
  ⟨hne,fun u hu => ⟨_,((decodeAndValidate_ok h).2 u hu).1,((decodeAndValidate_ok h).2 u hu).2.1⟩⟩

/-- A method refuses its batch, or goes on with one that is valid and has a dimension. -/
theorem onBatch_cases {ρ : Type} (refuse : AggregatorError → ρ) (updates : List ClientDelta)
    (f : List (List F32) → ρ) : (∃ e, onBatch refuse updates f = refuse e) ∨
      ∃ decoded, decodeAndValidate updates = .ok decoded ∧
        HasDimension updates (decoded.headD []).length ∧ onBatch refuse updates f = f decoded := by
  unfold onBatch
  split
  · exact .inl ⟨_,rfl⟩
  · rename_i hne
    cases hd : decodeAndValidate updates with
    | error e => exact .inl ⟨e,rfl⟩
    | ok decoded => exact .inr ⟨decoded,rfl,hasDimension_of_ok hd hne,rfl⟩

theorem onBatch_ok {α : Type} {updates : List ClientDelta}
    {f : List (List F32) → Except AggregatorError α} {out : α}
    (h : onBatch .error updates f = .ok out) : ∃ decoded, decodeAndValidate updates = .ok decoded ∧
      HasDimension updates (decoded.headD []).length ∧ f decoded = .ok out := by
  rcases onBatch_cases Except.error updates f with ⟨e,he⟩ | ⟨decoded,hd,hdim,heq⟩
  · cases he.symm.trans h
  · exact ⟨decoded,hd,hdim,heq.symm.trans h⟩

/-- The same for a method that returns a state whether or not it succeeds. -/
theorem onBatch_fst_ok {α σ : Type} {state : σ} {updates : List ClientDelta}
    {f : List (List F32) → Except AggregatorError α × σ} {out : α}
    (h : (onBatch (fun e => (.error e,state)) updates f).1 = .ok out) :
    ∃ decoded, decodeAndValidate updates = .ok decoded ∧
      HasDimension updates (decoded.headD []).length ∧ (f decoded).1 = .ok out := by
  rcases onBatch_cases (fun e => (.error e,state)) updates f with ⟨e,he⟩ | ⟨decoded,hd,hdim,heq⟩
  · rw [he] at h
    cases h
  · rw [heq] at h
    exact ⟨decoded,hd,hdim,h⟩

theorem HasDimension.subset {updates updates' : List ClientDelta} {dim dim' : ℕ}
    (h : HasDimension updates dim) (h' : HasDimension updates' dim') (hsub : updates' ⊆ updates) :
    dim' = dim := by
  obtain ⟨u,hu⟩ := List.exists_mem_of_ne_nil _ h'.1
  obtain ⟨w,hw,rfl⟩ := h'.2 u hu
  obtain ⟨w',hw',rfl⟩ := h.2 u (hsub hu)
  rw [hw] at hw'
  cases hw'
  rfl

theorem length_of_mem_embed {updates : List ClientDelta} {decoded : List (List F32)}
    (h : decodeAndValidate updates = .ok decoded) :
    ∀ w ∈ (embed decoded : List (List ν)), w.length = (decoded.headD []).length := by
  obtain ⟨rfl,hall⟩ := decodeAndValidate_ok h
  intro w hw
  simp only [embed, List.mem_map, exists_exists_and_eq_and] at hw
  obtain ⟨u,hu,rfl⟩ := hw
  rw [List.length_map]
  exact (hall u hu).2.1

theorem length_headD_embed (decoded : List (List F32)) :
    ((embed decoded : List (List ν)).headD []).length = (decoded.headD []).length := by
  cases decoded with
  | nil => rfl
  | cons w decoded => simp [embed]

theorem length_foldl {α β : Type} {f : List α → β → List α} {dim : ℕ} {bs : List β}
    (hf : ∀ acc b, b ∈ bs → acc.length = dim → (f acc b).length = dim) {acc : List α}
    (hacc : acc.length = dim) : (bs.foldl f acc).length = dim := by
  induction bs generalizing acc with
  | nil => exact hacc
  | cons b bs ih =>
    exact ih (fun acc b' hb' => hf acc b' (List.mem_cons_of_mem b hb'))
      (hf acc b List.mem_cons_self hacc)

theorem length_addScaled {acc src : List ν} {dim : ℕ} (hacc : acc.length = dim)
    (hsrc : src.length = dim) (weight : ν) : (addScaled acc src weight).length = dim := by
  simp [addScaled, hacc, hsrc]

omit [Floating ν] in
theorem length_addScaledDifference {acc : List ω} {src reference : List ν} {dim : ℕ}
    (hacc : acc.length = dim) (hsrc : src.length = dim) (href : reference.length = dim)
    (scale : ω) : (addScaledDifference acc src reference scale).length = dim := by
  simp [addScaledDifference, hacc, hsrc, href]

@[simp] theorem length_zeros (dim : ℕ) : (zeros dim : List ν).length = dim :=
  List.length_replicate

theorem length_sharedMean {dim : ℕ} {rows : List (List ν)} (h : ∀ w ∈ rows, w.length = dim) :
    (sharedMean dim rows).length = dim :=
  length_foldl (fun _ w hw hacc => length_addScaled hacc (h w hw) _) (length_zeros dim)

theorem length_averageBySamples {updates : List ClientDelta} {decoded : List (List ν)}
    {dim : ℕ} {out : List ν} (hdim : (decoded.headD []).length = dim)
    (h : ∀ w ∈ decoded, w.length = dim)
    (hout : averageBySamples updates decoded = .ok out) : out.length = dim := by
  unfold averageBySamples at hout
  dsimp only at hout
  split_ifs at hout
  cases hout
  refine length_foldl (fun _ p hp hacc => ?_) (by rw [length_zeros, hdim])
  exact length_addScaled hacc (h p.2 (List.of_mem_zip hp).2) _

theorem hasDimension_fedAvgIn {updates : List ClientDelta} {out : List ν}
    (h : fedAvgIn updates = .ok out) : HasDimension updates out.length := by
  obtain ⟨decoded,hd,hdim,hout⟩ := onBatch_ok h
  rwa [length_averageBySamples (length_headD_embed decoded) (length_of_mem_embed hd) hout]

end Dimension
end ConfluxFL
