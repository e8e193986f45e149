import ConfluxFL.Node

/-! The node's transform against the server's reassembly: transforming a submission chunk by
chunk in transit is transforming the vector the server puts together. -/
namespace ConfluxFL
open StableSort

/-- A range of a byte string; nothing when it does not lie inside, where the code would stop. -/
def slice? (bytes : List UInt8) (lo hi : ℕ) : Option (List UInt8) :=
  if lo ≤ hi ∧ hi ≤ bytes.length then some ((bytes.drop lo).take (hi-lo)) else none

/-- Restoring the boundaries, offset by offset. -/
def resplitFrom (transformed : List UInt8) : ℕ → List DeltaChunk → Option (List DeltaChunk)
  | _,[] => some []
  | offset,c::chunks => do
    let data ← slice? transformed offset (offset+c.data.length)
    let rest ← resplitFrom transformed (offset+c.data.length) chunks
    return { c with data := data }::rest

/-- A chunk without its payload. -/
def DeltaChunk.shell (c : DeltaChunk) : DeltaChunk := { c with data := [] }

/-- The fields a submission repeats on every chunk. -/
def DeltaChunk.scalars (c : DeltaChunk) : String × ℕ × ℕ × Option ℕ × Option F32 :=
  (c.clientId,c.round,c.numSamples,c.localSteps,c.localLoss)

/-- All chunks carry the same scalars. -/
def ScalarsAgree (chunks : List DeltaChunk) : Prop :=
  ∀ c ∈ chunks, ∀ c' ∈ chunks, c.scalars = c'.scalars

section Resplit
variable {chunks : List DeltaChunk} {bytes : List UInt8}

/-- As long as the bytes last every range lies inside. -/
theorem resplitFrom_eq (offset : ℕ)
    (h : offset+(chunks.flatMap DeltaChunk.data).length ≤ bytes.length) :
    resplitFrom bytes offset chunks = some (resplit chunks (bytes.drop offset)) := by
  induction chunks generalizing offset with
  | nil => rfl
  | cons c chunks ih =>
    rw [List.flatMap_cons, List.length_append] at h
    have hin : offset ≤ offset+c.data.length ∧ offset+c.data.length ≤ bytes.length := by omega
    have hrest := ih (offset+c.data.length) (by omega)
    rw [resplitFrom, slice?, if_pos hin, hrest, resplit, List.drop_drop, Nat.add_sub_cancel_left]
    rfl

theorem map_shell_resplit (chunks : List DeltaChunk) (bytes : List UInt8) :
    (resplit chunks bytes).map DeltaChunk.shell = chunks.map DeltaChunk.shell := by
  induction chunks generalizing bytes with
  | nil => rfl
  | cons c chunks ih =>
    rw [resplit, List.map_cons, List.map_cons, ih]
    rfl

theorem map_length_resplit (h : (chunks.flatMap DeltaChunk.data).length ≤ bytes.length) :
    (resplit chunks bytes).map (fun c => c.data.length) = chunks.map fun c => c.data.length := by
  induction chunks generalizing bytes with
  | nil => rfl
  | cons c chunks ih =>
    rw [List.flatMap_cons, List.length_append] at h
    have hdrop : (chunks.flatMap DeltaChunk.data).length ≤ (bytes.drop c.data.length).length := by
      rw [List.length_drop]
      omega
    rw [resplit, List.map_cons, List.map_cons, ih hdrop, List.length_take_of_le (by omega)]

/-- What depends on everything but the payload is read from the shell. -/
theorem map_resplit {α : Type} (f : DeltaChunk → α) (hf : ∀ c, f c.shell = f c)
    (chunks : List DeltaChunk) (bytes : List UInt8) :
    (resplit chunks bytes).map f = chunks.map f := by
  have h := congrArg (List.map f) (map_shell_resplit chunks bytes)
  simpa only [List.map_map, Function.comp_def, hf] using h

end Resplit

section Reassembly
variable {chunks sorted : List DeltaChunk} {bytes : List UInt8}

theorem gatherVariate_congr {l m : List DeltaChunk}
    (h : l.map DeltaChunk.controlVariate = m.map DeltaChunk.controlVariate) :
    gatherVariate l = gatherVariate m := by
  unfold gatherVariate
  generalize (none : Option (List UInt8)) = acc
  induction l generalizing m acc with
  | nil => rw [List.map_eq_nil_iff.mp h.symm]
  | cons c l ih =>
    cases m with
    | nil => cases h
    | cons c' m =>
      obtain ⟨hc,hrest⟩ := List.cons_eq_cons.mp h
      rw [List.foldl_cons, List.foldl_cons, hc]
      exact ih hrest _

theorem sortedBy_resplit (hs : SortedBy DeltaChunk.chunkIndex sorted) (bytes : List UInt8) :
    SortedBy DeltaChunk.chunkIndex (resplit sorted bytes) := by
  have hindex := map_resplit DeltaChunk.chunkIndex (fun _ => rfl) sorted bytes
  rw [SortedBy, ← List.pairwise_map (f := DeltaChunk.chunkIndex) (R := (· ≤ ·))] at hs ⊢
  rwa [hindex]

/-- Reassembling re-split chunks gives the delta of the chunks, over the new bytes. -/
theorem reassemble_resplit (ha : ScalarsAgree chunks)
    (hlen : bytes.length =
      ((sortBy DeltaChunk.chunkIndex chunks).flatMap DeltaChunk.data).length) :
    reassemble (resplit (sortBy DeltaChunk.chunkIndex chunks) bytes) =
      (reassemble chunks).map fun d => { d with weights := bytes } := by
  cases chunks with
  | nil => rfl
  | cons first rest =>
    cases hsort : sortBy DeltaChunk.chunkIndex (first::rest) with
    | nil => exact absurd (mem_sortBy.mpr List.mem_cons_self) (hsort ▸ List.not_mem_nil)
    | cons least others =>
      have hsorted : SortedBy DeltaChunk.chunkIndex (least::others) := hsort ▸ sortBy_sorted
      have hmem : least ∈ first::rest := mem_sortBy.mp (hsort ▸ List.mem_cons_self)
      have hscalars : least.scalars = first.scalars := ha least hmem first List.mem_cons_self
      simp only [DeltaChunk.scalars, Prod.mk.injEq] at hscalars
      obtain ⟨hid,hround,hsamples,hsteps,hloss⟩ := hscalars
      have hvariate := gatherVariate_congr
        (map_resplit DeltaChunk.controlVariate (fun _ => rfl) (least::others) bytes)
      have hdata := flatMap_resplit (least::others) bytes (hsort ▸ hlen)
      have hresplit := sortedBy_resplit hsorted bytes
      rw [resplit] at hvariate hdata hresplit ⊢
      rw [reassemble_sorted hresplit, hvariate, hdata, reassemble, hsort]
      simp only [hid, hround, hsamples, hsteps, hloss, Option.map_some]

end Reassembly

section Commutes
variable (mechanism : GaussianClippingPrivacy) (noise : ℕ → F32) {chunks : List DeltaChunk}

/-- What the chunks hold in index order. -/
def concatenated (chunks : List DeltaChunk) : List UInt8 :=
  (sortBy DeltaChunk.chunkIndex chunks).flatMap DeltaChunk.data

theorem length_transformed {bytes : List UInt8} {weights : List F32}
    (h : decodeWeights bytes = .ok weights) :
    (encodeWeights (mechanism.transform noise weights)).length = bytes.length := by
  unfold decodeWeights at h
  split_ifs at h with hlen
  cases h
  rw [length_encodeWeights, mechanism.length_transform, ← length_encodeWeights,
    encodeWeights_words (Nat.dvd_of_mod_eq_zero hlen)]

theorem applyLocalPrivacy_ok {weights : List F32}
    (h : decodeWeights (concatenated chunks) = .ok weights) :
    applyLocalPrivacy (some mechanism) noise chunks = .ok (resplit
      (sortBy DeltaChunk.chunkIndex chunks)
      (encodeWeights (mechanism.transform noise weights))) := by
  simp only [concatenated] at h
  simp only [applyLocalPrivacy, h]

theorem applyLocalPrivacy_error {e : WeightsCodecError}
    (h : decodeWeights (concatenated chunks) = .error e) :
    applyLocalPrivacy (some mechanism) noise chunks = .error (.other
      ("client-side privacy transform could not decode this submission's weights: "++e.text)) := by
  simp only [concatenated] at h
  simp only [applyLocalPrivacy, h]

end Commutes
end ConfluxFL
