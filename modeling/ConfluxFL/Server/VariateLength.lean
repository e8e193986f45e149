import ConfluxFL.Server.Chunking
import ConfluxFL.Server.Influence

/-! A control variate of another length than its weights. The client cuts it at the offsets of
the weights, so what arrives is never longer than they are: a short one stays short and is
skipped, a long one arrives cut to fit and is taken in. -/
namespace ConfluxFL
open StableSort

section Slices

/-- Clamping the upper end is cutting the bytes first. -/
theorem slice_take (bytes : List UInt8) (lo hi len : ℕ) :
    slice (bytes.take len) lo (min hi (bytes.take len).length) = slice bytes lo (min hi len) := by
  simp only [slice, List.length_take, List.drop_take, List.take_take]
  congr 1
  omega

variable (result : TrainResult) (chunkBytes : ℕ)

/-- Slices at the weights' offsets stop where the weights stop. -/
theorem flatMap_slices_payload (bytes : List UInt8) :
    ((List.range (chunkCount chunkBytes (encodeWeights result.weights).length)).flatMap fun i =>
      slice bytes (i*chunkStep chunkBytes)
        (min ((i+1)*chunkStep chunkBytes) (encodeWeights result.weights).length)) =
      bytes.take (encodeWeights result.weights).length := by
  simp only [← slice_take bytes]
  rw [flatMap_slices]
  apply List.take_of_length_le
  rw [List.length_take]
  exact (min_le_left _ _).trans (le_chunkCount_mul chunkBytes _)

end Slices

section Arrived
variable {clientId : String} {round : ℕ} {result : TrainResult} {chunkBytes : ℕ}
  {v : List F32} {arrived : List DeltaChunk} {d : ClientDelta}

/-- The slice of the control variate that a chunk carries. -/
def variateSlice (c : DeltaChunk) : List UInt8 := c.controlVariate.getD []

theorem controlVariate_chunkAt (hv : result.controlVariate = some v) (index : ℕ) :
    (chunkAt clientId round result chunkBytes index).controlVariate =
      some (slice (encodeWeights v) (index*chunkStep chunkBytes)
        (min ((index+1)*chunkStep chunkBytes) (encodeWeights result.weights).length)) := by
  simp [chunkAt, hv]

theorem variateSlice_of_mem (hv : result.controlVariate = some v) {c : DeltaChunk}
    (hc : c ∈ buildChunks clientId round result chunkBytes) :
    c.controlVariate = some (variateSlice c) ∧ 4 ∣ (variateSlice c).length := by
  obtain ⟨index,_,rfl⟩ := List.mem_map.mp hc
  have hs : (chunkAt clientId round result chunkBytes index).controlVariate = some _ :=
    controlVariate_chunkAt hv index
  refine ⟨by rw [variateSlice, hs]; rfl,?_⟩
  rw [variateSlice, hs]
  exact (aligned_chunkAt clientId round result chunkBytes index).2 _ hs

/-- The slices the client sends of its control variate are its first values, as many as there
are weights. -/
theorem words_variateSlices (hv : result.controlVariate = some v) :
    (buildChunks clientId round result chunkBytes).flatMap (fun c => words (variateSlice c)) =
      v.take result.weights.length := by
  have hslices : (buildChunks clientId round result chunkBytes).flatMap variateSlice =
      encodeWeights (v.take result.weights.length) := by
    rw [buildChunks, List.flatMap_map]
    simp only [variateSlice, controlVariate_chunkAt hv, Option.getD_some]
    rw [flatMap_slices_payload, length_encodeWeights, take_encodeWeights]
  rw [← words_flatMap _ fun c hc => (variateSlice_of_mem hv hc).2, hslices, words_encodeWeights]

/-- In any order of arrival the server gathers whole words, and they are those values. -/
theorem gathered_perm (hv : result.controlVariate = some v)
    (hp : arrived.Perm (buildChunks clientId round result chunkBytes))
    (hd : reassemble arrived = some d) :
    ∃ raw, d.controlVariate = some raw ∧ 4 ∣ raw.length ∧
      (words raw).Perm (v.take result.weights.length) := by
  cases arrived with
  | nil => cases hd
  | cons first rest =>
    cases hd
    have hsort : (sortBy DeltaChunk.chunkIndex (first::rest)).Perm
        (buildChunks clientId round result chunkBytes) := sortBy_perm.trans hp
    have hslice : ∀ c ∈ sortBy DeltaChunk.chunkIndex (first::rest),
        c.controlVariate = some (variateSlice c) ∧ 4 ∣ (variateSlice c).length :=
      fun c hc => variateSlice_of_mem hv (hsort.mem_iff.mp hc)
    have hne : sortBy DeltaChunk.chunkIndex (first::rest) ≠ [] :=
      List.ne_nil_of_mem (mem_sortBy.mpr List.mem_cons_self)
    refine ⟨(sortBy DeltaChunk.chunkIndex (first::rest)).flatMap variateSlice,?_,?_,?_⟩
    · exact foldl_variate _ variateSlice none (fun c hc => (hslice c hc).1) hne
    · rw [List.length_flatMap]
      refine List.dvd_sum fun n hn => ?_
      obtain ⟨c,hc,rfl⟩ := List.mem_map.mp hn
      exact (hslice c hc).2
    · rw [words_flatMap _ fun c hc => (hslice c hc).2, ← words_variateSlices hv]
      exact hsort.flatMap_right _

end Arrived

section Contribution
variable {dim : ℕ} {u : ClientDelta} {raw : List UInt8}

/-- A variate that decodes is skipped for its length or for a value that is not finite. -/
theorem usableVariate_eq_none_iff (hu : u.controlVariate = some raw) (hraw : 4 ∣ raw.length) :
    Scaffold.usableVariate dim u = none ↔
      (words raw).length ≠ dim ∨ ∃ x ∈ words raw, x.isFinite = false := by
  rw [Scaffold.usableVariate, hu]
  simp only [decodeWeights, if_pos (Nat.dvd_iff_mod_eq_zero.mp hraw), ite_eq_left_iff,
    reduceCtorEq, imp_false, not_not, List.any_eq_true, Bool.not_eq_true']

theorem usableVariate_eq_some (hu : u.controlVariate = some raw) (hraw : 4 ∣ raw.length)
    (h : Scaffold.usableVariate dim u ≠ none) :
    Scaffold.usableVariate dim u = some (words raw) := by
  have hno := mt (usableVariate_eq_none_iff hu hraw).mpr h
  rw [Scaffold.usableVariate, hu]
  simp only [decodeWeights, if_pos (Nat.dvd_iff_mod_eq_zero.mp hraw)]
  rw [if_neg]
  simpa only [List.any_eq_true, Bool.not_eq_true'] using hno

section Step
variable {ν ω : Type} [Floating ν] [Floating ω] [Precision ν ω]

/-- A skipped variate is as if it had not been sent, in any arithmetic. -/
theorem variateStep_of_skipped (h : Scaffold.usableVariate dim u = none) (numClients : ℕ)
    (before after : List ClientDelta) :
    (Scaffold.variateStep ν numClients (before++u::after) dim : List ω) =
      Scaffold.variateStep ν numClients (before++after) dim := by
  simp only [Scaffold.variateStep, List.filterMap_append, List.filterMap_cons_none h]

end Step

theorem euclid_map_eq_zero_iff {n : ℕ} {dc : List F32} (hdc : dc.length = n) :
    euclid n (dc.map F32.toReal) = 0 ↔ ∀ x ∈ dc, x.toReal = 0 := by
  constructor
  · intro h x hx
    rw [← euclid_zeros] at h
    have hz := eq_of_euclid_eq ((List.length_map _).trans hdc) (length_zeros n) h
    have hmem : x.toReal ∈ (zeros n : List ℝ) := hz ▸ List.mem_map_of_mem hx
    exact List.eq_of_mem_replicate hmem
  · intro h
    have hz : dc.map F32.toReal = zeros n :=
      List.eq_replicate_iff.mpr ⟨(List.length_map _).trans hdc,fun y hy => by
        obtain ⟨x,hx,rfl⟩ := List.mem_map.mp hy
        exact h x hx⟩
    rw [hz, euclid_zeros]

theorem variateSum_append (dim : ℕ) (before after : List ClientDelta) :
    variateSum dim (before++after) = variateSum dim before+variateSum dim after := by
  rw [variateSum, List.filterMap_append, List.map_append, List.sum_append]
  rfl

/-- In exact arithmetic a submission leaves every step alone when its own sum is zero. -/
theorem variateStep_unmoved_iff : (∀ numClients before after,
    Scaffold.variateStep ℝ numClients (before++u::after) dim =
      Scaffold.variateStep ℝ numClients (before++after) dim) ↔ variateSum dim [u] = 0 := by
  constructor
  · intro h
    have hone := congrArg (euclid dim) (h 1 [] [])
    rw [List.append_nil, List.nil_append, euclid_variateStep, euclid_variateStep] at hone
    simpa [Scaffold.population, variateSum] using hone
  · intro h numClients before after
    apply eq_of_euclid_eq (Scaffold.length_variateStep (ν := ℝ) _ _ _)
      (Scaffold.length_variateStep (ν := ℝ) _ _ _)
    rw [euclid_variateStep, euclid_variateStep, variateSum_append, variateSum_append,
      variateSum_cons, h, zero_add]

/-- What an arrived variate adds is nothing when it is skipped or zero throughout. -/
theorem variateSum_eq_zero_iff (hu : u.controlVariate = some raw) (hraw : 4 ∣ raw.length) :
    variateSum dim [u] = 0 ↔
      Scaffold.usableVariate dim u = none ∨ ∀ x ∈ words raw, x.toReal = 0 := by
  by_cases h : Scaffold.usableVariate dim u = none
  · simp [variateSum, h]
  · have hsome := usableVariate_eq_some hu hraw h
    have hlen := Scaffold.length_of_usableVariate hsome
    simp [variateSum, hsome, euclid_map_eq_zero_iff hlen]

end Contribution

/-- What becomes of the control variate of a submission, whatever weights stand in for its own:
it is skipped exactly when the shorter of the two lengths is not the model's, or a value that
arrives is not finite. Skipped, it moves nothing; taken in, it moves the step unless it is zero
throughout. -/
theorem variate_skipped_iff {result : TrainResult} {v : List F32}
    (hv : result.controlVariate = some v) (clientId : String) (round chunkBytes : ℕ)
    {arrived : List DeltaChunk}
    (hp : arrived.Perm (buildChunks clientId round result chunkBytes)) {s : Submission}
    (hs : reassemble arrived = some s.delta) (ws : List F32) (dim : ℕ) :
    (Scaffold.usableVariate dim (reencoded s ws) = none ↔
      min v.length result.weights.length ≠ dim ∨
        ∃ x ∈ v.take result.weights.length, x.isFinite = false) ∧
    (Scaffold.usableVariate dim (reencoded s ws) = none → ∀ numClients before after,
      Scaffold.variateStep F32 numClients (before++reencoded s ws::after) dim =
        Scaffold.variateStep F32 numClients (before++after) dim) ∧
    ((∀ numClients before after,
        Scaffold.variateStep ℝ numClients (before++reencoded s ws::after) dim =
          Scaffold.variateStep ℝ numClients (before++after) dim) ↔
      Scaffold.usableVariate dim (reencoded s ws) = none ∨
        ∀ x ∈ v.take result.weights.length, x.toReal = 0) := by
  obtain ⟨raw,hraw,hdvd,hperm⟩ := gathered_perm hv hp hs
  have hu : (reencoded s ws).controlVariate = some raw := hraw
  have hlen : (words raw).length = min v.length result.weights.length := by
    rw [hperm.length_eq, List.length_take, min_comm]
  refine ⟨?_,fun h => variateStep_of_skipped h,?_⟩
  · rw [usableVariate_eq_none_iff hu hdvd, hlen]
    simp only [hperm.mem_iff]
  · rw [variateStep_unmoved_iff, variateSum_eq_zero_iff hu hdvd]
    simp only [hperm.mem_iff]

/-- One weight and a control variate of two values. -/
def longVariate : TrainResult := ⟨[F32.one],1,none,none,some [F32.one,F32.one]⟩

/-- What the server makes of it. -/
def longSubmission : Submission :=
  ⟨⟨"c1",1,encodeWeights [F32.one],1,none,some (encodeWeights [F32.one]),none⟩,fun _ => F32.zero⟩

theorem reassemble_longVariate :
    reassemble (buildChunks "c1" 1 longVariate 4) = some longSubmission.delta := by decide

theorem variate_skipped_iff_long :
    Scaffold.usableVariate 1 (reencoded longSubmission [F32.one]) = none ↔
      min 2 1 ≠ 1 ∨ ∃ x ∈ [F32.one], x.isFinite = false :=
  (variate_skipped_iff (v := [F32.one,F32.one]) rfl "c1" 1 4 (.refl _) reassemble_longVariate
    [F32.one] 1).1

/-- Two values against one weight arrive as one, and the server's control variate moves to it
from where it would have stayed. -/
theorem long_variate_moves :
    reassemble (buildChunks "c1" 1 longVariate 4) = some longSubmission.delta ∧
    (scaffold F32.one 1).controlVariate ((scaffold F32.one 1).aggregate none ⟨none,none⟩
      [reencoded longSubmission [F32.one]]).2.1 = some [F32.one] ∧
    (scaffold F32.one 1).controlVariate ((scaffold F32.one 1).aggregate none ⟨none,none⟩
      [{ reencoded longSubmission [F32.one] with controlVariate := none }]).2.1 =
      some [F32.zero] :=
  ⟨reassemble_longVariate,by decide +kernel⟩

end ConfluxFL
