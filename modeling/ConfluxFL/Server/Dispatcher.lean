import ConfluxFL.Lib.StableSort
import ConfluxFL.Buffer
import ConfluxFL.Client

/-! The server's answer to a submission: put the chunks together in index order and push the
delta into whatever buffer is current. -/
namespace ConfluxFL

instance : HasRound ClientDelta := ⟨ClientDelta.round⟩

/-- The control variates of the chunks that carry one, in order; none when none does. -/
def gatherVariate (chunks : List DeltaChunk) : Option (List UInt8) :=
  chunks.foldl (fun acc c =>
    match c.controlVariate with
    | some bytes => some (acc.getD []++bytes)
    | none => acc) none

/-- One delta from its chunks. The scalars are read from the chunk that arrived first. -/
def reassemble : List DeltaChunk → Option ClientDelta
  | [] => none
  | first::rest =>
    let sorted := StableSort.sortBy DeltaChunk.chunkIndex (first::rest)
    some
      { clientId := first.clientId
        round := first.round
        weights := sorted.flatMap DeltaChunk.data
        numSamples := first.numSamples
        localSteps := first.localSteps
        controlVariate := gatherVariate sorted
        localLoss := first.localLoss }

/-- Push the delta of a submission into the current buffer; `wrap` is what the buffer keeps of
a delta. -/
def submitDelta {δ : Type} [HasRound δ] (wrap : ClientDelta → δ) (buffer : Option (RoundBuffer δ))
    (chunks : List DeltaChunk) : Except DispatchError (SubmitAck × RoundBuffer δ) :=
  match reassemble chunks with
  | none => .error (.other "submit_delta called with zero chunks")
  | some delta =>
    match buffer with
    | none => .error (.other "no round is currently accepting submissions")
    | some b =>
      match b.push (wrap delta) with
      | .ok b' => .ok (⟨true,"accepted delta from "++delta.clientId++" for round "++
          toString delta.round⟩,b')
      | .error .closed => .error .roundClosed
      | .error (.wrongRound expected got) => .error (.other (BufferError.wrongRound expected got).text)

theorem push_of_submitDelta {δ : Type} [HasRound δ] {wrap : ClientDelta → δ}
    {buffer : Option (RoundBuffer δ)} {chunks : List DeltaChunk} {ack : SubmitAck}
    {b' : RoundBuffer δ} (h : submitDelta wrap buffer chunks = .ok (ack,b')) :
    ∃ delta b, reassemble chunks = some delta ∧ buffer = some b ∧ b.push (wrap delta) = .ok b' := by
  unfold submitDelta at h
  split at h
  · cases h
  · rename_i delta hdelta
    split at h
    · cases h
    · rename_i b
      split at h
      · rename_i b'' hpush
        cases h
        exact ⟨delta,b,hdelta,rfl,hpush⟩
      · cases h
      · cases h

theorem round_of_reassemble {chunks : List DeltaChunk} {delta : ClientDelta} {round : ℕ}
    (h : reassemble chunks = some delta) (hr : ForRound round chunks) : delta.round = round := by
  cases chunks with
  | nil => cases h
  | cons first rest =>
    cases h
    exact hr first List.mem_cons_self

section RoundTrip

theorem take_append_slice (bytes : List UInt8) (k step : ℕ) :
    bytes.take (k*step)++slice bytes (k*step) (min ((k+1)*step) bytes.length) =
      bytes.take ((k+1)*step) := by
  have hmul : (k+1)*step = k*step+step := Nat.succ_mul k step
  rw [hmul, List.take_add, slice]
  congr 1
  rw [List.take_eq_take_iff, List.length_drop]
  omega

/-- The slices of a byte string at consecutive offsets add up to it. -/
theorem flatMap_slices (bytes : List UInt8) (step total : ℕ) :
    ((List.range total).flatMap fun i => slice bytes (i*step) (min ((i+1)*step) bytes.length)) =
      bytes.take (total*step) := by
  induction total with
  | zero => simp
  | succ total ih =>
    rw [List.range_succ, List.flatMap_append, ih, List.flatMap_singleton, take_append_slice]

theorem foldl_variate (chunks : List DeltaChunk) (g : DeltaChunk → List UInt8)
    (acc : Option (List UInt8)) (h : ∀ c ∈ chunks, c.controlVariate = some (g c))
    (hne : chunks ≠ []) :
    chunks.foldl (fun acc c =>
      match c.controlVariate with
      | some bytes => some (acc.getD []++bytes)
      | none => acc) acc = some (acc.getD []++chunks.flatMap g) := by
  induction chunks generalizing acc with
  | nil => exact absurd rfl hne
  | cons c chunks ih =>
    rw [List.foldl_cons, h c List.mem_cons_self, List.flatMap_cons, ← List.append_assoc]
    by_cases hnil : chunks = []
    · subst hnil
      simp
    · exact ih _ (fun c' hc' => h c' (List.mem_cons_of_mem c hc')) hnil

theorem gatherVariate_none {chunks : List DeltaChunk}
    (h : ∀ c ∈ chunks, c.controlVariate = none) : gatherVariate chunks = none := by
  unfold gatherVariate
  induction chunks with
  | nil => rfl
  | cons c chunks ih =>
    rw [List.foldl_cons, h c List.mem_cons_self]
    exact ih fun c' hc' => h c' (List.mem_cons_of_mem c hc')

theorem le_chunkCount_mul (chunkBytes len : ℕ) :
    len ≤ chunkCount chunkBytes len*chunkStep chunkBytes := by
  have hpos := chunkStep_pos chunkBytes
  have hceil : len ≤ (len+chunkStep chunkBytes-1)/chunkStep chunkBytes*chunkStep chunkBytes := by
    have hdiv := Nat.div_add_mod (len+chunkStep chunkBytes-1) (chunkStep chunkBytes)
    have hmod := Nat.mod_lt (len+chunkStep chunkBytes-1) hpos
    rw [Nat.mul_comm] at hdiv
    omega
  exact hceil.trans (Nat.mul_le_mul_right _ (le_max_left _ _))

theorem reassemble_sorted {first : DeltaChunk} {rest : List DeltaChunk}
    (h : StableSort.SortedBy DeltaChunk.chunkIndex (first::rest)) : reassemble (first::rest) = some
      { clientId := first.clientId
        round := first.round
        weights := (first::rest).flatMap DeltaChunk.data
        numSamples := first.numSamples
        localSteps := first.localSteps
        controlVariate := gatherVariate (first::rest)
        localLoss := first.localLoss } := by
  rw [reassemble, h.sortBy_eq]

section Build
variable (clientId : String) (round : ℕ) (result : TrainResult) (chunkBytes : ℕ)

theorem buildChunks_sorted
    (hcount : chunkCount chunkBytes (encodeWeights result.weights).length ≤ 2^32) :
    StableSort.SortedBy DeltaChunk.chunkIndex (buildChunks clientId round result chunkBytes) := by
  rw [StableSort.SortedBy, buildChunks, List.pairwise_map]
  refine List.pairwise_lt_range.imp_of_mem fun {i j} hi hj hij => ?_
  rw [List.mem_range] at hi hj
  change i % 2^32 ≤ j % 2^32
  rw [Nat.mod_eq_of_lt (by omega), Nat.mod_eq_of_lt (by omega)]
  exact hij.le

theorem exists_buildChunks_eq : ∃ rest, buildChunks clientId round result chunkBytes =
    chunkAt clientId round result chunkBytes 0::rest := by
  have hpos : chunkCount chunkBytes (encodeWeights result.weights).length ≠ 0 := by
    have hone := le_max_right ((encodeWeights result.weights).length+chunkStep chunkBytes-1)
      1
    unfold chunkCount
    omega
  obtain ⟨n,hn⟩ := Nat.exists_eq_succ_of_ne_zero hpos
  rw [buildChunks, hn, List.range_succ_eq_map, List.map_cons]
  exact ⟨_,rfl⟩

/-- The slices the chunks carry of a vector as long as the payload add up to it. -/
theorem flatMap_buildChunks {bytes : List UInt8}
    (hlen : bytes.length = (encodeWeights result.weights).length) :
    ((List.range (chunkCount chunkBytes (encodeWeights result.weights).length)).flatMap fun i =>
      slice bytes (i*chunkStep chunkBytes)
        (min ((i+1)*chunkStep chunkBytes) (encodeWeights result.weights).length)) = bytes := by
  rw [← hlen, flatMap_slices, List.take_of_length_le (le_chunkCount_mul _ _)]

/-- Put one after the other, the chunks' payloads are the result's weights. -/
theorem flatMap_data_buildChunks :
    (buildChunks clientId round result chunkBytes).flatMap DeltaChunk.data =
      encodeWeights result.weights := by
  rw [buildChunks, List.flatMap_map]
  exact flatMap_buildChunks result chunkBytes rfl

theorem gatherVariate_buildChunks
    (hvariate : ∀ v, result.controlVariate = some v → v.length = result.weights.length) :
    gatherVariate (buildChunks clientId round result chunkBytes) =
      result.controlVariate.map encodeWeights := by
  cases hv : result.controlVariate with
  | none =>
    apply gatherVariate_none
    intro c hc
    obtain ⟨i,_,rfl⟩ := List.mem_map.mp hc
    simp [chunkAt, hv]
  | some v =>
    have hlen : (encodeWeights v).length = (encodeWeights result.weights).length := by
      rw [length_encodeWeights, length_encodeWeights, hvariate v hv]
    obtain ⟨rest,hrest⟩ := exists_buildChunks_eq clientId round result chunkBytes
    have hne : buildChunks clientId round result chunkBytes ≠ [] := by
      rw [hrest]
      exact List.cons_ne_nil _ _
    have hsome : ∀ c ∈ buildChunks clientId round result chunkBytes,
        c.controlVariate = some (c.controlVariate.getD []) := by
      intro c hc
      obtain ⟨i,_,rfl⟩ := List.mem_map.mp hc
      simp [chunkAt, hv]
    rw [gatherVariate, foldl_variate _ _ _ hsome hne, buildChunks, List.flatMap_map]
    simp only [chunkAt, hv, Option.map_some, Option.getD_some, Option.getD_none, List.nil_append]
    rw [flatMap_buildChunks result chunkBytes hlen]

/-- Below the 32-bit limit on chunk counters, what the client cuts up the server puts together:
the delta carries the result's own weights, control variate and scalars. -/
theorem reassemble_buildChunks
    (hcount : chunkCount chunkBytes (encodeWeights result.weights).length ≤ 2^32)
    (hvariate : ∀ v, result.controlVariate = some v → v.length = result.weights.length) :
    reassemble (buildChunks clientId round result chunkBytes) = some
      { clientId := clientId
        round := round
        weights := encodeWeights result.weights
        numSamples := result.numSamples
        localSteps := result.localSteps
        controlVariate := result.controlVariate.map encodeWeights
        localLoss := result.localLoss } := by
  have hsorted := buildChunks_sorted clientId round result chunkBytes hcount
  have hdata := flatMap_data_buildChunks clientId round result chunkBytes
  have hgather := gatherVariate_buildChunks clientId round result chunkBytes hvariate
  obtain ⟨rest,hrest⟩ := exists_buildChunks_eq clientId round result chunkBytes
  rw [hrest] at hsorted hdata hgather ⊢
  rw [reassemble_sorted hsorted, hdata, hgather]
  rfl

end Build
end RoundTrip
end ConfluxFL
