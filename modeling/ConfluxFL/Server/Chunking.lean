import ConfluxFL.Server.Dispatcher

/-! What the client cuts up and what the server puts together: the round trip of one training
result through its chunks in any order, and which lists of chunks the server takes. -/
namespace ConfluxFL
open StableSort

section RoundTrip
variable (clientId : String) (round : ℕ) (result : TrainResult) (chunkBytes : ℕ)

/-- The delta a training result stands for. -/
def TrainResult.delta : ClientDelta :=
  { clientId := clientId
    round := round
    weights := encodeWeights result.weights
    numSamples := result.numSamples
    localSteps := result.localSteps
    controlVariate := result.controlVariate.map encodeWeights
    localLoss := result.localLoss }

/-- The chunks are numbered from zero up to the total they announce, hold whole values, and
give the result back in whatever order they arrive. -/
structure RoundTrips : Prop where
  nonempty : buildChunks clientId round result chunkBytes ≠ []
  numbered : ∀ c ∈ buildChunks clientId round result chunkBytes,
    (buildChunks clientId round result chunkBytes).map DeltaChunk.chunkIndex =
      List.range c.totalChunks
  aligned : ∀ c ∈ buildChunks clientId round result chunkBytes,
    4 ∣ c.data.length ∧ ∀ v ∈ c.controlVariate, 4 ∣ v.length
  reassembled : ∀ arrived : List DeltaChunk,
    arrived.Perm (buildChunks clientId round result chunkBytes) →
      reassemble arrived = some (result.delta clientId round)

theorem length_slice (bytes : List UInt8) (lo hi : ℕ) :
    (slice bytes lo hi).length = min hi bytes.length-min lo bytes.length := by
  rw [slice, List.length_take, List.length_drop]
  omega

theorem dvd_chunkStep : 4 ∣ chunkStep chunkBytes := dvd_mul_left 4 _

/-- Cutting whole values at whole-value offsets leaves whole values. -/
theorem dvd_length_slice {bytes : List UInt8} {lo hi : ℕ} (hb : 4 ∣ bytes.length) (hlo : 4 ∣ lo)
    (hhi : 4 ∣ hi) : 4 ∣ (slice bytes lo hi).length := by
  rw [length_slice]
  omega

theorem aligned_chunkAt (index : ℕ) :
    4 ∣ (chunkAt clientId round result chunkBytes index).data.length ∧
      ∀ v ∈ (chunkAt clientId round result chunkBytes index).controlVariate, 4 ∣ v.length := by
  have hstep := dvd_chunkStep chunkBytes
  have hpay := dvd_length_encodeWeights result.weights
  have hlo : 4 ∣ index*chunkStep chunkBytes := hstep.mul_left _
  have hnext : 4 ∣ (index+1)*chunkStep chunkBytes := hstep.mul_left _
  have hhi : 4 ∣ min ((index+1)*chunkStep chunkBytes) (encodeWeights result.weights).length := by
    rcases min_choice ((index+1)*chunkStep chunkBytes) (encodeWeights result.weights).length with
      h | h
    · rwa [h]
    · rwa [h]
  refine ⟨dvd_length_slice hpay hlo hhi,fun v hv => ?_⟩
  simp only [chunkAt, Option.map_map, Option.mem_def, Option.map_eq_some_iff] at hv
  obtain ⟨u,_,rfl⟩ := hv
  exact dvd_length_slice (dvd_length_encodeWeights u) hlo hhi

variable {clientId round result chunkBytes}

theorem chunkIndex_buildChunks
    (h : chunkCount chunkBytes (encodeWeights result.weights).length ≤ 2^32) :
    (buildChunks clientId round result chunkBytes).map DeltaChunk.chunkIndex =
      List.range (chunkCount chunkBytes (encodeWeights result.weights).length) := by
  rw [buildChunks, List.map_map]
  refine (List.map_congr_left fun i hi => ?_).trans (List.map_id _)
  rw [List.mem_range] at hi
  exact Nat.mod_eq_of_lt (by omega)

/-- Every chunk carries the scalars, so it does not matter which one arrives first. -/
theorem reassemble_of_perm {arrived : List DeltaChunk}
    (hp : arrived.Perm (buildChunks clientId round result chunkBytes))
    (hcount : chunkCount chunkBytes (encodeWeights result.weights).length ≤ 2^32)
    (hv : ∀ v, result.controlVariate = some v → v.length = result.weights.length) :
    reassemble arrived = some (result.delta clientId round) := by
  have hsorted := buildChunks_sorted clientId round result chunkBytes hcount
  have hnodup : ((buildChunks clientId round result chunkBytes).map
      DeltaChunk.chunkIndex).Nodup := by
    rw [chunkIndex_buildChunks hcount]
    exact List.nodup_range
  have hsort := hsorted.sortBy_eq_of_perm hnodup hp
  cases arrived with
  | nil =>
    obtain ⟨rest,hrest⟩ := exists_buildChunks_eq clientId round result chunkBytes
    rw [hrest] at hp
    cases List.nil_perm.mp hp
  | cons first rest =>
    have hfirst := hp.mem_iff.mp (List.mem_cons_self : first ∈ first::rest)
    obtain ⟨index,_,rfl⟩ := List.mem_map.mp hfirst
    rw [reassemble, hsort, flatMap_data_buildChunks, gatherVariate_buildChunks clientId round result chunkBytes hv]
    rfl

theorem roundTrips_of_lt
    (hcount : chunkCount chunkBytes (encodeWeights result.weights).length < 2^32)
    (hv : ∀ v, result.controlVariate = some v → v.length = result.weights.length) :
    RoundTrips clientId round result chunkBytes where
  nonempty := by
    obtain ⟨rest,hrest⟩ := exists_buildChunks_eq clientId round result chunkBytes
    rw [hrest]
    exact List.cons_ne_nil _ _
  numbered := by
    intro c hc
    obtain ⟨index,_,rfl⟩ := List.mem_map.mp hc
    rw [chunkIndex_buildChunks hcount.le]
    exact congrArg List.range (Nat.mod_eq_of_lt hcount).symm
  aligned := by
    intro c hc
    obtain ⟨index,_,rfl⟩ := List.mem_map.mp hc
    exact aligned_chunkAt clientId round result chunkBytes index
  reassembled := fun _ hp => reassemble_of_perm hp hcount.le hv

/-- From 2^32 chunks on the 32-bit total is not the number of chunks. -/
theorem RoundTrips.chunkCount_lt (h : RoundTrips clientId round result chunkBytes) :
    chunkCount chunkBytes (encodeWeights result.weights).length < 2^32 := by
  obtain ⟨rest,hrest⟩ := exists_buildChunks_eq clientId round result chunkBytes
  have hmem : chunkAt clientId round result chunkBytes 0 ∈
      buildChunks clientId round result chunkBytes := by
    rw [hrest]
    exact List.mem_cons_self
  have hlen := congrArg List.length (h.numbered _ hmem)
  rw [List.length_map, List.length_range, buildChunks, List.length_map, List.length_range] at hlen
  rw [hlen]
  exact Nat.mod_lt _ (by decide)

end RoundTrip

/-- A result makes the round trip exactly when its number of chunks fits the 32-bit counters. -/
theorem roundTrips_iff (clientId : String) (round : ℕ) (result : TrainResult) (chunkBytes : ℕ)
    (hv : ∀ v, result.controlVariate = some v → v.length = result.weights.length) :
    RoundTrips clientId round result chunkBytes ↔
      chunkCount chunkBytes (encodeWeights result.weights).length < 2^32 :=
  ⟨fun h => h.chunkCount_lt,fun h => roundTrips_of_lt h hv⟩

theorem roundTrips_iff_pair :
    RoundTrips "c1" 1 ⟨[F32.one,F32.negZero],3,none,none,some [F32.zero,F32.one]⟩ 5 ↔
      chunkCount 5 (encodeWeights [F32.one,F32.negZero]).length < 2^32 :=
  roundTrips_iff "c1" 1 ⟨[F32.one,F32.negZero],3,none,none,some [F32.zero,F32.one]⟩ 5
    fun v hv => by cases hv; rfl

theorem not_roundTrips_of_le {clientId : String} {round : ℕ} {result : TrainResult} {n : ℕ}
    (hn : result.weights.length = n) (hle : 2^32 ≤ n) : ¬RoundTrips clientId round result 4 := by
  intro h
  have hlt := h.chunkCount_lt
  have hstep : chunkStep 4 = 4 := rfl
  rw [length_encodeWeights, hn, chunkCount, hstep] at hlt
  omega

/-- 2^32 weights in chunks of one weight each announce a total of zero chunks. -/
theorem not_roundTrips_wrapped :
    ¬RoundTrips "c1" 1 ⟨List.replicate (2^32) F32.zero,1,none,none,none⟩ 4 :=
  not_roundTrips_of_le List.length_replicate le_rfl

section Complete

/-- All the chunks of one submission, each once: same client, round and total, and the indices
up to that total. -/
def Complete (chunks : List DeltaChunk) : Prop :=
  ∃ clientId round total,
    (∀ c ∈ chunks, c.clientId = clientId ∧ c.round = round ∧ c.totalChunks = total) ∧
    (chunks.map DeltaChunk.chunkIndex).Perm (List.range total)

/-- The buffer is there, collects the round and has not been flushed. -/
def Accepting (buffer : Option (RoundBuffer ClientDelta)) (round : ℕ) : Prop :=
  ∃ b ∈ buffer, b.round = round ∧ ∃ deltas, b.state = .opened deltas

/-- The buffer once a submission was answered. -/
def bufferAfter (buffer : Option (RoundBuffer ClientDelta)) (chunks : List DeltaChunk) :
    Option (RoundBuffer ClientDelta) :=
  match submitDelta id buffer chunks with
  | .ok (_,b) => some b
  | .error _ => buffer

/-- Only complete submissions are staged, and any other is refused and leaves the buffer alone. -/
def TakesOnlyComplete (buffer : Option (RoundBuffer ClientDelta)) (chunks : List DeltaChunk) :
    Prop :=
  (∀ ack b, submitDelta id buffer chunks = .ok (ack,b) → Complete chunks) ∧
  (¬Complete chunks →
    (∃ e, submitDelta id buffer chunks = .error e) ∧ bufferAfter buffer chunks = buffer)

variable {buffer : Option (RoundBuffer ClientDelta)} {chunks : List DeltaChunk}

/-- A submission is staged exactly when the buffer takes the round of the chunk that arrived
first. -/
theorem submitDelta_ok_iff : (∃ ack b, submitDelta id buffer chunks = .ok (ack,b)) ↔
    ∃ first ∈ chunks.head?, Accepting buffer first.round := by
  cases chunks with
  | nil => simp [submitDelta, reassemble]
  | cons first rest =>
    simp only [List.head?_cons, Option.mem_def, Option.some.injEq, exists_eq_left']
    constructor
    · rintro ⟨ack,b',h⟩
      obtain ⟨delta,b,hdelta,hb,hpush⟩ := push_of_submitDelta h
      cases hdelta
      obtain ⟨hround,deltas,hopen,_⟩ := RoundBuffer.push_ok_iff.mp hpush
      exact ⟨b,hb,hround.symm,deltas,hopen⟩
    · rintro ⟨b,hb,hround,deltas,hopen⟩
      obtain ⟨delta,hdelta⟩ : ∃ delta, reassemble (first::rest) = some delta := ⟨_,rfl⟩
      have hd : delta.round = first.round := by
        cases hdelta
        rfl
      have hpush : b.push delta = .ok ⟨b.round,b.quorum,.opened (deltas++[delta])⟩ :=
        RoundBuffer.push_ok_iff.mpr ⟨hd.trans hround.symm,deltas,hopen,rfl⟩
      cases hb
      simp only [submitDelta, hdelta, id_eq, hpush]
      exact ⟨_,_,rfl⟩

theorem submitDelta_error_or_ok : (∃ e, submitDelta id buffer chunks = .error e) ∨
    ∃ ack b, submitDelta id buffer chunks = .ok (ack,b) := by
  cases h : submitDelta id buffer chunks with
  | error e => exact .inl ⟨e,rfl⟩
  | ok r => exact .inr ⟨r.1,r.2,rfl⟩

theorem bufferAfter_of_error {e : DispatchError} (h : submitDelta id buffer chunks = .error e) :
    bufferAfter buffer chunks = buffer := by
  rw [bufferAfter, h]

theorem complete_of_takesOnlyComplete (h : TakesOnlyComplete buffer chunks) {first : DeltaChunk}
    (hf : first ∈ chunks.head?) (ht : Accepting buffer first.round) : Complete chunks := by
  obtain ⟨ack,b,hok⟩ := submitDelta_ok_iff.mpr ⟨first,hf,ht⟩
  exact h.1 ack b hok

/-- Nothing is checked: a list is handled as it should be exactly when it is complete, or there
is no open buffer for the round its first chunk names. -/
theorem takesOnlyComplete_iff (buffer : Option (RoundBuffer ClientDelta))
    (chunks : List DeltaChunk) : TakesOnlyComplete buffer chunks ↔
      Complete chunks ∨ ∀ first ∈ chunks.head?, ¬Accepting buffer first.round := by
  constructor
  · intro h
    refine or_iff_not_imp_right.mpr fun hn => ?_
    push Not at hn
    obtain ⟨first,hf,ht⟩ := hn
    exact complete_of_takesOnlyComplete h hf ht
  · rintro (hc | hn)
    · exact ⟨fun _ _ _ => hc,fun hnc => absurd hc hnc⟩
    · have hno : ¬∃ ack b, submitDelta id buffer chunks = .ok (ack,b) := by
        rw [submitDelta_ok_iff]
        rintro ⟨first,hf,ht⟩
        exact hn first hf ht
      refine ⟨fun ack b h => absurd ⟨ack,b,h⟩ hno,fun _ => ?_⟩
      obtain ⟨e,he⟩ := submitDelta_error_or_ok.resolve_right hno
      exact ⟨⟨e,he⟩,bufferAfter_of_error he⟩

/-- The first of two chunks alone is staged. -/
theorem not_takesOnlyComplete_truncated :
    ¬TakesOnlyComplete (some (.new 1 1))
      [⟨"c1",1,0,2,encodeWeights [F32.one],1,none,none,none⟩] := by
  intro h
  obtain ⟨clientId,round,total,hall,hperm⟩ :=
    complete_of_takesOnlyComplete h rfl ⟨_,rfl,rfl,[],rfl⟩
  obtain ⟨_,_,rfl⟩ := hall _ List.mem_cons_self
  exact absurd hperm.length_eq (by decide)

end Complete
end ConfluxFL
