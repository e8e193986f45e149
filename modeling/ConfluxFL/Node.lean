import ConfluxFL.Privacy.Mechanism
import ConfluxFL.Server.Dispatcher

/-! The node between a client and the server: the transform it applies to a submission as a
whole, and one run of its bridge, which transforms once and then tries up to three times. -/
namespace ConfluxFL

/-- Give the chunks their share of the transformed bytes, at the original boundaries. -/
def resplit : List DeltaChunk → List UInt8 → List DeltaChunk
  | [],_ => []
  | c::chunks,bytes =>
    { c with data := bytes.take c.data.length }::resplit chunks (bytes.drop c.data.length)

/-- The local transform of one submission; `noise` are the draws it consumes. Without local
privacy the chunks are forwarded as they came. -/
def applyLocalPrivacy (privacy : Option GaussianClippingPrivacy) (noise : ℕ → F32)
    (chunks : List DeltaChunk) : Except DispatchError (List DeltaChunk) :=
  match privacy with
  | none => .ok chunks
  | some mechanism =>
    let sorted := StableSort.sortBy DeltaChunk.chunkIndex chunks
    match decodeWeights (sorted.flatMap DeltaChunk.data) with
    | .error e => .error (.other
        ("client-side privacy transform could not decode this submission's weights: "++e.text))
    | .ok weights => .ok (resplit sorted (encodeWeights (mechanism.transform noise weights)))

/-- The transform draws noise. -/
def drawsNoise : Option GaussianClippingPrivacy → Bool
  | none => false
  | some mechanism => mechanism.noisy

/-- How many draws the transform of one submission consumes: none when it does not decode. -/
def drawCount (privacy : Option GaussianClippingPrivacy) (chunks : List DeltaChunk) : ℕ :=
  match privacy with
  | none => 0
  | some mechanism =>
    match decodeWeights ((StableSort.sortBy DeltaChunk.chunkIndex chunks).flatMap
        DeltaChunk.data) with
    | .error _ => 0
    | .ok weights => mechanism.draws weights

theorem resplit_round {round : ℕ} {chunks : List DeltaChunk} (h : ForRound round chunks)
    (bytes : List UInt8) : ForRound round (resplit chunks bytes) := by
  induction chunks generalizing bytes with
  | nil =>
    intro c hc
    cases hc
  | cons c chunks ih =>
    intro c' hc'
    rcases List.mem_cons.mp hc' with rfl | hc'
    · exact h c List.mem_cons_self
    · exact ih (fun x hx => h x (List.mem_cons_of_mem c hx)) _ c' hc'

theorem applyLocalPrivacy_round {privacy : Option GaussianClippingPrivacy} {noise : ℕ → F32}
    {round : ℕ} {chunks noised : List DeltaChunk} (hr : ForRound round chunks)
    (h : applyLocalPrivacy privacy noise chunks = .ok noised) : ForRound round noised := by
  cases privacy with
  | none =>
    cases h
    exact hr
  | some mechanism =>
    simp only [applyLocalPrivacy] at h
    split at h
    · cases h
    · cases h
      apply resplit_round
      intro c hc
      exact hr c (StableSort.mem_sortBy.mp hc)

/-- Without a draw the transform is a function of the submission. -/
theorem applyLocalPrivacy_of_noiseless {privacy : Option GaussianClippingPrivacy}
    (h : drawsNoise privacy = false) (noise noise' : ℕ → F32) (chunks : List DeltaChunk) :
    applyLocalPrivacy privacy noise chunks = applyLocalPrivacy privacy noise' chunks := by
  cases privacy with
  | none => rfl
  | some mechanism =>
    unfold applyLocalPrivacy
    simp only [mechanism.transform_of_not_noisy h]

/-- What a submission is sent as depends on the draws it consumes, and on no others. -/
theorem applyLocalPrivacy_congr {privacy : Option GaussianClippingPrivacy} {noise noise' : ℕ → F32}
    {chunks : List DeltaChunk} (h : ∀ k < drawCount privacy chunks, noise k = noise' k) :
    applyLocalPrivacy privacy noise chunks = applyLocalPrivacy privacy noise' chunks := by
  cases privacy with
  | none => rfl
  | some mechanism =>
    unfold drawCount at h
    unfold applyLocalPrivacy
    cases hw : decodeWeights ((StableSort.sortBy DeltaChunk.chunkIndex chunks).flatMap
        DeltaChunk.data) with
    | error e => simp only [hw]
    | ok weights =>
      simp only [hw] at h ⊢
      rw [mechanism.transform_congr h]

/-- The bytes of re-split chunks are the bytes that were split. -/
theorem flatMap_resplit (chunks : List DeltaChunk) (bytes : List UInt8)
    (h : bytes.length = (chunks.flatMap DeltaChunk.data).length) :
    (resplit chunks bytes).flatMap DeltaChunk.data = bytes := by
  induction chunks generalizing bytes with
  | nil =>
    rw [List.flatMap_nil, List.length_nil, List.length_eq_zero_iff] at h
    rw [h]
    rfl
  | cons c chunks ih =>
    rw [List.flatMap_cons, List.length_append] at h
    rw [resplit, List.flatMap_cons, ih _ (by rw [List.length_drop]; omega), List.take_append_drop]

def maxAttempts : ℕ := 3

/-- What one run of the bridge is about: the client's `train`-th result, the chunks it was
handed and the chunks it sends. -/
structure Job (ι : Type) where
  owner : ι
  train : ℕ
  raw : List DeltaChunk
  chunks : List DeltaChunk
  deriving DecidableEq, Repr

/-- Where one run of the bridge stands: between attempts, waiting for the answer to a request,
or done. `ρ` is what an acceptance brings back. -/
inductive CallStatus (ρ : Type) where
  | ready (attempts : ℕ)
  | waiting (attempts request : ℕ)
  | answered (acceptance : Option ρ)
  deriving DecidableEq, Repr

/-- One run of `submit_delta` on the bridge. -/
structure BridgeCall (ι ρ : Type) extends Job ι where
  status : CallStatus ρ
  deriving DecidableEq, Repr

namespace BridgeCall
variable {ι ρ : Type} (call : BridgeCall ι ρ)

/-- The transform comes first; when it fails nothing is sent. -/
def submit (privacy : Option GaussianClippingPrivacy) (noise : ℕ → F32) (owner : ι) (train : ℕ)
    (raw : List DeltaChunk) : BridgeCall ι ρ :=
  match applyLocalPrivacy privacy noise raw with
  | .ok chunks => ⟨⟨owner,train,raw,chunks⟩,.ready 0⟩
  | .error _ => ⟨⟨owner,train,raw,[]⟩,.answered none⟩

/-- A run starts for what it was handed, and with no acceptance. -/
theorem submit_spec (ρ : Type) (privacy : Option GaussianClippingPrivacy) (noise : ℕ → F32) (owner : ι)
    (train : ℕ) (raw : List DeltaChunk) :
    ∃ chunks status, (submit privacy noise owner train raw : BridgeCall ι ρ) =
        ⟨⟨owner,train,raw,chunks⟩,status⟩ ∧
      (chunks = [] ∨ ∃ noise, applyLocalPrivacy privacy noise raw = .ok chunks) ∧
      (status = .ready 0 ∨ status = .answered none) := by
  unfold submit
  split
  · rename_i chunks h
    exact ⟨chunks,_,rfl,.inr ⟨noise,h⟩,.inl rfl⟩
  · exact ⟨[],_,rfl,.inl rfl,.inr rfl⟩

/-- Send the next attempt as `request`. -/
def onAttempt (request : ℕ) : BridgeCall ι ρ :=
  match call.status with
  | .ready attempts => { call with status := .waiting (attempts+1) request }
  | _ => call

/-- The attempt sent as `request` ended: an acceptance is passed on, an error uses the attempt
up. -/
def onResult (request : ℕ) (acceptance : Option ρ) : BridgeCall ι ρ :=
  match call.status with
  | .waiting attempts request' =>
    if request' ≠ request then call
    else
      match acceptance with
      | some r => { call with status := .answered (some r) }
      | none =>
        if attempts < maxAttempts then { call with status := .ready attempts }
        else { call with status := .answered none }
  | _ => call

@[simp] theorem toJob_onAttempt (request : ℕ) : (call.onAttempt request).toJob = call.toJob := by
  unfold onAttempt
  split <;> rfl

@[simp] theorem toJob_onResult (request : ℕ) (acceptance : Option ρ) :
    (call.onResult request acceptance).toJob = call.toJob := by
  unfold onResult
  split
  · split
    · rfl
    · split
      · rfl
      · split <;> rfl
  · rfl

variable {call}

theorem onResult_of_ne {attempts request request' : ℕ} {acceptance : Option ρ}
    (h : call.status = .waiting attempts request') (hne : request' ≠ request) :
    call.onResult request acceptance = call := by
  unfold onResult
  rw [h]
  exact if_pos hne

theorem onResult_of_answered {request : ℕ} {acceptance acceptance' : Option ρ}
    (h : call.status = .answered acceptance') : call.onResult request acceptance = call := by
  unfold onResult
  rw [h]

theorem onResult_some {attempts request : ℕ} {r : ρ} (h : call.status = .waiting attempts request) :
    (call.onResult request (some r)).status = .answered (some r) := by
  unfold onResult
  rw [h]
  simp

theorem onAttempt_of_answered {request : ℕ} {acceptance : Option ρ}
    (h : call.status = .answered acceptance) : call.onAttempt request = call := by
  unfold onAttempt
  rw [h]

end BridgeCall
end ConfluxFL
