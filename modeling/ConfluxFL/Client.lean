import ConfluxFL.Proto

/-! The client: how one training result is cut into chunks, and the loop that polls for a round,
trains, and offers the same chunks for as long as the server stays on that round. -/
namespace ConfluxFL

structure TrainResult where
  weights : List F32
  numSamples : ℕ
  localSteps : Option ℕ
  localLoss : Option F32
  controlVariate : Option (List F32)

structure RunConfig where
  clientId : String
  rounds : ℕ
  chunkBytes : ℕ

/-- The bytes from `lo` up to `hi`, clamped to what there is. -/
def slice (bytes : List UInt8) (lo hi : ℕ) : List UInt8 :=
  (bytes.drop lo).take (min hi bytes.length-min lo bytes.length)

/-- A chunk size rounded down to whole values, and at least one. -/
def chunkStep (chunkBytes : ℕ) : ℕ := max chunkBytes 4/4*4

theorem chunkStep_pos (chunkBytes : ℕ) : 0 < chunkStep chunkBytes := by
  unfold chunkStep
  omega

/-- How many chunks a payload of `len` bytes is cut into. -/
def chunkCount (chunkBytes len : ℕ) : ℕ :=
  max ((len+chunkStep chunkBytes-1)/chunkStep chunkBytes) 1

/-- One chunk of a result. Weights and control variate are cut at the same offsets, the scalars
repeat on every chunk, and the counters are cast to 32 bits. -/
def chunkAt (clientId : String) (round : ℕ) (result : TrainResult) (chunkBytes index : ℕ) :
    DeltaChunk :=
  let payload := encodeWeights result.weights
  let lo := index*chunkStep chunkBytes
  let hi := min ((index+1)*chunkStep chunkBytes) payload.length
  { clientId := clientId
    round := round
    chunkIndex := index % 2^32
    totalChunks := chunkCount chunkBytes payload.length % 2^32
    data := slice payload lo hi
    numSamples := result.numSamples
    localSteps := result.localSteps
    controlVariate := (result.controlVariate.map encodeWeights).map fun v => slice v lo hi
    localLoss := result.localLoss }

def buildChunks (clientId : String) (round : ℕ) (result : TrainResult) (chunkBytes : ℕ) :
    List DeltaChunk :=
  (List.range (chunkCount chunkBytes (encodeWeights result.weights).length)).map
    (chunkAt clientId round result chunkBytes)

/-- Every chunk is for one round. -/
def ForRound (round : ℕ) (chunks : List DeltaChunk) : Prop := ∀ c ∈ chunks, c.round = round

theorem forRound_buildChunks (clientId : String) (round : ℕ) (result : TrainResult)
    (chunkBytes : ℕ) : ForRound round (buildChunks clientId round result chunkBytes) := by
  intro c hc
  obtain ⟨index,_,rfl⟩ := List.mem_map.mp hc
  rfl

/-- Where the loop stands: polling for a round it has not done, offering its chunks, asking
which round the server is on after a refusal, or out of the loop. -/
inductive ClientPhase where
  | polling
  | submitting (round : ℕ) (chunks : List DeltaChunk)
  | refused (round : ℕ) (chunks : List DeltaChunk)
  | stopped
  deriving DecidableEq, Repr

/-- The round and the chunks of the result in hand. -/
def ClientPhase.offer : ClientPhase → Option (ℕ × List DeltaChunk)
  | .submitting round chunks => some (round,chunks)
  | .refused round chunks => some (round,chunks)
  | _ => none

/-- `trained` counts the calls of `train` so far and is read by nothing. -/
structure ClientState where
  phase : ClientPhase
  lastRound : Option ℕ
  completed : ℕ
  trained : ℕ
  deriving DecidableEq, Repr

namespace ClientState
variable (config : RunConfig) (s : ClientState)

/-- The head of the outer loop. -/
def loopHead (completed : ℕ) : ClientPhase :=
  if completed < config.rounds then .polling else .stopped

def start : ClientState := ⟨loopHead config 0,none,0,0⟩

/-- A task arrives. While polling, a round that was done already is polled past; otherwise
`trained` is what training gives, or nothing when the run ends in an error there. After a
refusal only the round number matters. -/
def onTask (round : ℕ) (trained : Option TrainResult) : ClientState :=
  match s.phase with
  | .polling =>
    if some round = s.lastRound then s
    else
      match trained with
      | some result => { s with
          phase := .submitting round (buildChunks config.clientId round result config.chunkBytes)
          trained := s.trained+1 }
      | none => { s with phase := .stopped }
  | .refused round' chunks =>
    if round ≠ round' then { s with lastRound := some round', phase := loopHead config s.completed }
    else { s with phase := .submitting round' chunks }
  | _ => s

/-- A failed fetch ends the run. -/
def onFetchError : ClientState :=
  match s.phase with
  | .polling => { s with phase := .stopped }
  | .refused _ _ => { s with phase := .stopped }
  | _ => s

/-- The submission was answered: taken, or refused in one way or another. -/
def onSubmit (accepted : Bool) : ClientState :=
  match s.phase with
  | .submitting round chunks =>
    if accepted then { s with
      lastRound := some round
      completed := s.completed+1
      phase := loopHead config (s.completed+1) }
    else { s with phase := .refused round chunks }
  | _ => s

/-- No training in between: the result in hand is the same, or there is none any more. -/
def Continues (s t : ClientState) : Prop :=
  t.trained = s.trained ∧ (t.phase.offer = none ∨ t.phase.offer = s.phase.offer)

variable {config s}

theorem offer_loopHead (completed : ℕ) : (loopHead config completed).offer = none := by
  unfold loopHead
  split <;> rfl

theorem Continues.offer_eq_some {t : ClientState} (h : s.Continues t) {o : ℕ × List DeltaChunk}
    (ho : t.phase.offer = some o) : s.phase.offer = some o := by
  rcases h.2 with hnone | hsame
  · rw [hnone] at ho
    cases ho
  · rwa [← hsame]

theorem continues_onFetchError : s.Continues s.onFetchError := by
  unfold onFetchError
  split
  · exact ⟨rfl,.inl rfl⟩
  · exact ⟨rfl,.inl rfl⟩
  · exact ⟨rfl,.inr rfl⟩

theorem continues_onSubmit (accepted : Bool) : s.Continues (s.onSubmit config accepted) := by
  unfold onSubmit
  split
  · rename_i round chunks hphase
    split
    · exact ⟨rfl,.inl (offer_loopHead _)⟩
    · exact ⟨rfl,.inr (by rw [hphase]; rfl)⟩
  · exact ⟨rfl,.inr rfl⟩

/-- A task starts a training only for a client that polls. -/
theorem onTask_cases (config : RunConfig) (s : ClientState) (round : ℕ)
    (trained : Option TrainResult) :
    s.Continues (s.onTask config round trained) ∨ s.phase = .polling ∧ ∃ result,
      s.onTask config round trained = { s with
        phase := .submitting round (buildChunks config.clientId round result config.chunkBytes)
        trained := s.trained+1 } := by
  unfold onTask
  split
  · rename_i hphase
    split
    · exact .inl ⟨rfl,.inr rfl⟩
    · cases trained with
      | none => exact .inl ⟨rfl,.inl rfl⟩
      | some result => exact .inr ⟨hphase,result,rfl⟩
  · rename_i round' chunks hphase
    split
    · exact .inl ⟨rfl,.inl (offer_loopHead _)⟩
    · exact .inl ⟨rfl,.inr (by rw [hphase]; rfl)⟩
  · exact .inl ⟨rfl,.inr rfl⟩

theorem onTask_of_submitting {round round' : ℕ} {chunks : List DeltaChunk}
    {trained : Option TrainResult} (h : s.phase = .submitting round' chunks) :
    s.onTask config round trained = s := by
  unfold onTask
  rw [h]

/-- Without a refusal to ask about, a second fetch of one task changes nothing. -/
theorem onTask_onTask {round : ℕ} {trained : Option TrainResult}
    (h : ∀ round chunks, s.phase ≠ .refused round chunks) :
    (s.onTask config round trained).onTask config round trained =
      s.onTask config round trained := by
  cases hp : s.phase with
  | polling =>
    by_cases hround : some round = s.lastRound
    · simp only [onTask, hp, if_pos hround]
    · cases trained <;> simp only [onTask, hp, if_neg hround]
  | refused round' chunks => exact (h round' chunks hp).elim
  | submitting round' chunks => simp only [onTask, hp]
  | stopped => simp only [onTask, hp]

theorem onFetchError_of_submitting {round : ℕ} {chunks : List DeltaChunk}
    (h : s.phase = .submitting round chunks) : s.onFetchError = s := by
  unfold onFetchError
  rw [h]

end ClientState
end ConfluxFL
