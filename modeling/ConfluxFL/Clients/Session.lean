import ConfluxFL.Client
import ConfluxFL.Lib.Run

/-! The `run` loops of the Rust and the Python SDK side by side, over one app and one course of
the server. The two read a task, train and check the result alike; they differ in the chunks
they build and in what they do about a refusal. -/
namespace ConfluxFL

/-- What both SDKs can build: the integers fit their fields, a control variate has the length of
the weights. -/
structure TrainResult.Buildable (result : TrainResult) : Prop where
  numSamples : result.numSamples < 2^64
  localSteps : ∀ n ∈ result.localSteps, n < 2^32
  controlVariate : ∀ v ∈ result.controlVariate, v.length = result.weights.length

/-- An app over a state of its own. -/
structure ClientApp (σ : Type) where
  onRoundStart : σ → ℕ → σ
  onControlVariate : σ → List F32 → σ
  train : σ → List F32 → ℕ → σ × TrainResult
  onRoundEnd : σ → ℕ → Bool → σ
  buildable : ∀ a weights round, (train a weights round).2.Buildable

/-- A stretch of time at the server: what a fetch is answered with, and how a submission ends,
`none` being a refusal. A round that closes and opens again under its number is two openings. -/
structure RoundOpening where
  task : TaskResponse
  answer : Option SubmitAck

/-- The round the server is on once an opening of `round` is over; after the last it stays. -/
def roundAfter (round : ℕ) : List RoundOpening → ℕ
  | [] => round
  | o::_ => o.task.round

/-- The openings, each with the round the server is on after it. -/
def visits : List RoundOpening → List (RoundOpening × ℕ)
  | [] => []
  | o::openings => (o,roundAfter o.task.round openings)::visits openings

inductive ClientError where
  | codec (e : WeightsCodecError)
  | shapeChanged (expected got : ℕ)
  deriving DecidableEq, Repr

/-- What a run does to its app and to the server: the callbacks, and the submissions taken. -/
inductive ClientCall where
  | roundStart (round : ℕ)
  | controlVariate (c : List F32)
  | train (weights : List F32) (round : ℕ)
  | submitted (chunks : List DeltaChunk) (ack : SubmitAck)
  | roundEnd (round : ℕ) (accepted : Bool)
  deriving DecidableEq

/-- Where a run stands: asking for a round it has not done, asking after a refusal, or out of
the loop. -/
inductive SessionPhase where
  | polling
  | refused (round : ℕ) (chunks : List DeltaChunk)
  | returned
  | failed (e : ClientError)
  deriving DecidableEq

/-- A run so far. `writtenOff` pairs each round given up after a refusal with the round the
server was on by then; nothing reads it. -/
structure Session (σ : Type) where
  app : σ
  phase : SessionPhase
  lastRound : Option ℕ
  completed : ℕ
  calls : List ClientCall
  writtenOff : List (ℕ × ℕ)

namespace Session
variable {σ : Type} (app : ClientApp σ) (config : RunConfig) (s : Session σ)

/-- The head of the outer loop. -/
def loopHead : Session σ :=
  { s with phase := if s.completed < config.rounds then .polling else .returned }

def start (a : σ) : Session σ := loopHead config ⟨a,.polling,none,0,[],[]⟩

def call (c : ClientCall) (a : σ) : Session σ := { s with app := a, calls := s.calls++[c] }

def startRound (round : ℕ) : Session σ :=
  s.call (.roundStart round) (app.onRoundStart s.app round)

def heedVariate (c : List F32) : Session σ :=
  s.call (.controlVariate c) (app.onControlVariate s.app c)

def endRound (round : ℕ) (accepted : Bool) : Session σ :=
  s.call (.roundEnd round accepted) (app.onRoundEnd s.app round accepted)

/-- Train, and check that the result has the shape of the model. -/
def trainWith (weights : List F32) (round : ℕ) : Session σ × Except ClientError TrainResult :=
  let (a,result) := app.train s.app weights round
  (s.call (.train weights round) a,
    if result.weights.length ≠ weights.length then
      .error (.shapeChanged weights.length result.weights.length)
    else .ok result)

/-- From a task to a result, as both loops do it. -/
def trainOn (task : TaskResponse) : Session σ × Except ClientError TrainResult :=
  match decodeWeights task.modelWeights with
  | .error e => (s,.error (.codec e))
  | .ok weights =>
    let s := s.startRound app task.round
    match task.controlVariate with
    | none => s.trainWith app weights task.round
    | some raw =>
      match decodeWeights raw with
      | .error e => (s,.error (.codec e))
      | .ok c => (s.heedVariate app c).trainWith app weights task.round

/-- A submission was taken. -/
def take (round : ℕ) (chunks : List DeltaChunk) (ack : SubmitAck) : Session σ :=
  let taken : Session σ := { s with
    lastRound := some round
    completed := s.completed+1
    calls := s.calls++[.submitted chunks ack] }
  loopHead config (taken.endRound app round ack.accepted)

/-- A refused round is given up, the server being on round `now`. -/
def writeOff (round now : ℕ) : Session σ :=
  let refused : Session σ := { s with
    lastRound := some round
    writtenOff := s.writtenOff++[(round,now)] }
  loopHead config (refused.endRound app round false)

/-- Submit what Rust's `build_chunks` gives. -/
def rustOffer (round : ℕ) (chunks : List DeltaChunk) : Option SubmitAck → Session σ
  | some ack => s.take app config round chunks ack
  | none => { s with phase := .refused round chunks }

/-- The body of Rust's outer loop. -/
def rustTop (o : RoundOpening) : Session σ :=
  match s.phase with
  | .polling =>
    if some o.task.round = s.lastRound then s
    else
      match s.trainOn app o.task with
      | (s,.error e) => { s with phase := .failed e }
      | (s,.ok result) => s.rustOffer app config o.task.round
          (buildChunks config.clientId o.task.round result config.chunkBytes) o.answer
  | _ => s

/-- Rust over one opening: after a refusal it asks which round the server is on, and offers the
same chunks again while that has not changed. -/
def rustStep (v : RoundOpening × ℕ) : Session σ :=
  match s.phase with
  | .refused round chunks =>
    if v.1.task.round ≠ round then
      (s.writeOff app config round v.1.task.round).rustTop app config v.1
    else s.rustOffer app config round chunks v.1.answer
  | _ => s.rustTop app config v.1

end Session

/-- One chunk as Python yields it. An empty control variate counts as none. -/
def pythonChunkAt (clientId : String) (round : ℕ) (result : TrainResult) (chunkBytes index : ℕ) :
    DeltaChunk :=
  let payload := encodeWeights result.weights
  let variate := (result.controlVariate.filter fun v => v ≠ []).map encodeWeights
  let step := max 4 (chunkBytes/4*4)
  let lo := index*step
  let hi := min ((index+1)*step) payload.length
  { clientId := clientId
    round := round
    chunkIndex := index
    totalChunks := max 1 ((payload.length+step-1)/step)
    data := slice payload lo hi
    numSamples := result.numSamples
    localSteps := result.localSteps
    controlVariate := variate.map fun v => slice v lo hi
    localLoss := result.localLoss }

/-- The chunks Python streams; a message that does not take the count ends the stream at its
first chunk. -/
def pythonChunks (clientId : String) (round : ℕ) (result : TrainResult) (chunkBytes : ℕ) :
    Option (List DeltaChunk) :=
  let payload := encodeWeights result.weights
  let step := max 4 (chunkBytes/4*4)
  let total := max 1 ((payload.length+step-1)/step)
  if total < 2^32 then
    some ((List.range total).map (pythonChunkAt clientId round result chunkBytes))
  else none

namespace Session
variable {σ : Type} (app : ClientApp σ) (config : RunConfig) (s : Session σ)

/-- Submit what Python's `_chunks` yields. A stream that breaks off is answered with an error, as
a refusal is; either way the round is given up. -/
def pythonOffer (round now : ℕ) (chunks : Option (List DeltaChunk)) (answer : Option SubmitAck) :
    Session σ :=
  match chunks,answer with
  | some chunks,some ack => s.take app config round chunks ack
  | _,_ => s.writeOff app config round now

/-- Python over one opening, the server being on `v.2` after it. -/
def pythonStep (v : RoundOpening × ℕ) : Session σ :=
  match s.phase with
  | .polling =>
    if some v.1.task.round = s.lastRound then s
    else
      match s.trainOn app v.1.task with
      | (s,.error e) => { s with phase := .failed e }
      | (s,.ok result) => s.pythonOffer app config v.1.task.round v.2
          (pythonChunks config.clientId v.1.task.round result config.chunkBytes) v.1.answer
  | _ => s

def rust (a : σ) (openings : List RoundOpening) : Session σ :=
  Run.after (rustStep app config) (start config a) (visits openings)

def python (a : σ) (openings : List RoundOpening) : Session σ :=
  Run.after (pythonStep app config) (start config a) (visits openings)

variable {app config s} {c : ClientState}

def clientPhase : SessionPhase → ClientPhase
  | .polling => .polling
  | .refused round chunks => .refused round chunks
  | .returned => .stopped
  | .failed _ => .stopped

def NotRefused (s : Session σ) : Prop := ∀ round chunks, s.phase ≠ .refused round chunks

theorem notRefused_loopHead : (loopHead config s).NotRefused := by
  intro round chunks
  unfold loopHead
  split_ifs <;> exact SessionPhase.noConfusion

theorem notRefused_take (round : ℕ) (chunks : List DeltaChunk) (ack : SubmitAck) :
    (s.take app config round chunks ack).NotRefused := notRefused_loopHead

theorem notRefused_writeOff (round now : ℕ) : (s.writeOff app config round now).NotRefused :=
  notRefused_loopHead

/-- A session of Rust is the client loop with its app beside it. -/
structure Matches (s : Session σ) (c : ClientState) : Prop where
  phase : c.phase = clientPhase s.phase
  lastRound : c.lastRound = s.lastRound
  completed : c.completed = s.completed

theorem clientPhase_loopHead : clientPhase (loopHead config s).phase =
    ClientState.loopHead config s.completed := by
  unfold loopHead ClientState.loopHead
  split_ifs <;> rfl

theorem matches_start (a : σ) : (start config a).Matches (ClientState.start config) :=
  ⟨(clientPhase_loopHead (s := ⟨a,.polling,none,0,[],[]⟩)).symm,rfl,rfl⟩

theorem matches_rustOffer (hl : c.lastRound = s.lastRound) (hc : c.completed = s.completed)
    {round : ℕ} {chunks : List DeltaChunk} (hp : c.phase = .submitting round chunks)
    (answer : Option SubmitAck) : (s.rustOffer app config round chunks answer).Matches
      (c.onSubmit config answer.isSome) := by
  unfold ClientState.onSubmit
  rw [hp]
  cases answer with
  | none => exact ⟨rfl,hl,hc⟩
  | some ack =>
    refine ⟨Eq.trans ?_ clientPhase_loopHead.symm,rfl,congrArg (·+1) hc⟩
    exact congrArg (fun n => ClientState.loopHead config (n+1)) hc

theorem Matches.writeOff (h : s.Matches c) (round now : ℕ) :
    (s.writeOff app config round now).Matches
      { c with lastRound := some round, phase := ClientState.loopHead config c.completed } :=
  ⟨(congrArg _ h.completed).trans clientPhase_loopHead.symm,rfl,h.completed⟩

theorem lastRound_trainOn (task : TaskResponse) :
    (s.trainOn app task).1.lastRound = s.lastRound ∧
      (s.trainOn app task).1.completed = s.completed := by
  unfold trainOn
  split
  · exact ⟨rfl,rfl⟩
  · split
    · exact ⟨rfl,rfl⟩
    · split <;> exact ⟨rfl,rfl⟩

/-- The body of the outer loop is the fetch and the submission of one opening. -/
theorem Matches.rustTop (h : s.Matches c) (hn : s.NotRefused) (o : RoundOpening) :
    ∃ trained, (s.rustTop app config o).Matches
      ((c.onTask config o.task.round trained).onSubmit config o.answer.isSome) := by
  unfold Session.rustTop
  split
  · rename_i hphase
    have hc : c.phase = .polling := h.phase.trans (congrArg _ hphase)
    split_ifs with hround
    · refine ⟨none,?_⟩
      rw [← h.lastRound] at hround
      simpa only [ClientState.onTask, ClientState.onSubmit, hc, if_pos hround] using h
    · rw [← h.lastRound] at hround
      obtain ⟨hl,hd⟩ := @lastRound_trainOn σ app s o.task
      cases ht : s.trainOn app o.task with
      | mk s' r =>
        rw [ht] at hl hd
        cases r with
        | error e =>
          refine ⟨none,?_⟩
          simp only [ClientState.onTask, ClientState.onSubmit, hc, if_neg hround]
          exact ⟨rfl,h.lastRound.trans hl.symm,h.completed.trans hd.symm⟩
        | ok result =>
          have hon : c.onTask config o.task.round (some result) = { c with
              phase := .submitting o.task.round
                (buildChunks config.clientId o.task.round result config.chunkBytes)
              trained := c.trained+1 } := by
            simp only [ClientState.onTask, hc, if_neg hround]
          refine ⟨some result,?_⟩
          rw [hon]
          refine matches_rustOffer ?_ ?_ rfl o.answer
          · exact h.lastRound.trans hl.symm
          · exact h.completed.trans hd.symm
  · rename_i hphase
    have hc : c.phase = .stopped := by
      rw [h.phase]
      cases hs : s.phase with
      | polling => exact (hphase hs).elim
      | refused round chunks => exact (hn round chunks hs).elim
      | _ => rfl
    refine ⟨none,?_⟩
    simpa only [ClientState.onTask, ClientState.onSubmit, hc] using h

/-- Over one opening Rust's session moves as the client loop does: a fetch after a refusal, the
fetch of the outer loop, and a submission, each where the loop is at it. -/
theorem Matches.rustStep (h : s.Matches c) (v : RoundOpening × ℕ) : ∃ asked trained,
    (s.rustStep app config v).Matches (((c.onTask config v.1.task.round asked).onTask config
      v.1.task.round trained).onSubmit config v.1.answer.isSome) := by
  unfold Session.rustStep
  split
  · rename_i round chunks hphase
    have hc : c.phase = .refused round chunks := h.phase.trans (congrArg _ hphase)
    refine ⟨none,?_⟩
    split_ifs with hround
    · have hon : c.onTask config v.1.task.round none = { c with
          lastRound := some round
          phase := ClientState.loopHead config c.completed } := by
        simp only [ClientState.onTask, hc, if_pos hround]
      rw [hon]
      exact (h.writeOff round v.1.task.round).rustTop (notRefused_writeOff round _) v.1
    · have hon : c.onTask config v.1.task.round none =
          { c with phase := .submitting round chunks } := by
        simp only [ClientState.onTask, hc, if_neg hround]
      refine ⟨none,?_⟩
      rw [hon, ClientState.onTask_of_submitting rfl]
      refine matches_rustOffer ?_ ?_ rfl v.1.answer
      · exact h.lastRound
      · exact h.completed
  · rename_i hn
    obtain ⟨trained,ht⟩ := @Matches.rustTop σ app config s c h hn v.1
    refine ⟨trained,trained,?_⟩
    rw [ClientState.onTask_onTask fun round chunks hc => ?_]
    · exact ht
    · have hphase := h.phase.symm.trans hc
      cases hs : s.phase <;> rw [hs] at hphase <;> cases hphase
      exact hn _ _ hs

end Session
end ConfluxFL
