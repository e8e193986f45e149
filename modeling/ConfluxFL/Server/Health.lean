import Mathlib.Data.List.DropRight
import ConfluxFL.Server.Restart
import ConfluxFL.Server.Verdict

/-! What a process says about itself while its round loop works: the cells behind `/health` and
the records behind `/rounds`. The loop stores cell by cell and a request reads cell by cell, with
anything in between. -/
namespace ConfluxFL
open Fallible
variable {κ : Type}

def AggregatorError.text : AggregatorError → String
  | .emptyBatch => "cannot aggregate an empty batch of updates"
  | .nonFiniteWeights clientId index =>
    s!"update {clientId} contains a non-finite weight (NaN or infinity) at index {index}"
  | .implausibleSampleCount clientId got max =>
    s!"update {clientId} reports {got} samples, which exceeds the largest "++
      s!"plausible count ({max}) — self-reported sample counts are "++
      "unauthenticated and this one cannot be real"
  | .mismatchedLength clientId expected got =>
    s!"update {clientId} has {got} weights, expected {expected} "++
      "(every update in a batch must have the same weight-vector length)"
  | .malformedWeights clientId len =>
    s!"update {clientId} has malformed weights: {len} bytes is not a multiple of 4"
  | .missingTrustedReference =>
    "no trusted reference was supplied for this round — a trusted-family aggregator "++
      "cannot run without one, and falling back to an unweighted mean would silently "++
      "replace the defense with the method it exists to replace"
  | .missingCandidateScores =>
    "zeno requires this round's candidate scores from the sidecar, and none were "++
      "injected — the round pipeline calls ScoreUpdates before aggregate when "++
      "requires_candidate_scores() is true"
  | .unscoredClient clientId =>
    s!"the sidecar returned no score for client {clientId} — an unscored candidate "++
      "cannot be ranked, and treating \"no score\" as any particular score would let "++
      "a sidecar silently include or exclude a client by omission"
  | .candidateScoresDimension expected got =>
    s!"the candidate scores were computed against a {got}-weight global model, but "++
      s!"this batch has {expected} weights per update — these scores describe a "++
      "different model"
  | .trustedReferenceDimension expected global reference =>
    s!"trusted reference does not fit this batch: batch has {expected} weights, "++
      s!"global model has {global}, reference has {reference}"
  | .zeroWeightSum => "batch weights sum to zero — cannot normalize"

def ServerError.text : ServerError → String
  | .budgetExhausted => "privacy budget exhausted for this experiment"
  | .preconditionViolated round method batch required excluded citation =>
    s!"round {round}: {method} would aggregate a batch of {batch}, but {citation} "++
      s!"(f = {excluded} here, so it needs {required}) — refusing to produce a result "++
      s!"outside the cited guarantee. Set CONFLUX_QUORUM to {required} or more so "++
      "rounds wait for a batch the citation covers."
  | .budgetExhaustedForClient clientId => s!"privacy budget exhausted for client {clientId}"
  | .registry e => e.text
  | .store e => e.text
  | .aggregator e => e.text
  | .trustedReferenceUnavailable round reason =>
    s!"no trusted reference available for round {round}: {reason}"

/-- What the round loop is doing, by increasing severity. -/
inductive RoundLoopState where
  | starting
  | running
  | degraded
  | stopped
  deriving DecidableEq, Repr

namespace RoundLoopState

def asU8 : RoundLoopState → ℕ
  | .starting => 0
  | .running => 1
  | .degraded => 2
  | .stopped => 3

def fromU8 : ℕ → RoundLoopState
  | 0 => .starting
  | 1 => .running
  | 2 => .degraded
  | _ => .stopped

def asStr : RoundLoopState → String
  | .starting => "starting"
  | .running => "running"
  | .degraded => "degraded"
  | .stopped => "stopped"

/-- A loop that retries is alive. -/
def isHealthy (s : RoundLoopState) : Bool := s ≠ .stopped

@[simp] theorem fromU8_asU8 (s : RoundLoopState) : fromU8 s.asU8 = s := by cases s <;> rfl

end RoundLoopState

/-- The cells, each of them atomic. -/
structure RoundLoopHealth where
  state : ℕ
  consecutiveFailures : ℕ
  lastCompletedRound : ℕ
  lastError : Option String
  deriving DecidableEq, Repr

/-- One store into one cell. -/
inductive HealthStore where
  | state (s : RoundLoopState)
  | noFailures
  | oneMoreFailure
  | completed (round : ℕ)
  | error (reason : Option String)
  deriving DecidableEq, Repr

namespace RoundLoopHealth

def new : RoundLoopHealth := ⟨RoundLoopState.starting.asU8,0,0,none⟩

def store (h : RoundLoopHealth) : HealthStore → RoundLoopHealth
  | .state s => { h with state := s.asU8 }
  | .noFailures => { h with consecutiveFailures := 0 }
  | .oneMoreFailure => { h with consecutiveFailures := (h.consecutiveFailures+1) % 2^32 }
  | .completed round => { h with lastCompletedRound := round }
  | .error reason => { h with lastError := reason }

def recordSuccess (round : ℕ) : List HealthStore :=
  [.state .running,.noFailures,.completed round,.error none]

def recordTransientFailure (error : String) : List HealthStore :=
  [.state .degraded,.error (some error),.oneMoreFailure]

def recordStopped (reason : Option String) : List HealthStore := [.state .stopped,.error reason]

end RoundLoopHealth

/-- Seconds to wait after so many failures in a row. -/
def backoffSecs (consecutiveFailures : ℕ) : ℕ := min (2 <<< min (consecutiveFailures-1) 8) 60

/-- One completed round, as it looked when it closed. -/
structure RoundRecord where
  round : ℕ
  completedAt : ℕ
  flushReason : String
  selected : ℕ
  submitted : ℕ
  passed : ℕ
  citedRequirementSatisfied : Option Bool
  deriving DecidableEq, Repr

def FlushReason.label : FlushReason → String
  | .quorum => "quorum"
  | .timeout => "timeout"

def RoundSummary.record (summary : RoundSummary) (now : ℕ) (cited : Option Bool) : RoundRecord :=
  ⟨summary.round,now,summary.flushReason.label,summary.numSelected,summary.numSubmitted,
    summary.numPassed,cited⟩

/-- The last completed rounds, the newest at the end. -/
structure RoundHistory where
  records : List RoundRecord
  capacity : ℕ

namespace RoundHistory

def new (capacity : ℕ) : RoundHistory := ⟨[],capacity⟩

/-- The oldest record makes room. A capacity of zero records nothing. -/
def record (h : RoundHistory) (r : RoundRecord) : RoundHistory :=
  if h.capacity = 0 then h
  else { h with records :=
    (if h.records.length = h.capacity then h.records.tail else h.records)++[r] }

def recent (h : RoundHistory) (limit : ℕ) : List RoundRecord := h.records.reverse.take limit

end RoundHistory

structure RoundsResponse where
  rounds : List RoundRecord
  held : ℕ
  capacity : ℕ

/-- `/rounds`: twenty unless the caller says how many, and no more than there can be. The records
are read first and their number after that, under a lock of its own each. -/
def roundsResponse (capacity : ℕ) (first second : RoundHistory) (limit : Option ℕ) :
    RoundsResponse :=
  ⟨first.recent (min (limit.getD 20) capacity),second.records.length,capacity⟩

structure HealthResponse where
  code : ℕ
  status : String
  roundLoop : String
  lastCompletedRound : ℕ
  consecutiveFailures : ℕ
  lastError : Option String
  deriving DecidableEq, Repr

/-- The answer from what each of the four reads found. -/
def healthResponse (state : RoundLoopState) (lastCompletedRound consecutiveFailures : ℕ)
    (lastError : Option String) : HealthResponse where
  code := if state.isHealthy then 200 else 503
  status := if state.isHealthy then "ok" else "unhealthy"
  roundLoop := state.asStr
  lastCompletedRound := lastCompletedRound
  consecutiveFailures := consecutiveFailures
  lastError := lastError

/-- A request for `/health` part way. -/
inductive HealthRead where
  | idle
  | gotState (state : RoundLoopState)
  | gotRound (state : RoundLoopState) (lastCompletedRound : ℕ)
  | gotFailures (state : RoundLoopState) (lastCompletedRound consecutiveFailures : ℕ)

/-- How a turn of the loop ends: with a completed round, with an error it retries, or for good. -/
inductive LoopOutcome where
  | completed (record : RoundRecord)
  | failed (e : ServerError)
  | stopped (reason : Option ServerError)
  deriving DecidableEq, Repr

/-- What the loop does once an outcome is written down. -/
inductive LoopTurn | again | backsOff | exits
  deriving DecidableEq, Repr

inductive ServePhase where
  | top
  | recording (stores : List HealthStore) (next : LoopTurn)
  | sleeping (secs : ℕ)
  | exited
  /-- The task of the loop unwound; nobody looks at its handle before the servers are down. -/
  | panicked
  | died

/-- The loop is over and the process lives. -/
def ServePhase.Over : ServePhase → Prop
  | .exited => True
  | .panicked => True
  | _ => False

namespace LoopOutcome

def stores : LoopOutcome → List HealthStore
  | .completed record => RoundLoopHealth.recordSuccess record.round
  | .failed e => RoundLoopHealth.recordTransientFailure e.text
  | .stopped reason => RoundLoopHealth.recordStopped (reason.map ServerError.text)

def next : LoopOutcome → LoopTurn
  | .completed _ => .again
  | .failed _ => .backsOff
  | .stopped _ => .exits

end LoopOutcome

/-- A serving process: its round loop, and its callers, each with a request under way. `outcomes`
lists how the turns of the loop ended and is read by nothing. -/
structure ServeTask (κ ι : Type) where
  server : Server κ
  phase : ServePhase
  shutdown : Bool
  health : RoundLoopHealth
  history : RoundHistory
  outcomes : List LoopOutcome
  requests : ι → HealthRead
  answers : ι → List HealthResponse

/-- `stores` is the next step of writing an outcome down, `reads` the next read of a request. -/
inductive ServeEvent (ι : Type) where
  | proceeds (env : RoundEnv) (now : ℕ)
  | stores
  | wakes
  | shutdown
  | reads (i : ι)

namespace ServeTask
variable {ι : Type}

/-- A process assembled over what the last one left. -/
def start (d : Deployment κ) (initialWeights : List F32) (left : Server κ) : ServeTask κ ι where
  server := assemble d initialWeights left
  phase := .top
  shutdown := false
  health := .new
  history := .new d.config.roundHistoryLen.value
  outcomes := []
  requests _ := .idle
  answers _ := []

/-- A turn has ended: what it came to is written down next. -/
def ends (s : ServeTask κ ι) (server : Server κ) (o : LoopOutcome) : ServeTask κ ι :=
  { s with
    server := server
    outcomes := s.outcomes++[o]
    phase := .recording o.stores o.next }

/-- One attempt at a round, which records itself in the history when it completes. A panic leaves
no record. -/
def attempt (d : Deployment κ) (s : ServeTask κ ι) (env : RoundEnv) (now : ℕ) : ServeTask κ ι :=
  match runRound d env s.server with
  | .ok summary server =>
    let record := summary.record now server.roundVerdict
    { s.ends server (.completed record) with history := s.history.record record }
  | .error (.err e) server =>
    if e.isTransient then s.ends server (.failed e) else s.ends server (.stopped (some e))
  | .error (.panic _) server => { s with server := server, phase := .panicked }
  | .error .crash server => { s with server := server, phase := .died }

/-- Shutdown is asked for between rounds only. -/
def onProceeds (d : Deployment κ) (s : ServeTask κ ι) (env : RoundEnv) (now : ℕ) : ServeTask κ ι :=
  match s.phase with
  | .top => if s.shutdown then s.ends s.server (.stopped none) else s.attempt d env now
  | _ => s

def onStores (s : ServeTask κ ι) : ServeTask κ ι :=
  match s.phase with
  | .recording (c::stores) next =>
    { s with health := s.health.store c, phase := .recording stores next }
  | .recording [] .again => { s with phase := .top }
  | .recording [] .backsOff => { s with phase := .sleeping (backoffSecs s.health.consecutiveFailures) }
  | .recording [] .exits => { s with phase := .exited }
  | _ => s

/-- A backoff ends after its seconds, or at a shutdown. -/
def onWakes (s : ServeTask κ ι) : ServeTask κ ι :=
  match s.phase with
  | .sleeping _ => { s with phase := .top }
  | _ => s

/-- The request of `i` goes on with what it has read so far. -/
def readsOn [DecidableEq ι] (s : ServeTask κ ι) (i : ι) (r : HealthRead) : ServeTask κ ι :=
  { s with requests := Function.update s.requests i r }

def answered [DecidableEq ι] (s : ServeTask κ ι) (i : ι) (a : HealthResponse) : ServeTask κ ι :=
  { s with answers := Function.update s.answers i (s.answers i++[a]) }

/-- The next read of a request. A dead process answers nobody. -/
def onReads [DecidableEq ι] (s : ServeTask κ ι) (i : ι) : ServeTask κ ι :=
  match s.phase with
  | .died => s
  | _ =>
    match s.requests i with
    | .idle => s.readsOn i (.gotState (.fromU8 s.health.state))
    | .gotState state => s.readsOn i (.gotRound state s.health.lastCompletedRound)
    | .gotRound state round => s.readsOn i (.gotFailures state round s.health.consecutiveFailures)
    | .gotFailures state round failures =>
      (s.readsOn i .idle).answered i (healthResponse state round failures s.health.lastError)

def step [DecidableEq ι] (d : Deployment κ) (s : ServeTask κ ι) : ServeEvent ι → ServeTask κ ι
  | .proceeds env now => s.onProceeds d env now
  | .stores => s.onStores
  | .wakes => s.onWakes
  | .shutdown => { s with shutdown := true }
  | .reads i => s.onReads i

end ServeTask

section Told

namespace LoopOutcome

def completedRound : LoopOutcome → Option ℕ
  | .completed record => some record.round
  | _ => none

def state : LoopOutcome → RoundLoopState
  | .completed _ => .running
  | .failed _ => .degraded
  | .stopped _ => .stopped

def error : LoopOutcome → Option String
  | .completed _ => none
  | .failed e => some e.text
  | .stopped reason => reason.map ServerError.text

def isFailed : LoopOutcome → Bool
  | .failed _ => true
  | _ => false

end LoopOutcome

def completedRounds (outcomes : List LoopOutcome) : List ℕ :=
  outcomes.filterMap LoopOutcome.completedRound

/-- The failed turns since the last completed round. -/
def failuresInARow (outcomes : List LoopOutcome) : ℕ :=
  (outcomes.rtakeWhile fun o => o.completedRound.isNone).countP LoopOutcome.isFailed

/-- What an operator should be told after these turns of the loop. -/
def told (outcomes : List LoopOutcome) : RoundLoopHealth where
  state := ((outcomes.getLast?.map LoopOutcome.state).getD .starting).asU8
  consecutiveFailures := failuresInARow outcomes % 2^32
  lastCompletedRound := (completedRounds outcomes).getLast?.getD 0
  lastError := outcomes.getLast?.bind LoopOutcome.error

variable {outcomes : List LoopOutcome} {o : LoopOutcome}

theorem completedRounds_snoc : completedRounds (outcomes++[o]) =
    completedRounds outcomes++o.completedRound.toList := by
  cases h : o.completedRound <;> simp [completedRounds, h]

theorem failuresInARow_snoc : failuresInARow (outcomes++[o]) =
    if o.completedRound.isSome then 0
    else failuresInARow outcomes+if o.isFailed then 1 else 0 := by
  unfold failuresInARow
  rw [List.rtakeWhile_concat]
  cases h : o.completedRound <;> simp [List.countP_append, List.countP_singleton]

/-- Writing an outcome down, store by store, ends with what an operator should be told. -/
theorem told_snoc : o.stores.foldl RoundLoopHealth.store (told outcomes) = told (outcomes++[o]) := by
  unfold told
  rw [completedRounds_snoc, failuresInARow_snoc]
  cases o with
  | completed record =>
    simp [LoopOutcome.stores, RoundLoopHealth.recordSuccess, RoundLoopHealth.store,
      LoopOutcome.completedRound, LoopOutcome.state, LoopOutcome.error]
  | failed e =>
    simp [LoopOutcome.stores, RoundLoopHealth.recordTransientFailure, RoundLoopHealth.store,
      LoopOutcome.completedRound, LoopOutcome.state, LoopOutcome.error, LoopOutcome.isFailed]
  | stopped reason =>
    simp [LoopOutcome.stores, RoundLoopHealth.recordStopped, RoundLoopHealth.store,
      LoopOutcome.completedRound, LoopOutcome.state, LoopOutcome.error, LoopOutcome.isFailed]

/-- A backoff doubles from two seconds and never passes a minute. -/
theorem backoffSecs_eq (k : ℕ) : backoffSecs (k+1) = min (2^(k+1)) 60 := by
  unfold backoffSecs
  rw [Nat.add_sub_cancel, Nat.shiftLeft_eq, ← pow_succ']
  rcases Nat.le_total k 8 with hk | hk
  · rw [min_eq_left hk]
  · have h512 : 2^9 ≤ 2^(k+1) := Nat.pow_le_pow_right (by omega) (by omega)
    rw [min_eq_right hk]
    omega

theorem backoffSecs_bounds (k : ℕ) : 2 ≤ backoffSecs k ∧ backoffSecs k ≤ 60 := by
  cases k with
  | zero => decide
  | succ k =>
    have h2 : 2^1 ≤ 2^(k+1) := Nat.pow_le_pow_right (by omega) (by omega)
    rw [backoffSecs_eq]
    omega

end Told

section Steps
variable {d : Deployment κ} {ι : Type} {s : ServeTask κ ι}

/-- What a turn of the loop can come to. -/
inductive Turn (d : Deployment κ) (s : ServeTask κ ι) : ServeTask κ ι → Prop
  | completes {env : RoundEnv} {summary : RoundSummary} {server : Server κ} (now : ℕ)
      (run : runRound d env s.server = .ok summary server) :
      Turn d s { s.ends server (.completed (summary.record now server.roundVerdict)) with
        history := s.history.record (summary.record now server.roundVerdict) }
  | fails {server : Server κ} {o : LoopOutcome} (round : server.round = s.server.round)
      (verdict : s.server.roundVerdict ≠ some false → server.roundVerdict ≠ some false)
      (incomplete : o.completedRound = none) : Turn d s (s.ends server o)
  | panics {server : Server κ} (round : server.round = s.server.round)
      (verdict : s.server.roundVerdict ≠ some false → server.roundVerdict ≠ some false) :
      Turn d s { s with server := server, phase := .panicked }
  | dies {server : Server κ} (round : server.round = s.server.round)
      (verdict : s.server.roundVerdict ≠ some false → server.roundVerdict ≠ some false) :
      Turn d s { s with server := server, phase := .died }

theorem runRound_verdict_ne_false (env : RoundEnv) {server : Server κ}
    (h : server.roundVerdict ≠ some false) :
    (stateOf (runRound d env server)).roundVerdict ≠ some false := by
  rw [(runRound_checked d env server).2]
  exact foldl_recordedVerdict_ne_false _ h

/-- An attempt that fails leaves the round where it was. -/
theorem runRound_error_round {env : RoundEnv} {server t : Server κ} {stop : Stop}
    (h : runRound d env server = .error stop t) : t.round = server.round := by
  have hattempt := runRound_attempt d env server
  rw [h] at hattempt
  cases hattempt with
  | stopped core => exact congrArg Core.round core
  | refused ready answer => exact congrArg Core.round (keeps_prepareBatch.ok ready)
  | unsaved ready answer save =>
    unfold WriteOutcome.run
    split <;> exact congrArg Core.round (keeps_prepareBatch.ok ready)
  | unrecorded ready answer save rows =>
    exact (congrArg Core.round (keeps_appendRows.error rows)).trans
      (congrArg Core.round (keeps_prepareBatch.ok ready))

theorem runRound_ok_round {env : RoundEnv} {server t : Server κ} {summary : RoundSummary}
    (h : runRound d env server = .ok summary t) :
    summary.round = server.round ∧ t.round = server.round+1 := by
  have hattempt := runRound_attempt d env server
  rw [h] at hattempt
  cases hattempt with
  | completed ready answer save rows =>
    have hround := (prepareBatch_ok ready).round
    exact ⟨hround,congrArg (· + 1) hround⟩

theorem attempt_turn (d : Deployment κ) (s : ServeTask κ ι) (env : RoundEnv) (now : ℕ) :
    Turn d s (s.attempt d env now) := by
  have hverdict := @runRound_verdict_ne_false _ d env s.server
  unfold ServeTask.attempt
  cases h : runRound d env s.server with
  | ok summary server => exact .completes now h
  | error stop server =>
    rw [h] at hverdict
    cases stop with
    | panic message => exact .panics (runRound_error_round h) hverdict
    | crash => exact .dies (runRound_error_round h) hverdict
    | err e =>
      dsimp only
      split
      · exact .fails (runRound_error_round h) hverdict rfl
      · exact .fails (runRound_error_round h) hverdict rfl

theorem onProceeds_turn (d : Deployment κ) (env : RoundEnv) (now : ℕ) (h : s.phase = .top) :
    Turn d s (s.onProceeds d env now) := by
  unfold ServeTask.onProceeds
  rw [h]
  dsimp only
  split
  · exact .fails rfl id rfl
  · exact attempt_turn d s env now

/-- Callers touch nothing but their own requests. -/
theorem onReads_frame [DecidableEq ι] {τ : Type} {f : ServeTask κ ι → τ}
    (hf : ∀ s requests answers, f { s with requests := requests, answers := answers } = f s)
    (i : ι) : f (s.onReads i) = f s := by
  unfold ServeTask.onReads
  split
  · rfl
  · split
    · exact hf s _ s.answers
    · exact hf s _ s.answers
    · exact hf s _ s.answers
    · exact hf s _ _

/-- Where the loop stands: what has been written of the outcomes so far, and that only the last
of them may have ended it. -/
inductive LoopStage : ServePhase → List LoopOutcome → RoundLoopHealth → Prop
  | top {outcomes : List LoopOutcome} (going : ∀ o ∈ outcomes, o.next ≠ .exits) :
      LoopStage .top outcomes (told outcomes)
  | recording {earlier : List LoopOutcome} {o : LoopOutcome} {done stores : List HealthStore}
      (going : ∀ o ∈ earlier, o.next ≠ .exits) (written : o.stores = done++stores) :
      LoopStage (.recording stores o.next) (earlier++[o])
        (done.foldl RoundLoopHealth.store (told earlier))
  | sleeping {earlier : List LoopOutcome} {o : LoopOutcome}
      (going : ∀ o ∈ earlier, o.next ≠ .exits) (backs : o.next = .backsOff) :
      LoopStage (.sleeping (backoffSecs (failuresInARow (earlier++[o]) % 2^32))) (earlier++[o])
        (told (earlier++[o]))
  | exited {earlier : List LoopOutcome} {o : LoopOutcome}
      (going : ∀ o ∈ earlier, o.next ≠ .exits) (exits : o.next = .exits) :
      LoopStage .exited (earlier++[o]) (told (earlier++[o]))
  | panicked {outcomes : List LoopOutcome} (going : ∀ o ∈ outcomes, o.next ≠ .exits) :
      LoopStage .panicked outcomes (told outcomes)
  | died {outcomes : List LoopOutcome} (going : ∀ o ∈ outcomes, o.next ≠ .exits) :
      LoopStage .died outcomes (told outcomes)

/-- The loop is where its outcomes say it is. -/
def ServeTask.Staged (s : ServeTask κ ι) : Prop := LoopStage s.phase s.outcomes s.health

theorem going_snoc {earlier : List LoopOutcome} {o : LoopOutcome}
    (going : ∀ o ∈ earlier, o.next ≠ .exits) (h : o.next ≠ .exits) :
    ∀ o' ∈ earlier++[o], o'.next ≠ .exits := by
  intro o' ho'
  rw [List.mem_append, List.mem_singleton] at ho'
  cases ho' with
  | inl hmem => exact going o' hmem
  | inr heq => rwa [heq]

theorem ServeTask.Staged.turn {t : ServeTask κ ι} (h : s.Staged) (htop : s.phase = .top)
    (hturn : Turn d s t) : t.Staged := by
  unfold ServeTask.Staged at h
  rw [htop] at h
  generalize houtcomes : s.outcomes = outcomes at h
  generalize hhealth : s.health = health at h
  cases h with
  | top going =>
    cases hturn with
    | completes now run =>
      unfold ServeTask.Staged ServeTask.ends
      rw [houtcomes, hhealth]
      exact @LoopStage.recording _ _ [] _ going rfl
    | fails round verdict incomplete =>
      unfold ServeTask.Staged ServeTask.ends
      rw [houtcomes, hhealth]
      exact @LoopStage.recording _ _ [] _ going rfl
    | panics round verdict =>
      unfold ServeTask.Staged
      rw [houtcomes, hhealth]
      exact .panicked going
    | dies round verdict =>
      unfold ServeTask.Staged
      rw [houtcomes, hhealth]
      exact .died going

theorem ServeTask.Staged.onStores (h : s.Staged) : s.onStores.Staged := by
  obtain ⟨server,phase,shutdown,health,history,outcomes,requests,answers⟩ := s
  unfold ServeTask.Staged at h
  dsimp only at h
  cases h with
  | top going => exact .top going
  | sleeping going backs => exact .sleeping going backs
  | exited going exits => exact .exited going exits
  | panicked going => exact .panicked going
  | died going => exact .died going
  | @recording earlier o done stores going written =>
    cases stores with
    | cons c stores =>
      have hone : ((done++[c]).foldl RoundLoopHealth.store (told earlier)) =
          (done.foldl RoundLoopHealth.store (told earlier)).store c := by
        rw [List.foldl_append, List.foldl_cons, List.foldl_nil]
      unfold ServeTask.onStores ServeTask.Staged
      dsimp only
      rw [← hone]
      exact .recording going (by rw [written, List.append_assoc, List.singleton_append])
    | nil =>
      rw [List.append_nil] at written
      rw [← written, told_snoc]
      unfold ServeTask.onStores ServeTask.Staged
      cases hnext : o.next with
      | again => exact .top (going_snoc going (by rw [hnext]; nofun))
      | backsOff => exact .sleeping going hnext
      | exits => exact .exited going hnext

theorem ServeTask.Staged.onWakes (h : s.Staged) : s.onWakes.Staged := by
  obtain ⟨server,phase,shutdown,health,history,outcomes,requests,answers⟩ := s
  unfold ServeTask.Staged at h
  dsimp only at h
  cases h with
  | top going => exact .top going
  | recording going written => exact .recording going written
  | sleeping going backs => exact .top (going_snoc going (by rw [backs]; nofun))
  | exited going exits => exact .exited going exits
  | panicked going => exact .panicked going
  | died going => exact .died going

/-- What a process has done so far and what it has on record. -/
def ServeTask.record (s : ServeTask κ ι) : Server κ × List LoopOutcome × RoundHistory :=
  (s.server,s.outcomes,s.history)

/-- What one event can do: a turn of the loop adds to the record, the loop goes on writing an
outcome down or wakes, or the loop is where it was. -/
inductive Move (d : Deployment κ) (s : ServeTask κ ι) : ServeTask κ ι → Prop
  | turns {t : ServeTask κ ι} (top : s.phase = .top) (turn : Turn d s t) : Move d s t
  | stores : Move d s s.onStores
  | wakes : Move d s s.onWakes
  | stays {t : ServeTask κ ι} (record : t.record = s.record) (phase : t.phase = s.phase)
      (health : t.health = s.health) : Move d s t

theorem step_move [DecidableEq ι] (d : Deployment κ) (s : ServeTask κ ι) (e : ServeEvent ι) :
    Move d s (s.step d e) := by
  cases e with
  | proceeds env now =>
    by_cases htop : s.phase = .top
    · exact .turns htop (onProceeds_turn d env now htop)
    · have hkept : s.onProceeds d env now = s := by
        unfold ServeTask.onProceeds
        split
        · contradiction
        · rfl
      rw [ServeTask.step, hkept]
      exact .stays rfl rfl rfl
  | stores => exact .stores
  | wakes => exact .wakes
  | shutdown => exact .stays rfl rfl rfl
  | reads i =>
    exact .stays (onReads_frame (fun _ _ _ => rfl) i)
      (onReads_frame (f := ServeTask.phase) (fun _ _ _ => rfl) i)
      (onReads_frame (f := ServeTask.health) (fun _ _ _ => rfl) i)

theorem ServeTask.onStores_record (s : ServeTask κ ι) : s.onStores.record = s.record := by
  unfold ServeTask.onStores
  split <;> rfl

theorem ServeTask.onWakes_record (s : ServeTask κ ι) : s.onWakes.record = s.record := by
  unfold ServeTask.onWakes
  split <;> rfl

theorem outcomes_of_record {t : ServeTask κ ι} (h : t.record = s.record) :
    t.outcomes = s.outcomes := congrArg (fun r => r.2.1) h

/-- Only a turn of the loop adds to the record. -/
theorem Move.record {t : ServeTask κ ι} (h : Move d s t) :
    (s.phase = .top ∧ Turn d s t) ∨ t.record = s.record := by
  cases h with
  | turns top turn => exact .inl ⟨top,turn⟩
  | stores => exact .inr s.onStores_record
  | wakes => exact .inr s.onWakes_record
  | stays record phase health => exact .inr record

theorem ServeTask.Staged.move {t : ServeTask κ ι} (h : s.Staged) (hmove : Move d s t) :
    t.Staged := by
  cases hmove with
  | turns top turn => exact h.turn top turn
  | stores => exact h.onStores
  | wakes => exact h.onWakes
  | stays record phase health =>
    rw [ServeTask.Staged, phase, health, outcomes_of_record record]
    exact h

theorem staged_start (d : Deployment κ) (initialWeights : List F32) (left : Server κ) :
    (ServeTask.start d initialWeights left : ServeTask κ ι).Staged := .top nofun

/-- Rounds complete one after the other, from the first. -/
def ServeTask.Counts (s : ServeTask κ ι) : Prop :=
  completedRounds s.outcomes = List.range' 1 (completedRounds s.outcomes).length ∧
    s.server.round = (completedRounds s.outcomes).length+1

theorem ServeTask.Counts.turn {t : ServeTask κ ι} (h : s.Counts) (hturn : Turn d s t) :
    t.Counts := by
  obtain ⟨hrounds,hround⟩ := h
  cases hturn with
  | @completes env summary server now run =>
    have hmoved := runRound_ok_round run
    have hsnoc : completedRounds (s.outcomes++[.completed (summary.record now
        server.roundVerdict)]) = completedRounds s.outcomes++[s.server.round] := by
      rw [completedRounds_snoc, LoopOutcome.completedRound, Option.toList_some, ← hmoved.1]
      rfl
    unfold ServeTask.Counts ServeTask.ends
    dsimp only
    rw [hsnoc, List.length_append, List.length_singleton, List.range'_concat, ← hrounds, hmoved.2,
      hround]
    exact ⟨by rw [Nat.mul_comm, Nat.mul_one, Nat.add_comm],rfl⟩
  | fails round verdict incomplete =>
    unfold ServeTask.Counts ServeTask.ends
    dsimp only
    rw [completedRounds_snoc, incomplete, Option.toList_none, List.append_nil, round]
    exact ⟨hrounds,hround⟩
  | panics round verdict => exact ⟨hrounds,round.trans hround⟩
  | dies round verdict => exact ⟨hrounds,round.trans hround⟩

theorem ServeTask.Counts.move {t : ServeTask κ ι} (h : s.Counts) (hmove : Move d s t) :
    t.Counts := by
  cases hmove.record with
  | inl hturn => exact h.turn hturn.2
  | inr hkept =>
    have hserver : t.server = s.server := congrArg Prod.fst hkept
    rw [ServeTask.Counts, hserver, outcomes_of_record hkept]
    exact h

theorem staged_counts_run [DecidableEq ι] (d : Deployment κ) (initialWeights : List F32)
    (left : Server κ) (events : List (ServeEvent ι)) :
    let s := Run.after (ServeTask.step d) (ServeTask.start d initialWeights left) events
    s.Staged ∧ s.Counts :=
  Run.after_of_kept (fun s : ServeTask κ ι => s.Staged ∧ s.Counts)
    ⟨staged_start d initialWeights left,rfl,rfl⟩
    fun s e h => ⟨h.1.move (step_move d s e),h.2.move (step_move d s e)⟩

/-- The cells behind `/health`, and the pace of the loop, follow from how its turns ended. -/
structure ServeTask.Honest (s : ServeTask κ ι) : Prop where
  settled : (∀ stores next, s.phase ≠ .recording stores next) → s.health = told s.outcomes
  between : ∀ stores next, s.phase = .recording stores next → ∃ earlier o done,
    s.outcomes = earlier++[o] ∧ o.stores = done++stores ∧
      s.health = done.foldl RoundLoopHealth.store (told earlier)
  pace : ∀ secs, s.phase = .sleeping secs → 2 ≤ secs ∧ secs ≤ 60 ∧
    (failuresInARow s.outcomes < 2^32 → secs = min (2^failuresInARow s.outcomes) 60)
  once : ∀ earlier o, s.outcomes = earlier++[o] → ∀ e ∈ earlier, e.next ≠ .exits
  exits : s.phase = .exited → ∃ reason, s.outcomes.getLast? = some (.stopped reason)
  silent : s.phase = .panicked → ∀ o ∈ s.outcomes, o.next ≠ .exits
  rounds : completedRounds s.outcomes = List.range' 1 (completedRounds s.outcomes).length

theorem LoopStage.once {phase : ServePhase} {outcomes earlier : List LoopOutcome} {o : LoopOutcome}
    {health : RoundLoopHealth} (h : LoopStage phase outcomes health)
    (hsnoc : outcomes = earlier++[o]) : ∀ e ∈ earlier, e.next ≠ .exits := by
  cases h with
  | top going => exact fun e he => going e (by simp [hsnoc, he])
  | recording going written =>
    obtain ⟨rfl,-⟩ := List.append_inj' hsnoc rfl
    exact going
  | sleeping going backs =>
    obtain ⟨rfl,-⟩ := List.append_inj' hsnoc rfl
    exact going
  | exited going exits =>
    obtain ⟨rfl,-⟩ := List.append_inj' hsnoc rfl
    exact going
  | panicked going => exact fun e he => going e (by simp [hsnoc, he])
  | died going => exact fun e he => going e (by simp [hsnoc, he])

theorem failuresInARow_backsOff {earlier : List LoopOutcome} {o : LoopOutcome}
    (h : o.next = .backsOff) :
    failuresInARow (earlier++[o]) = failuresInARow earlier+1 := by
  rw [failuresInARow_snoc]
  cases o with
  | completed record => cases h
  | failed e => rfl
  | stopped reason => cases h

theorem LoopStage.pace {secs : ℕ} {outcomes : List LoopOutcome} {health : RoundLoopHealth}
    (h : LoopStage (.sleeping secs) outcomes health) : 2 ≤ secs ∧ secs ≤ 60 ∧
      (failuresInARow outcomes < 2^32 → secs = min (2^failuresInARow outcomes) 60) := by
  cases h with
  | @sleeping earlier o going backs =>
    refine ⟨(backoffSecs_bounds _).1,(backoffSecs_bounds _).2,fun hlt => ?_⟩
    rw [Nat.mod_eq_of_lt hlt, failuresInARow_backsOff backs, backoffSecs_eq]

/-- In every run of a serving process, with its callers in between, `/health` reads cells that
say how the loop's turns ended, the loop paces itself by its failures since the last completed
round, rounds complete in order, and a loop that has ended stays ended. An attempt that panics
leaves the cells with the turn before it, none of which ended the loop. -/
theorem honest_run [DecidableEq ι] (d : Deployment κ) (initialWeights : List F32)
    (left : Server κ) (events : List (ServeEvent ι)) :
    (Run.after (ServeTask.step d) (ServeTask.start d initialWeights left) events).Honest := by
  have hinv := staged_counts_run d initialWeights left events
  generalize Run.after (ServeTask.step d) (ServeTask.start d initialWeights left) events = s at hinv
  obtain ⟨hstage,hrounds,-⟩ := hinv
  obtain ⟨server,phase,shutdown,health,history,outcomes,requests,answers⟩ := s
  unfold ServeTask.Staged at hstage
  dsimp only at hstage hrounds
  refine ⟨fun hp => ?_,fun stores next hp => ?_,fun secs hp => ?_,
    fun earlier o hsnoc => hstage.once hsnoc,fun hp => ?_,fun hp => ?_,hrounds⟩
  · cases hstage with
    | recording going written => exact absurd rfl (hp _ _)
    | top going => rfl
    | sleeping going backs => rfl
    | exited going exits => rfl
    | panicked going => rfl
    | died going => rfl
  · dsimp only at hp
    subst hp
    cases hstage with
    | recording going written => exact ⟨_,_,_,rfl,written,rfl⟩
  · dsimp only at hp
    subst hp
    exact hstage.pace
  · dsimp only at hp
    subst hp
    cases hstage with
    | @exited earlier o going exits =>
      cases o with
      | completed record => cases exits
      | failed e => cases exits
      | stopped reason => exact ⟨reason,List.getLast?_concat⟩
  · dsimp only at hp
    subst hp
    cases hstage with
    | panicked going => exact going

end Steps
end ConfluxFL
