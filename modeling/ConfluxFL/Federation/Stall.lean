import Mathlib.Data.Fintype.Basic
import ConfluxFL.Client
import ConfluxFL.Lib.Run

/-! A federation whose clients are tasks of one process, raced against a deadline. A run interleaves
what the clients do with what the caller waits for; the clients keep going between the deadline and
the list of those that are called unfinished, and that list is drawn from counters. -/
namespace ConfluxFL

/-- Where a client's task stands. An error and a panic both end it without a count. -/
inductive TaskStatus where
  | connecting
  | looping
  | returned
  | failed
  deriving DecidableEq, Repr

/-- A client's task with the counter its app is wrapped in. `givenUp` counts the submissions that
were written off after the server moved on, and is read by nothing. -/
structure ClientTask where
  status : TaskStatus
  loop : ClientState
  counter : ℕ
  givenUp : ℕ

inductive TaskEvent where
  | registered
  | unreachable
  | task (round : ℕ) (trained : Option TrainResult)
  | fetchError
  | submit (taken : Bool)

namespace ClientState

/-- Submissions this event counts as taken. -/
def takenBy (s : ClientState) : TaskEvent → ℕ
  | .submit true => match s.phase with
    | .submitting _ _ => 1
    | _ => 0
  | _ => 0

/-- Submissions it writes off: the server is on another round than the one refused. -/
def givenUpBy (s : ClientState) : TaskEvent → ℕ
  | .task round _ => match s.phase with
    | .refused round' _ => if round = round' then 0 else 1
    | _ => 0
  | _ => 0

def onEvent (config : RunConfig) (s : ClientState) : TaskEvent → ClientState
  | .task round trained => s.onTask config round trained
  | .fetchError => s.onFetchError
  | .submit taken => s.onSubmit config taken
  | _ => s

end ClientState

namespace ClientTask
variable (config : RunConfig)

/-- A loop that is left with all its rounds done returns, any other one ends in an error. -/
def statusOf (s : ClientState) : TaskStatus :=
  if s.phase ≠ .stopped then .looping
  else if s.completed < config.rounds then .failed else .returned

def spawned : ClientTask := ⟨.connecting,ClientState.start config,0,0⟩

/-- Both ends of a submission are reported to the app, and counted there. -/
def step (t : ClientTask) (e : TaskEvent) : ClientTask :=
  match t.status,e with
  | .connecting,.registered => { t with status := statusOf config t.loop }
  | .connecting,.unreachable => { t with status := .failed }
  | .looping,e =>
    ⟨statusOf config (t.loop.onEvent config e),t.loop.onEvent config e,
      t.counter+t.loop.takenBy e+t.loop.givenUpBy e,t.givenUp+t.loop.givenUpBy e⟩
  | _,_ => t

end ClientTask

structure ClientProgress where
  index : ℕ
  clientId : String
  roundsAttempted : ℕ
  roundsRequested : ℕ
  deriving DecidableEq, Repr

/-- What the caller of a federation of `n` clients asked for. -/
structure TaskFederation (n : ℕ) where
  clientId : Fin n → String
  rounds : ℕ
  chunkBytes : ℕ

/-- What the caller waits for, and how a run ends. `deadline` is what the tasks were when it
passed. -/
inductive RacePhase (n : ℕ) where
  | racing
  | expired (deadline : Fin n → ClientTask)
  | stalled (deadline : Fin n → ClientTask) (unfinished : List ClientProgress)
  | finished
  | clientError (index : Fin n)
  | roundLoopStopped

structure Race (n : ℕ) where
  clients : Fin n → ClientTask
  phase : RacePhase n

inductive RaceEvent (n : ℕ) where
  | client (i : Fin n) (e : TaskEvent)
  | collected
  | joinedError (i : Fin n)
  | serverGaveUp
  | expires
  | probed (failure : Bool)

namespace TaskFederation
variable {n : ℕ} (fed : TaskFederation n)

def clientConfig (i : Fin n) : RunConfig := ⟨fed.clientId i,fed.rounds,fed.chunkBytes⟩

def start : Race n := ⟨fun i => ClientTask.spawned (fed.clientConfig i),.racing⟩

/-- The clients whose counters have not reached the rounds asked for. -/
def unfinished (clients : Fin n → ClientTask) : List ClientProgress :=
  ((List.finRange n).map fun i =>
    ⟨i,fed.clientId i,(clients i).counter,fed.rounds⟩).filter fun p => p.roundsAttempted < fed.rounds

def moveClient (s : Race n) (i : Fin n) (e : TaskEvent) : Race n :=
  { s with clients := Function.update s.clients i ((s.clients i).step (fed.clientConfig i) e) }

/-- What happens next. Collecting is looked at before the clock, so the deadline passes only with
no error to report and some task not done; what the server says is asked for once more after it. -/
def step (s : Race n) : RaceEvent n → Race n
  | .client i e => match s.phase with
    | .racing | .expired _ => fed.moveClient s i e
    | _ => s
  | .collected => match s.phase with
    | .racing => if ∀ i, (s.clients i).status = .returned then { s with phase := .finished } else s
    | _ => s
  | .joinedError i => match s.phase with
    | .racing => if (s.clients i).status = .failed then { s with phase := .clientError i } else s
    | _ => s
  | .serverGaveUp => match s.phase with
    | .racing => { s with phase := .roundLoopStopped }
    | _ => s
  | .expires => match s.phase with
    | .racing =>
      if (∀ i, (s.clients i).status ≠ .failed) ∧ ∃ i, (s.clients i).status ≠ .returned then
        { s with phase := .expired s.clients }
      else s
    | _ => s
  | .probed failure => match s.phase with
    | .expired deadline => { s with phase :=
        if failure then .roundLoopStopped else .stalled deadline (fed.unfinished s.clients) }
    | _ => s

/-- A run is any order of these. -/
def after (es : List (RaceEvent n)) : Race n := Run.after fed.step fed.start es

/-- A stall names exactly the clients that had not returned by the deadline. -/
def NamesUnfinished (s : Race n) : Prop :=
  match s.phase with
  | .stalled deadline unfinished =>
    ∀ i : Fin n, (∃ p ∈ unfinished, p.index = i) ↔ (deadline i).status ≠ .returned
  | _ => True

/-- When a stall is reported, every client that had not returned by the deadline still has fewer
ended submissions, taken and given up together, than rounds to do. -/
def StillCounting (s : Race n) : Prop :=
  match s.phase with
  | .stalled deadline _ => ∀ i, (deadline i).status ≠ .returned →
    (s.clients i).loop.completed+(s.clients i).givenUp < fed.rounds
  | _ => True

end TaskFederation

namespace ClientState
variable {config : RunConfig} {s : ClientState}

/-- A loop that has not been left has rounds to do. -/
def Going (config : RunConfig) (s : ClientState) : Prop :=
  s.phase ≠ .stopped → s.completed < config.rounds

theorem going_loopHead (lastRound : Option ℕ) (completed trained : ℕ) :
    Going config ⟨loopHead config completed,lastRound,completed,trained⟩ := by
  intro h
  by_contra hdone
  exact h (if_neg hdone)

theorem going_of_phase (h : s.Going config) (hs : s.phase ≠ .stopped) (phase : ClientPhase)
    (lastRound : Option ℕ) (trained : ℕ) : Going config ⟨phase,lastRound,s.completed,trained⟩ :=
  fun _ => h hs

theorem Going.onEvent (h : s.Going config) (e : TaskEvent) : (s.onEvent config e).Going config := by
  obtain ⟨phase,lastRound,completed,trained⟩ := s
  cases e with
  | registered => exact h
  | unreachable => exact h
  | task round result =>
    cases phase with
    | polling =>
      simp only [ClientState.onEvent, onTask]
      split
      · exact h
      · cases result with
        | none => exact fun hs => absurd rfl hs
        | some result => exact going_of_phase h (by simp) _ _ _
    | submitting => exact h
    | refused round' chunks =>
      simp only [ClientState.onEvent, onTask]
      split
      · exact going_loopHead _ _ _
      · exact going_of_phase h (by simp) _ _ _
    | stopped => exact h
  | fetchError =>
    cases phase with
    | polling => exact fun hs => absurd rfl hs
    | submitting => exact h
    | refused => exact fun hs => absurd rfl hs
    | stopped => exact h
  | submit taken =>
    cases phase with
    | polling => exact h
    | submitting round chunks =>
      cases taken with
      | false => exact going_of_phase h (by simp) _ _ _
      | true => exact going_loopHead _ _ _
    | refused => exact h
    | stopped => exact h

/-- The loop counts what is taken, and only that. -/
theorem completed_onEvent (e : TaskEvent) :
    (s.onEvent config e).completed = s.completed+s.takenBy e := by
  cases e with
  | registered => rfl
  | unreachable => rfl
  | task round result =>
    simp only [onEvent, onTask, takenBy]
    split
    · split
      · rfl
      · split <;> rfl
    · split <;> rfl
    · rfl
  | fetchError =>
    simp only [onEvent, onFetchError, takenBy]
    split <;> rfl
  | submit taken =>
    simp only [onEvent, onSubmit, takenBy]
    split <;> cases taken <;> simp [*]

end ClientState

namespace ClientTask
variable {config : RunConfig} {t : ClientTask}

/-- What the counter of a task has seen. -/
structure Counting (config : RunConfig) (t : ClientTask) : Prop where
  counter_eq : t.counter = t.loop.completed+t.givenUp
  going : t.loop.Going config
  fresh : t.status = .connecting → t.loop = ClientState.start config
  looping : t.status = .looping → t.loop.phase ≠ .stopped
  returned : t.status = .returned → config.rounds ≤ t.loop.completed

theorem looping_of_statusOf {s : ClientState} (h : statusOf config s = .looping) :
    s.phase ≠ .stopped := by
  unfold statusOf at h
  split at h
  · assumption
  · split at h <;> simp at h

theorem returned_of_statusOf {s : ClientState} (h : statusOf config s = .returned) :
    config.rounds ≤ s.completed := by
  unfold statusOf at h
  split at h
  · simp at h
  · split at h
    · simp at h
    · omega

theorem statusOf_ne_connecting (s : ClientState) : statusOf config s ≠ .connecting := by
  unfold statusOf
  split
  · simp
  · split <;> simp

theorem counting_spawned : (spawned config).Counting config where
  counter_eq := rfl
  going := ClientState.going_loopHead none 0 0
  fresh _ := rfl
  looping := nofun
  returned := nofun

theorem step_cases (config : RunConfig) (t : ClientTask) (e : TaskEvent) :
    t.step config e = t ∨
    (t.status = .connecting ∧ (t.step config e = { t with status := statusOf config t.loop } ∨
      t.step config e = { t with status := .failed })) ∨
    (t.status = .looping ∧ t.step config e =
      ⟨statusOf config (t.loop.onEvent config e),t.loop.onEvent config e,
        t.counter+t.loop.takenBy e+t.loop.givenUpBy e,t.givenUp+t.loop.givenUpBy e⟩) := by
  obtain ⟨status,loop,counter,givenUp⟩ := t
  cases status with
  | connecting => cases e <;> simp [step]
  | looping => exact .inr (.inr ⟨rfl,rfl⟩)
  | returned => exact .inl rfl
  | failed => exact .inl rfl

/-- Every submission that ends is counted, in the loop or among those given up. -/
theorem Counting.step (h : t.Counting config) (e : TaskEvent) :
    (t.step config e).Counting config := by
  rcases step_cases config t e with heq | ⟨-,heq | heq⟩ | ⟨-,heq⟩
  · rwa [heq]
  · rw [heq]
    exact ⟨h.counter_eq,h.going,fun hs => absurd hs (statusOf_ne_connecting _),
      looping_of_statusOf,returned_of_statusOf⟩
  · rw [heq]
    exact ⟨h.counter_eq,h.going,nofun,nofun,nofun⟩
  · rw [heq]
    refine ⟨?_,h.going.onEvent e,fun hs => absurd hs (statusOf_ne_connecting _),
      looping_of_statusOf,returned_of_statusOf⟩
    have hcounter := h.counter_eq
    have hcompleted : (t.loop.onEvent config e).completed = _ := ClientState.completed_onEvent e
    dsimp only
    omega

theorem step_of_returned (h : t.status = .returned) (e : TaskEvent) : t.step config e = t := by
  rcases step_cases config t e with heq | ⟨hs,-⟩ | ⟨hs,-⟩
  · exact heq
  · simp [h] at hs
  · simp [h] at hs

/-- A task that has rounds to do and has not ended has fewer of them done. -/
theorem Counting.completed_lt (h : t.Counting config) (hrounds : 0 < config.rounds)
    (hfailed : t.status ≠ .failed) (hreturned : t.status ≠ .returned) :
    t.loop.completed < config.rounds := by
  cases hs : t.status with
  | connecting =>
    rw [h.fresh hs]
    exact hrounds
  | looping => exact h.going (h.looping hs)
  | returned => exact absurd hs hreturned
  | failed => exact absurd hs hfailed

end ClientTask

namespace TaskFederation
variable {n : ℕ} (fed : TaskFederation n)

/-- The deadline has passed, with the tasks as they were. -/
def Expired (s : Race n) (deadline : Fin n → ClientTask) : Prop :=
  s.phase = .expired deadline ∨ ∃ unfinished, s.phase = .stalled deadline unfinished

/-- What holds of a race at every moment. -/
structure Fair (s : Race n) : Prop where
  counting : ∀ i, (s.clients i).Counting (fed.clientConfig i)
  still_returned : ∀ deadline, Expired s deadline →
    ∀ i, (deadline i).status = .returned → (s.clients i).status = .returned
  none_failed : ∀ deadline, Expired s deadline → ∀ i, (deadline i).status ≠ .failed
  listed : ∀ deadline unfinished, s.phase = .stalled deadline unfinished →
    unfinished = fed.unfinished s.clients

variable {fed}

theorem fair_start : fed.Fair fed.start where
  counting _ := ClientTask.counting_spawned
  still_returned _ h := by simp [Expired, start] at h
  none_failed _ h := by simp [Expired, start] at h
  listed _ _ h := by simp [start] at h

theorem Fair.moveClient {s : Race n} (h : fed.Fair s) (hs : ∀ d u, s.phase ≠ .stalled d u)
    (i : Fin n) (e : TaskEvent) : fed.Fair (fed.moveClient s i e) where
  counting j := by
    rcases eq_or_ne j i with rfl | hne
    · simpa [TaskFederation.moveClient] using (h.counting j).step e
    · simpa [TaskFederation.moveClient, hne] using h.counting j
  still_returned d hd j hj := by
    have hreturned := h.still_returned d hd j hj
    rcases eq_or_ne j i with rfl | hne
    · simpa [TaskFederation.moveClient, ClientTask.step_of_returned hreturned] using hreturned
    · simpa [TaskFederation.moveClient, hne] using hreturned
  none_failed := h.none_failed
  listed d u hu := absurd hu (hs d u)

/-- A run that has ended in some other way is of no interest here. -/
theorem Fair.withPhase {s : Race n} (h : fed.Fair s) {phase : RacePhase n}
    (hexpired : ∀ d, ¬Expired ⟨s.clients,phase⟩ d) : fed.Fair { s with phase := phase } where
  counting := h.counting
  still_returned d hd := absurd hd (hexpired d)
  none_failed d hd := absurd hd (hexpired d)
  listed d u hu := absurd (.inr ⟨u,hu⟩) (hexpired d)

/-- The deadline passes: what the tasks are then is what is remembered of it. -/
theorem Fair.expired {s : Race n} (h : fed.Fair s) (hfailed : ∀ i, (s.clients i).status ≠ .failed) :
    fed.Fair { s with phase := .expired s.clients } := by
  have heq {d} (hd : Expired ⟨s.clients,.expired s.clients⟩ d) : s.clients = d := by
    rcases hd with hd | ⟨u,hu⟩
    · exact RacePhase.expired.inj hd
    · cases hu
  refine ⟨h.counting,fun d hd i hi => ?_,fun d hd => ?_,by simp⟩
  · rwa [heq hd]
  · rwa [← heq hd]

/-- The list is drawn up: it is remembered with the tasks of the deadline. -/
theorem Fair.stalled {s : Race n} (h : fed.Fair s) {deadline : Fin n → ClientTask}
    (hphase : s.phase = .expired deadline) :
    fed.Fair { s with phase := .stalled deadline (fed.unfinished s.clients) } := by
  have hbefore {d} (hd : Expired ⟨s.clients,.stalled deadline (fed.unfinished s.clients)⟩ d) :
      Expired s d := by
    rcases hd with hd | ⟨u,hu⟩
    · cases hd
    · obtain ⟨rfl,-⟩ := RacePhase.stalled.inj hu
      exact .inl hphase
  refine ⟨h.counting,fun d hd => h.still_returned d (hbefore hd),
    fun d hd => h.none_failed d (hbefore hd),fun d u hu => ?_⟩
  exact (RacePhase.stalled.inj hu).2.symm

theorem Fair.step {s : Race n} (h : fed.Fair s) (e : RaceEvent n) : fed.Fair (fed.step s e) := by
  cases e with
  | client i e =>
    simp only [TaskFederation.step]
    split
    · exact h.moveClient (by simp [*]) i e
    · exact h.moveClient (by simp [*]) i e
    · exact h
  | collected =>
    simp only [TaskFederation.step]
    split
    · split
      · exact h.withPhase (by simp [Expired])
      · exact h
    · exact h
  | joinedError i =>
    simp only [TaskFederation.step]
    split
    · split
      · exact h.withPhase (by simp [Expired])
      · exact h
    · exact h
  | serverGaveUp =>
    simp only [TaskFederation.step]
    split
    · exact h.withPhase (by simp [Expired])
    · exact h
  | expires =>
    simp only [TaskFederation.step]
    split
    · split
      · rename_i hclients
        exact h.expired hclients.1
      · exact h
    · exact h
  | probed failure =>
    simp only [TaskFederation.step]
    split
    · rename_i deadline hphase
      cases failure with
      | true => exact h.withPhase (by simp [Expired])
      | false => exact h.stalled hphase
    · exact h

variable (fed) in
theorem fair_after (es : List (RaceEvent n)) : fed.Fair (fed.after es) :=
  Run.after_of_kept fed.Fair fair_start fun _ e h => h.step e

/-- The list is drawn from the counters alone. -/
theorem exists_mem_unfinished_iff (clients : Fin n → ClientTask) (i : Fin n) :
    (∃ p ∈ fed.unfinished clients, p.index = i) ↔ (clients i).counter < fed.rounds := by
  simp only [unfinished, List.mem_filter, List.mem_map, List.mem_finRange, true_and]
  constructor
  · rintro ⟨p,⟨⟨j,rfl⟩,hcounter⟩,hj⟩
    obtain rfl := Fin.ext hj
    simpa using hcounter
  · intro hcounter
    exact ⟨_,⟨⟨i,rfl⟩,by simpa using hcounter⟩,rfl⟩

/-- A client that has returned is on no list: it has all its rounds taken. -/
theorem Fair.rounds_le_counter {s : Race n} (h : fed.Fair s) {i : Fin n}
    (hi : (s.clients i).status = .returned) : fed.rounds ≤ (s.clients i).counter := by
  have hrounds : fed.rounds ≤ (s.clients i).loop.completed := (h.counting i).returned hi
  have hcounter := (h.counting i).counter_eq
  omega

/-- In every run, a stall names exactly the unfinished clients when those all have submissions
left to end; one that has given rounds up runs out of them before its rounds are done. -/
theorem namesUnfinished_iff (es : List (RaceEvent n)) :
    NamesUnfinished (fed.after es) ↔ fed.StillCounting (fed.after es) := by
  have hfair := fair_after fed es
  unfold NamesUnfinished StillCounting
  split
  · rename_i deadline unfinished hphase
    obtain rfl := hfair.listed deadline unfinished hphase
    simp only [exists_mem_unfinished_iff, (hfair.counting _).counter_eq]
    constructor
    · exact fun h i hi => (h i).mpr hi
    · refine fun h i => ⟨fun hlt hreturned => ?_,h i⟩
      have hstill := hfair.still_returned deadline (.inr ⟨_,hphase⟩) i hreturned
      have hle := hfair.rounds_le_counter hstill
      rw [(hfair.counting i).counter_eq] at hle
      omega
  · rfl

/-- Where no submission was given up and no client moves between the deadline and the list, the
clients that have not returned do have some left. -/
theorem stillCounting_of_unmoved {es : List (RaceEvent n)} (hrounds : 0 < fed.rounds)
    (hgivenUp : ∀ i, ((fed.after es).clients i).givenUp = 0)
    (hunmoved : ∀ deadline, Expired (fed.after es) deadline → (fed.after es).clients = deadline) :
    fed.StillCounting (fed.after es) := by
  have hfair := fair_after fed es
  unfold StillCounting
  split
  · rename_i deadline unfinished hphase
    intro i hi
    have hexpired : Expired (fed.after es) deadline := .inr ⟨_,hphase⟩
    rw [hgivenUp i, add_zero]
    have hfailed := hfair.none_failed deadline hexpired i
    rw [← hunmoved deadline hexpired] at hi hfailed
    exact (hfair.counting i).completed_lt hrounds hfailed hi
  · trivial

/-- One client asked for one round: its submission is refused and the server moves on. It is still
looping at the deadline, and nobody is named. -/
theorem not_namesUnfinished_movedOn : ¬NamesUnfinished
    ((⟨fun _ => "client-0",1,4⟩ : TaskFederation 1).after
      [.client 0 .registered,.client 0 (.task 1 (some ⟨[],1,none,none,none⟩)),
        .client 0 (.submit false),.client 0 (.task 2 none),.expires,.probed false]) := by
  intro h
  obtain ⟨p,hp,-⟩ := (h 0).mpr (by decide)
  exact List.not_mem_nil hp

end TaskFederation
end ConfluxFL
