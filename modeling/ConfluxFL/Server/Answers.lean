import ConfluxFL.Server.BatchContent
import ConfluxFL.Server.Health

/-! What callers of `/health` and `/rounds` are told over a run. The reads of one request may find
cells of different moments; still no caller sees the last completed round go back, and a caller
once told that the loop has stopped is told so from then on, rightly. -/
namespace ConfluxFL
variable {κ ι : Type} {d : Deployment κ} {s t : ServeTask κ ι} {i : ι}

section Cells
variable {h : RoundLoopHealth} {outcomes earlier : List LoopOutcome} {o : LoopOutcome}
  {stores : List HealthStore} {c : HealthStore} {r : ℕ}

/-- The state cell says that the loop has stopped. -/
def RoundLoopHealth.Down (h : RoundLoopHealth) : Prop :=
  RoundLoopState.fromU8 h.state = .stopped

/-- How the cells may move between two moments: the last completed round never goes back, and
once the loop is down nothing but the error changes. -/
structure Advances (h h' : RoundLoopHealth) : Prop where
  rounds : h.lastCompletedRound ≤ h'.lastCompletedRound
  down : h.Down → h'.Down ∧ h'.lastCompletedRound = h.lastCompletedRound ∧
    h'.consecutiveFailures = h.consecutiveFailures

theorem Advances.refl (h : RoundLoopHealth) : Advances h h := ⟨le_rfl,fun hd => ⟨hd,rfl,rfl⟩⟩

theorem mem_stores_completed (hc : .completed r ∈ o.stores) : o.completedRound = some r := by
  cases o with
  | completed record =>
    simp only [LoopOutcome.stores, RoundLoopHealth.recordSuccess, List.mem_cons, List.not_mem_nil,
      reduceCtorEq, HealthStore.completed.injEq, or_false, false_or] at hc
    rw [LoopOutcome.completedRound, hc]
  | failed e =>
    simp [LoopOutcome.stores, RoundLoopHealth.recordTransientFailure] at hc
  | stopped reason => simp [LoopOutcome.stores, RoundLoopHealth.recordStopped] at hc

theorem mem_stores_stopped (hc : .state .stopped ∈ o.stores) : o.next = .exits := by
  cases o with
  | completed record =>
    simp [LoopOutcome.stores, RoundLoopHealth.recordSuccess] at hc
  | failed e =>
    simp [LoopOutcome.stores, RoundLoopHealth.recordTransientFailure] at hc
  | stopped reason => rfl

theorem foldl_store_rounds {bound : ℕ} (hle : h.lastCompletedRound ≤ bound)
    (hall : ∀ r, .completed r ∈ stores → r ≤ bound) :
    (stores.foldl RoundLoopHealth.store h).lastCompletedRound ≤ bound := by
  induction stores generalizing h with
  | nil => exact hle
  | cons c stores ih =>
    refine ih ?_ fun r hr => hall r (List.mem_cons_of_mem c hr)
    cases c with
    | completed r => exact hall r List.mem_cons_self
    | state s => exact hle
    | noFailures => exact hle
    | oneMoreFailure => exact hle
    | error reason => exact hle

theorem foldl_store_down (hdown : (stores.foldl RoundLoopHealth.store h).Down) :
    h.Down ∨ .state .stopped ∈ stores := by
  induction stores generalizing h with
  | nil => exact .inl hdown
  | cons c stores ih =>
    cases ih hdown with
    | inr hmem => exact .inr (List.mem_cons_of_mem c hmem)
    | inl hc =>
      cases c with
      | state s =>
        rw [RoundLoopHealth.Down, RoundLoopHealth.store, RoundLoopState.fromU8_asU8] at hc
        rw [hc]
        exact .inr List.mem_cons_self
      | completed r => exact .inl hc
      | noFailures => exact .inl hc
      | oneMoreFailure => exact .inl hc
      | error reason => exact .inl hc

theorem not_down_told (going : ∀ o ∈ outcomes, o.next ≠ .exits) : ¬(told outcomes).Down := by
  intro hdown
  cases hlast : outcomes.getLast? with
  | none =>
    rw [List.getLast?_eq_none_iff.mp hlast] at hdown
    cases hdown
  | some o =>
    have hstate : o.state = .stopped := by
      rw [RoundLoopHealth.Down, told, hlast] at hdown
      exact (RoundLoopState.fromU8_asU8 _).symm.trans hdown
    cases o with
    | completed record => cases hstate
    | failed e => cases hstate
    | stopped reason => exact going _ (List.mem_of_getLast? hlast) rfl

/-- A loop that counts its rounds from the first has completed as many as the last one says. -/
theorem told_lastCompletedRound {n : ℕ} (hn : completedRounds outcomes = List.range' 1 n) :
    (told outcomes).lastCompletedRound = n := by
  rw [told, hn]
  cases n with
  | zero => rfl
  | succ n =>
    simp [List.range'_concat, Nat.add_comm]

/-- Before its last turn a loop had not completed more, and a round its last turn completed is
the last one. -/
theorem completed_last {n : ℕ} (hn : completedRounds (earlier++[o]) = List.range' 1 n) :
    (told earlier).lastCompletedRound ≤ n ∧ ∀ r, o.completedRound = some r → r = n := by
  rw [completedRounds_snoc] at hn
  cases hr : o.completedRound with
  | none =>
    rw [hr, Option.toList_none, List.append_nil] at hn
    exact ⟨(told_lastCompletedRound hn).le,nofun⟩
  | some r =>
    rw [hr, Option.toList_some] at hn
    have hlen := congrArg List.length hn
    rw [List.length_append, List.length_singleton, List.length_range'] at hlen
    subst hlen
    rw [List.range'_concat] at hn
    obtain ⟨hinit,hlast⟩ := List.append_inj' hn rfl
    rw [told_lastCompletedRound hinit]
    refine ⟨Nat.le_succ _,fun r' hr' => ?_⟩
    have heq := List.singleton_inj.mp hlast
    cases hr'
    omega

/-- One store on the way to writing an outcome down. -/
theorem advances_store {done : List HealthStore} (hgoing : ∀ o ∈ earlier, o.next ≠ .exits)
    (hrounds : completedRounds (earlier++[o]) =
      List.range' 1 (completedRounds (earlier++[o])).length)
    (hwritten : o.stores = done++c::stores) :
    Advances (done.foldl RoundLoopHealth.store (told earlier))
      ((done.foldl RoundLoopHealth.store (told earlier)).store c) := by
  have hc : c ∈ o.stores := by simp [hwritten]
  have hdone : ∀ c' ∈ done, c' ∈ o.stores := fun c' hc' => by simp [hwritten, hc']
  constructor
  · cases c with
    | completed r =>
      obtain ⟨htold,hlast⟩ := completed_last hrounds
      refine foldl_store_rounds (htold.trans (hlast r (mem_stores_completed hc)).ge) ?_
      intro r' hr'
      exact ((hlast r' (mem_stores_completed (hdone _ hr'))).trans
        (hlast r (mem_stores_completed hc)).symm).le
    | state s => exact le_rfl
    | noFailures => exact le_rfl
    | oneMoreFailure => exact le_rfl
    | error reason => exact le_rfl
  · intro hdown
    have hexits : o.next = .exits := by
      cases foldl_store_down hdown with
      | inl htold => exact absurd htold (not_down_told hgoing)
      | inr hmem => exact mem_stores_stopped (hdone _ hmem)
    cases o with
    | completed record => cases hexits
    | failed e => cases hexits
    | stopped reason =>
      simp only [LoopOutcome.stores, RoundLoopHealth.recordStopped, List.mem_cons,
        List.not_mem_nil, or_false] at hc
      obtain rfl | rfl := hc
      · exact ⟨rfl,rfl,rfl⟩
      · exact ⟨hdown,rfl,rfl⟩

end Cells

section Loop

theorem Turn.health (h : Turn d s t) : t.health = s.health := by cases h <;> rfl

theorem ServeTask.advances_onStores (hs : s.Staged) (hc : s.Counts) :
    Advances s.health s.onStores.health := by
  obtain ⟨server,phase,shutdown,health,history,outcomes,requests,answers⟩ := s
  unfold ServeTask.Staged at hs
  dsimp only at hs
  cases hs with
  | top going => exact .refl _
  | sleeping going backs => exact .refl _
  | exited going exits => exact .refl _
  | panicked going => exact .refl _
  | died going => exact .refl _
  | @recording earlier o done stores going written =>
    cases stores with
    | cons c stores => exact advances_store going hc.1 written
    | nil =>
      unfold ServeTask.onStores
      cases o.next <;> exact .refl _

theorem Move.advances (hs : s.Staged) (hc : s.Counts) (h : Move d s t) :
    Advances s.health t.health := by
  cases h with
  | turns top turn =>
    rw [turn.health]
    exact .refl _
  | stores => exact ServeTask.advances_onStores hs hc
  | wakes =>
    unfold ServeTask.onWakes
    split <;> exact .refl _
  | stays record phase health =>
    rw [health]
    exact .refl _

theorem ServeTask.Staged.rounds_le (hs : s.Staged) (hc : s.Counts) :
    s.health.lastCompletedRound ≤ (completedRounds s.outcomes).length := by
  obtain ⟨server,phase,shutdown,health,history,outcomes,requests,answers⟩ := s
  unfold ServeTask.Staged at hs
  replace hc := hc.1
  dsimp only at hs hc ⊢
  have htold := (told_lastCompletedRound hc).le
  cases hs with
  | top going => exact htold
  | sleeping going backs => exact htold
  | exited going exits => exact htold
  | panicked going => exact htold
  | died going => exact htold
  | @recording earlier o done stores going written =>
    obtain ⟨hearlier,hlast⟩ := completed_last hc
    refine foldl_store_rounds hearlier fun r hr => ?_
    exact (hlast r (mem_stores_completed (by simp [written, hr]))).le

/-- A loop that is down makes no further attempt. -/
theorem Move.record_of_down (hs : s.Staged) (hdown : s.health.Down) (h : Move d s t) :
    t.record = s.record := by
  cases h.record with
  | inr hkept => exact hkept
  | inl hturn =>
    obtain ⟨server,phase,shutdown,health,history,outcomes,requests,answers⟩ := s
    unfold ServeTask.Staged at hs
    dsimp only at hs hdown hturn
    rw [hturn.1] at hs
    cases hs with
    | top going => exact absurd hdown (not_down_told going)

theorem ServeTask.stopped_of_down (hs : s.Staged) (hdown : s.health.Down) :
    ∃ reason, s.outcomes.getLast? = some (.stopped reason) := by
  obtain ⟨server,phase,shutdown,health,history,outcomes,requests,answers⟩ := s
  unfold ServeTask.Staged at hs
  dsimp only at hs hdown ⊢
  have hlast : ∀ (earlier : List LoopOutcome) (o : LoopOutcome), o.next = .exits →
      ∃ reason, (earlier++[o]).getLast? = some (.stopped reason) := by
    intro earlier o hexits
    cases o with
    | completed record => cases hexits
    | failed e => cases hexits
    | stopped reason => exact ⟨reason,List.getLast?_concat⟩
  cases hs with
  | top going => exact absurd hdown (not_down_told going)
  | panicked going => exact absurd hdown (not_down_told going)
  | died going => exact absurd hdown (not_down_told going)
  | exited going exits => exact hlast _ _ exits
  | @sleeping earlier o going backs =>
    exact absurd hdown (not_down_told (going_snoc going (by rw [backs]; nofun)))
  | @recording earlier o done stores going written =>
    apply hlast
    cases foldl_store_down hdown with
    | inl htold => exact absurd htold (not_down_told going)
    | inr hmem => exact mem_stores_stopped (by simp [written, hmem])

end Loop
section Callers
variable {h h' : RoundLoopHealth} {a : HealthResponse} {earlier : List HealthResponse}
  {state : RoundLoopState} {round failures : ℕ}

/-- An answer the cells still bear out. -/
structure Stands (h : RoundLoopHealth) (a : HealthResponse) : Prop where
  rounds : a.lastCompletedRound ≤ h.lastCompletedRound
  down : a.code = 503 → h.Down ∧ a.lastCompletedRound = h.lastCompletedRound ∧
    a.consecutiveFailures = h.consecutiveFailures

/-- The state a request has read, after the answers its caller already has. -/
structure StateRead (h : RoundLoopHealth) (earlier : List HealthResponse)
    (state : RoundLoopState) : Prop where
  down : state = .stopped → h.Down
  latched : ∀ a ∈ earlier, a.code = 503 → state = .stopped

structure RoundRead (h : RoundLoopHealth) (earlier : List HealthResponse)
    (state : RoundLoopState) (round : ℕ) : Prop extends StateRead h earlier state where
  reached : round ≤ h.lastCompletedRound
  final : state = .stopped → round = h.lastCompletedRound
  after : ∀ a ∈ earlier, a.lastCompletedRound ≤ round

/-- What a request has read goes with the answers before it and with the cells. -/
def FollowedBy (h : RoundLoopHealth) (earlier : List HealthResponse) : HealthRead → Prop
  | .idle => True
  | .gotState state => StateRead h earlier state
  | .gotRound state round => RoundRead h earlier state round
  | .gotFailures state round failures => RoundRead h earlier state round ∧
      (state = .stopped → failures = h.consecutiveFailures)

/-- The answers of one caller, and its request under way. -/
structure ServeTask.Coherent (s : ServeTask κ ι) (i : ι) : Prop where
  ordered : (s.answers i).Pairwise fun a b =>
    a.lastCompletedRound ≤ b.lastCompletedRound ∧ (a.code = 503 → b.code = 503)
  standing : ∀ a ∈ s.answers i, Stands s.health a
  reading : FollowedBy s.health (s.answers i) (s.requests i)

theorem Stands.advances (hs : Stands h a) (hadv : Advances h h') : Stands h' a := by
  refine ⟨hs.rounds.trans hadv.rounds,fun hcode => ?_⟩
  obtain ⟨hdown,hround,hfailures⟩ := hs.down hcode
  obtain ⟨hdown',hround',hfailures'⟩ := hadv.down hdown
  exact ⟨hdown',hround.trans hround'.symm,hfailures.trans hfailures'.symm⟩

theorem StateRead.advances (hr : StateRead h earlier state) (hadv : Advances h h') :
    StateRead h' earlier state :=
  ⟨fun hstop => (hadv.down (hr.down hstop)).1,hr.latched⟩

theorem RoundRead.advances (hr : RoundRead h earlier state round) (hadv : Advances h h') :
    RoundRead h' earlier state round where
  toStateRead := hr.toStateRead.advances hadv
  reached := hr.reached.trans hadv.rounds
  final hstop := (hr.final hstop).trans (hadv.down (hr.down hstop)).2.1.symm
  after := hr.after

theorem FollowedBy.advances {r : HealthRead} (hr : FollowedBy h earlier r) (hadv : Advances h h') :
    FollowedBy h' earlier r := by
  cases r with
  | idle => trivial
  | gotState state => exact StateRead.advances hr hadv
  | gotRound state round => exact RoundRead.advances hr hadv
  | gotFailures state round failures =>
    refine ⟨hr.1.advances hadv,fun hstop => ?_⟩
    exact (hr.2 hstop).trans (hadv.down (hr.1.down hstop)).2.2.symm

theorem healthResponse_code {reason : Option String} :
    (healthResponse state round failures reason).code = 503 ↔ state = .stopped := by
  cases state <;> simp [healthResponse, RoundLoopState.isHealthy]

/-- A caller whose cells and requests are untouched while the cells advance. -/
theorem ServeTask.Coherent.advances (hs : s.Coherent i) (hadv : Advances s.health t.health)
    (hrequests : t.requests i = s.requests i) (hanswers : t.answers i = s.answers i) :
    t.Coherent i := by
  constructor
  · rw [hanswers]
    exact hs.ordered
  · rw [hanswers]
    exact fun a ha => (hs.standing a ha).advances hadv
  · rw [hanswers, hrequests]
    exact hs.reading.advances hadv

theorem Turn.callers (h : Turn d s t) : t.requests = s.requests ∧ t.answers = s.answers := by
  cases h <;> exact ⟨rfl,rfl⟩

theorem onReads_other [DecidableEq ι] {j : ι} (s : ServeTask κ ι) (hj : j ≠ i) :
    (s.onReads j).requests i = s.requests i ∧ (s.onReads j).answers i = s.answers i := by
  unfold ServeTask.onReads
  split
  · exact ⟨rfl,rfl⟩
  · split <;> simp [ServeTask.readsOn, ServeTask.answered, Function.update_of_ne hj.symm]

/-- The next read of a caller's own request finds the cells as they are. -/
theorem ServeTask.Coherent.reads [DecidableEq ι] (hs : s.Coherent i) :
    (s.onReads i).Coherent i := by
  obtain ⟨hordered,hstanding,hreading⟩ := hs
  unfold ServeTask.onReads
  split
  · exact ⟨hordered,hstanding,hreading⟩
  · split
    · refine ⟨hordered,hstanding,?_⟩
      simp only [ServeTask.readsOn, Function.update_self]
      exact ⟨id,fun a ha hcode => ((hstanding a ha).down hcode).1⟩
    · rename_i state hrequest
      rw [hrequest] at hreading
      refine ⟨hordered,hstanding,?_⟩
      simp only [ServeTask.readsOn, Function.update_self]
      exact ⟨hreading,le_rfl,fun _ => rfl,fun a ha => (hstanding a ha).rounds⟩
    · rename_i state round hrequest
      rw [hrequest] at hreading
      refine ⟨hordered,hstanding,?_⟩
      simp only [ServeTask.readsOn, Function.update_self]
      exact ⟨hreading,fun _ => rfl⟩
    · rename_i state round failures hrequest
      rw [hrequest] at hreading
      obtain ⟨hround,hfailures⟩ := hreading
      simp only [ServeTask.readsOn, ServeTask.answered]
      constructor
      · simp only [Function.update_self]
        rw [List.pairwise_append]
        refine ⟨hordered,List.pairwise_singleton _ _,fun a ha b hb => ?_⟩
        rw [List.mem_singleton.mp hb, healthResponse_code]
        exact ⟨hround.after a ha,hround.latched a ha⟩
      · simp only [Function.update_self]
        intro a ha
        rw [List.mem_append, List.mem_singleton] at ha
        cases ha with
        | inl hmem => exact hstanding a hmem
        | inr heq =>
          subst heq
          refine ⟨hround.reached,fun hcode => ?_⟩
          have hstop := healthResponse_code.mp hcode
          exact ⟨hround.down hstop,hround.final hstop,hfailures hstop⟩
      · simp only [Function.update_self]
        trivial

/-- The loop touches no request. -/
theorem step_callers [DecidableEq ι] (d : Deployment κ) (s : ServeTask κ ι) {e : ServeEvent ι}
    (he : ∀ i, e ≠ .reads i) :
    (s.step d e).requests = s.requests ∧ (s.step d e).answers = s.answers := by
  cases e with
  | proceeds env now =>
    by_cases htop : s.phase = .top
    · exact (onProceeds_turn d env now htop).callers
    · rw [ServeTask.step]
      unfold ServeTask.onProceeds
      split
      · contradiction
      · exact ⟨rfl,rfl⟩
  | stores =>
    rw [ServeTask.step]
    unfold ServeTask.onStores
    split <;> exact ⟨rfl,rfl⟩
  | wakes =>
    rw [ServeTask.step]
    unfold ServeTask.onWakes
    split <;> exact ⟨rfl,rfl⟩
  | shutdown => exact ⟨rfl,rfl⟩
  | reads i => exact absurd rfl (he i)

/-- A caller's request moves by its own reads only. -/
theorem step_request [DecidableEq ι] (d : Deployment κ) (s : ServeTask κ ι) (e : ServeEvent ι)
    (i : ι) : e = .reads i ∨
      ((s.step d e).requests i = s.requests i ∧ (s.step d e).answers i = s.answers i) := by
  by_cases he : ∃ j, e = .reads j
  · obtain ⟨j,rfl⟩ := he
    by_cases hj : j = i
    · exact .inl (by rw [hj])
    · exact .inr (onReads_other s hj)
  · obtain ⟨hrequests,hanswers⟩ := step_callers d s (e := e) fun j hj => he ⟨j,hj⟩
    exact .inr ⟨congrFun hrequests i,congrFun hanswers i⟩

theorem ServeTask.Coherent.step [DecidableEq ι] (hs : s.Coherent i) (e : ServeEvent ι)
    (hadv : Advances s.health (s.step d e).health) : (s.step d e).Coherent i := by
  cases step_request d s e i with
  | inl he =>
    rw [he]
    exact hs.reads
  | inr hkept => exact hs.advances hadv hkept.1 hkept.2

theorem coherent_start (d : Deployment κ) (initialWeights : List F32) (left : Server κ) :
    (ServeTask.start d initialWeights left : ServeTask κ ι).Coherent i :=
  ⟨List.Pairwise.nil,nofun,trivial⟩

theorem coherent_run [DecidableEq ι] (d : Deployment κ) (initialWeights : List F32)
    (left : Server κ) (events : List (ServeEvent ι)) (i : ι) :
    let s := Run.after (ServeTask.step d) (ServeTask.start d initialWeights left) events
    s.Staged ∧ s.Counts ∧ s.Coherent i :=
  Run.after_of_kept (fun s : ServeTask κ ι => s.Staged ∧ s.Counts ∧ s.Coherent i)
    ⟨staged_start d initialWeights left,⟨rfl,rfl⟩,coherent_start d initialWeights left⟩
    fun s e h => by
      have hmove := step_move d s e
      exact ⟨h.1.move hmove,h.2.1.move hmove,h.2.2.step e (hmove.advances h.1 h.2.1)⟩

end Callers

section Ended

/-- A loop that is down stays down, and adds nothing to its record. -/
theorem ServeTask.down_after [DecidableEq ι] (hs : s.Staged) (hc : s.Counts)
    (hdown : s.health.Down) (more : List (ServeEvent ι)) :
    (Run.after (ServeTask.step d) s more).record = s.record := by
  have hinv := @Run.after_of_kept _ _ (ServeTask.step d) _ more
    (fun t : ServeTask κ ι => t.record = s.record ∧ t.Staged ∧ t.Counts ∧ t.health.Down)
    ⟨rfl,hs,hc,hdown⟩ fun t e ht => by
      obtain ⟨hrecord,hstaged,hcounts,hdown⟩ := ht
      have hmove := step_move d t e
      exact ⟨(hmove.record_of_down hstaged hdown).trans hrecord,hstaged.move hmove,
        hcounts.move hmove,((hmove.advances hstaged hcounts).down hdown).1⟩
  exact hinv.1

/-- The answer from cells that nothing changes any more. -/
def lastAnswer (h : RoundLoopHealth) : HealthResponse :=
  healthResponse (.fromU8 h.state) h.lastCompletedRound h.consecutiveFailures h.lastError

/-- A request begun after the loop was over has read what there is to say. -/
def Final (h : RoundLoopHealth) : HealthRead → Prop
  | .idle => True
  | .gotState state => state = .fromU8 h.state
  | .gotRound state round => state = .fromU8 h.state ∧ round = h.lastCompletedRound
  | .gotFailures state round failures =>
    state = .fromU8 h.state ∧ round = h.lastCompletedRound ∧ failures = h.consecutiveFailures

/-- Since the moment `s` the loop has been over and the caller has learnt nothing else. -/
structure Closed (s t : ServeTask κ ι) (i : ι) : Prop where
  phase : t.phase = s.phase
  health : t.health = s.health
  record : t.record = s.record
  request : Final s.health (t.requests i)
  answers : ∃ new, t.answers i = s.answers i++new ∧ ∀ a ∈ new, a = lastAnswer s.health

theorem Closed.reads [DecidableEq ι] (h : Closed s t i) : Closed s (t.onReads i) i := by
  obtain ⟨hphase,hhealth,hrecord,hrequest,new,hnew,hall⟩ := h
  unfold ServeTask.onReads
  split
  · exact ⟨hphase,hhealth,hrecord,hrequest,new,hnew,hall⟩
  · split
    · refine ⟨hphase,hhealth,hrecord,?_,new,hnew,hall⟩
      simp only [ServeTask.readsOn, Function.update_self, Final]
      rw [hhealth]
    · rename_i state hat
      rw [hat] at hrequest
      refine ⟨hphase,hhealth,hrecord,?_,new,hnew,hall⟩
      simp only [ServeTask.readsOn, Function.update_self, Final]
      exact ⟨hrequest,by rw [hhealth]⟩
    · rename_i state round hat
      rw [hat] at hrequest
      refine ⟨hphase,hhealth,hrecord,?_,new,hnew,hall⟩
      simp only [ServeTask.readsOn, Function.update_self, Final]
      exact ⟨hrequest.1,hrequest.2,by rw [hhealth]⟩
    · rename_i state round failures hat
      rw [hat] at hrequest
      obtain ⟨rfl,rfl,rfl⟩ := hrequest
      refine ⟨hphase,hhealth,hrecord,?_,new++[lastAnswer s.health],?_,?_⟩
      · simp only [ServeTask.readsOn, ServeTask.answered, Function.update_self, Final]
      · simp only [ServeTask.readsOn, ServeTask.answered, Function.update_self, hnew, hhealth,
          List.append_assoc]
        rfl
      · intro a ha
        rw [List.mem_append, List.mem_singleton] at ha
        cases ha with
        | inl hmem => exact hall a hmem
        | inr heq => exact heq

/-- Whatever happens after a loop is over, it takes no further step. -/
theorem over_step [DecidableEq ι] (h : t.phase.Over) (e : ServeEvent ι) :
    (t.step d e).phase = t.phase ∧ (t.step d e).health = t.health ∧
      (t.step d e).record = t.record := by
  have hphase : t.phase = .exited ∨ t.phase = .panicked := by
    cases hp : t.phase with
    | exited => exact .inl rfl
    | panicked => exact .inr rfl
    | _ => rw [hp] at h; exact h.elim
  cases e with
  | proceeds env now => rcases hphase with h | h <;> simp [ServeTask.step, ServeTask.onProceeds, h]
  | stores => rcases hphase with h | h <;> simp [ServeTask.step, ServeTask.onStores, h]
  | wakes => rcases hphase with h | h <;> simp [ServeTask.step, ServeTask.onWakes, h]
  | shutdown => exact ⟨rfl,rfl,rfl⟩
  | reads i =>
    exact ⟨onReads_frame (f := ServeTask.phase) (fun _ _ _ => rfl) i,
      onReads_frame (f := ServeTask.health) (fun _ _ _ => rfl) i,
      onReads_frame (f := ServeTask.record) (fun _ _ _ => rfl) i⟩

theorem Closed.step [DecidableEq ι] (hover : s.phase.Over) (h : Closed s t i)
    (e : ServeEvent ι) : Closed s (t.step d e) i := by
  cases step_request d t e i with
  | inl he =>
    rw [he]
    exact h.reads
  | inr hkept =>
    obtain ⟨hphase,hhealth,hrecord⟩ := over_step (d := d) (h.phase ▸ hover) e
    refine ⟨hphase.trans h.phase,hhealth.trans h.health,hrecord.trans h.record,?_,?_⟩
    · rw [hkept.1]
      exact h.request
    · rw [hkept.2]
      exact h.answers

/-- The cells of a loop that is over say what its turns came to; it is down if it ended itself,
and not if an attempt panicked. -/
theorem ServeTask.Staged.over (hs : s.Staged) (h : s.phase.Over) :
    s.health = told s.outcomes ∧ (s.health.Down ↔ s.phase = .exited) := by
  obtain ⟨server,phase,shutdown,health,history,outcomes,requests,answers⟩ := s
  unfold ServeTask.Staged at hs
  dsimp only at hs h ⊢
  cases hs with
  | @exited earlier o going exits =>
    refine ⟨rfl,iff_of_true ?_ rfl⟩
    rw [RoundLoopHealth.Down, told, List.getLast?_concat]
    cases o with
    | completed record => cases exits
    | failed e => cases exits
    | stopped reason => rfl
  | panicked going => exact ⟨rfl,iff_of_false (not_down_told going) nofun⟩
  | _ => exact h.elim

theorem lastAnswer_code (h : RoundLoopHealth) : (lastAnswer h).code = 503 ↔ h.Down :=
  healthResponse_code

/-- What one caller of `/health` can rely on at this moment of a run. -/
structure ServeTask.Relied [DecidableEq ι] (d : Deployment κ) (s : ServeTask κ ι) (i : ι) :
    Prop where
  ordered : (s.answers i).Pairwise fun a b =>
    a.lastCompletedRound ≤ b.lastCompletedRound ∧
      (a.code = 503 → b.code = 503 ∧ b.lastCompletedRound = a.lastCompletedRound ∧
        b.consecutiveFailures = a.consecutiveFailures)
  completed : ∀ a ∈ s.answers i, a.lastCompletedRound ≤ (completedRounds s.outcomes).length
  stopped : ∀ a ∈ s.answers i, a.code = 503 →
    (∃ reason, s.outcomes.getLast? = some (.stopped reason)) ∧
      ∀ more : List (ServeEvent ι), (Run.after (ServeTask.step d) s more).record = s.record
  ended : s.phase.Over → s.requests i = .idle → ∀ more : List (ServeEvent ι),
    let t := Run.after (ServeTask.step d) s more
    t.record = s.record ∧ ∃ new, t.answers i = s.answers i++new ∧
      ∀ a ∈ new, a = lastAnswer (told s.outcomes) ∧ (a.code = 503 ↔ s.phase = .exited)

/-- In every run, whatever else happens between its reads, a caller of `/health` never sees the
last completed round go back or run ahead of the rounds that completed; a 503 is never taken
back and is given only by a loop that makes no further attempt. Once the loop is over every new
request is told the last round, the failures and the error of its last turn: with a 503 if the loop
ended itself, and as if it went on if an attempt panicked. -/
theorem relied_run [DecidableEq ι] (d : Deployment κ) (initialWeights : List F32)
    (left : Server κ) (events : List (ServeEvent ι)) (i : ι) :
    (Run.after (ServeTask.step d) (ServeTask.start d initialWeights left) events).Relied d i := by
  obtain ⟨hs,hc,hi⟩ := coherent_run d initialWeights left events i
  generalize Run.after (ServeTask.step d) (ServeTask.start d initialWeights left) events = s
    at hs hc hi
  constructor
  · refine hi.ordered.imp_of_mem fun {a b} ha hb hab => ⟨hab.1,fun hcode => ?_⟩
    obtain ⟨_,hround,hfailures⟩ := (hi.standing a ha).down hcode
    obtain ⟨_,hround',hfailures'⟩ := (hi.standing b hb).down (hab.2 hcode)
    exact ⟨hab.2 hcode,hround'.trans hround.symm,hfailures'.trans hfailures.symm⟩
  · intro a ha
    exact (hi.standing a ha).rounds.trans (hs.rounds_le hc)
  · intro a ha hcode
    have hdown := ((hi.standing a ha).down hcode).1
    exact ⟨ServeTask.stopped_of_down hs hdown,fun more => ServeTask.down_after hs hc hdown more⟩
  · intro hover hidle more
    obtain ⟨htold,hdown⟩ := hs.over hover
    have hclosed := @Run.after_of_kept _ _ (ServeTask.step d) _ more
      (fun t : ServeTask κ ι => Closed s t i)
      ⟨rfl,rfl,rfl,by rw [hidle]; trivial,[],(List.append_nil _).symm,nofun⟩
      fun t e ht => ht.step hover e
    obtain ⟨new,hnew,hall⟩ := hclosed.answers
    refine ⟨hclosed.record,new,hnew,fun a ha => ?_⟩
    rw [hall a ha, ← htold, lastAnswer_code]
    exact ⟨rfl,hdown⟩

end Ended
section History
variable {outcomes : List LoopOutcome} {o : LoopOutcome}

def LoopOutcome.record : LoopOutcome → Option RoundRecord
  | .completed record => some record
  | _ => none

def completedRecords (outcomes : List LoopOutcome) : List RoundRecord :=
  outcomes.filterMap LoopOutcome.record

theorem completedRecords_snoc : completedRecords (outcomes++[o]) =
    completedRecords outcomes++o.record.toList := by
  cases h : o.record <;> simp [completedRecords, h]

theorem map_round_completedRecords (outcomes : List LoopOutcome) :
    (completedRecords outcomes).map RoundRecord.round = completedRounds outcomes := by
  rw [completedRecords, completedRounds, List.map_filterMap]
  congr 1
  funext o
  cases o <;> rfl

/-- A history holds as many of the last records as it has room for. -/
theorem RoundHistory.record_rtake {h : RoundHistory} {records : List RoundRecord}
    (hh : h.records = records.rtake h.capacity) (r : RoundRecord) :
    (h.record r).capacity = h.capacity ∧
      (h.record r).records = (records++[r]).rtake h.capacity := by
  obtain ⟨held,capacity⟩ := h
  dsimp only at hh
  subst hh
  cases capacity with
  | zero => simp [RoundHistory.record]
  | succ capacity =>
    refine ⟨by simp [RoundHistory.record],?_⟩
    rw [List.rtake_concat_succ]
    unfold RoundHistory.record
    simp only [Nat.add_eq_zero_iff, one_ne_zero, and_false, if_false]
    congr 1
    unfold List.rtake
    rw [List.length_drop]
    split
    · rw [List.tail_drop]
      congr 1
      omega
    · congr 1
      omega

/-- A record without a contradiction: what passed had been submitted, and the method's citation
is not on record as violated. -/
structure RoundRecord.Sound (r : RoundRecord) : Prop where
  passed : r.passed ≤ r.submitted
  cited : r.citedRequirementSatisfied ≠ some false

theorem runRound_ok_passed {env : RoundEnv} {server t : Server κ} {summary : RoundSummary}
    (h : runRound d env server = .ok summary t) : summary.numPassed ≤ summary.numSubmitted := by
  have hattempt := runRound_attempt d env server
  rw [h] at hattempt
  cases hattempt with
  | completed ready answer save rows =>
    have hp := prepareBatch_ok ready
    rw [Prepared.summary, (aggregationBatch_ok_iff.mp hp.batch).2, hp.submitted]
    exact (List.length_filterMap_le _ _).trans_eq (StableSort.sortBy_perm).length_eq

/-- The history against the rounds that completed. -/
structure ServeTask.Recorded (d : Deployment κ) (s : ServeTask κ ι) : Prop where
  capacity : s.history.capacity = d.config.roundHistoryLen.value
  records : s.history.records = (completedRecords s.outcomes).rtake s.history.capacity
  verdict : s.server.roundVerdict ≠ some false
  sound : ∀ r ∈ completedRecords s.outcomes, r.Sound

theorem ServeTask.Recorded.turn (hs : s.Recorded d) (hturn : Turn d s t) : t.Recorded d := by
  obtain ⟨hcapacity,hrecords,hverdict,hsound⟩ := hs
  cases hturn with
  | @completes env summary server now run =>
    have hkept := runRound_verdict_ne_false (d := d) env hverdict
    rw [run] at hkept
    obtain ⟨hcapacity',hrecords'⟩ := RoundHistory.record_rtake hrecords
      (summary.record now server.roundVerdict)
    have hsnoc : completedRecords (s.outcomes++[.completed (summary.record now
        server.roundVerdict)]) =
        completedRecords s.outcomes++[summary.record now server.roundVerdict] :=
      completedRecords_snoc
    unfold ServeTask.ends
    refine ⟨hcapacity'.trans hcapacity,?_,hkept,?_⟩
    · rw [hsnoc, hrecords', hcapacity']
    · rw [hsnoc]
      intro r hr
      rw [List.mem_append, List.mem_singleton] at hr
      cases hr with
      | inl hmem => exact hsound r hmem
      | inr heq =>
        rw [heq]
        exact ⟨runRound_ok_passed run,hkept⟩
  | @fails server o round verdict incomplete =>
    have hnone : o.record = none := by
      cases o with
      | completed record => cases incomplete
      | failed e => rfl
      | stopped reason => rfl
    have hsame : completedRecords (s.outcomes++[o]) = completedRecords s.outcomes := by
      rw [completedRecords_snoc, hnone, Option.toList_none, List.append_nil]
    refine ⟨hcapacity,?_,verdict hverdict,?_⟩
    · exact hrecords.trans (by rw [ServeTask.ends, hsame])
    · rw [ServeTask.ends, hsame]
      exact hsound
  | panics round verdict => exact ⟨hcapacity,hrecords,verdict hverdict,hsound⟩
  | dies round verdict => exact ⟨hcapacity,hrecords,verdict hverdict,hsound⟩

theorem ServeTask.Recorded.move (hs : s.Recorded d) (hmove : Move d s t) : t.Recorded d := by
  cases hmove.record with
  | inl hturn => exact hs.turn hturn.2
  | inr hkept =>
    have hserver : t.server = s.server := congrArg Prod.fst hkept
    have hhistory : t.history = s.history := congrArg (fun r => r.2.2) hkept
    refine ⟨?_,?_,?_,?_⟩
    · rw [hhistory]
      exact hs.capacity
    · rw [hhistory, outcomes_of_record hkept]
      exact hs.records
    · rw [hserver]
      exact hs.verdict
    · rw [outcomes_of_record hkept]
      exact hs.sound

theorem recorded_run [DecidableEq ι] (d : Deployment κ) (initialWeights : List F32)
    (left : Server κ) (events : List (ServeEvent ι)) :
    (Run.after (ServeTask.step d) (ServeTask.start d initialWeights left) events).Recorded d :=
  Run.after_of_kept (fun s : ServeTask κ ι => s.Recorded d) ⟨rfl,(List.rtake_nil _).symm,nofun,nofun⟩
    fun s e h => h.move (step_move d s e)

theorem Move.completed_le {t : ServeTask κ ι} (h : Move d s t) :
    (completedRounds s.outcomes).length ≤ (completedRounds t.outcomes).length := by
  cases h.record with
  | inr hkept => rw [outcomes_of_record hkept]
  | inl hturn =>
    have hsnoc (o : LoopOutcome) :
        (completedRounds s.outcomes).length ≤ (completedRounds (s.outcomes++[o])).length := by
      rw [completedRounds_snoc, List.length_append]
      exact Nat.le_add_right _ _
    cases hturn.2 with
    | completes now run => exact hsnoc _
    | fails round verdict incomplete => exact hsnoc _
    | panics round verdict => exact le_rfl
    | dies round verdict => exact le_rfl

/-- What a caller of `/rounds` can rely on, when `completed` rounds had completed as the records
were read and `later` as they were counted: the newest of these rounds, newest first and with none
left out, as many as were asked for and kept. -/
structure RoundsResponse.Relied (response : RoundsResponse) (completed later asked kept : ℕ) :
    Prop where
  rounds : response.rounds.map RoundRecord.round =
    ((List.range' 1 completed).reverse).take (min asked kept)
  held : response.held = min later kept
  order : completed ≤ later
  capacity : response.capacity = kept
  sound : ∀ r ∈ response.rounds, r.Sound

/-- At any moment of any run `/rounds` lists the last completed rounds without a gap, and none
of them is on record with a violated citation or with more updates than were submitted; the
number it gives with them is that of the moment it counts, with anything in between. -/
theorem rounds_run [DecidableEq ι] (d : Deployment κ) (initialWeights : List F32)
    (left : Server κ) (events between : List (ServeEvent ι)) (limit : Option ℕ) :
    let s := Run.after (ServeTask.step d) (ServeTask.start d initialWeights left) events
    let t := Run.after (ServeTask.step d) s between
    (roundsResponse d.config.roundHistoryLen.value s.history t.history limit).Relied
      (completedRounds s.outcomes).length (completedRounds t.outcomes).length (limit.getD 20)
      d.config.roundHistoryLen.value := by
  dsimp only
  obtain ⟨-,hcounts⟩ := staged_counts_run d initialWeights left events
  have hs := recorded_run d initialWeights left events
  have ht := recorded_run d initialWeights left (events++between)
  rw [Run.after_append] at ht
  generalize Run.after (ServeTask.step d) (ServeTask.start d initialWeights left) events = s
    at hcounts hs ht
  have horder := @Run.after_of_kept _ _ (ServeTask.step d) _ between
    (fun t : ServeTask κ ι =>
      (completedRounds s.outcomes).length ≤ (completedRounds t.outcomes).length)
    le_rfl fun t e h => h.trans (step_move d t e).completed_le
  generalize Run.after (ServeTask.step d) s between = t at ht horder
  have hrecent : (roundsResponse d.config.roundHistoryLen.value s.history t.history limit).rounds =
      (completedRecords s.outcomes).reverse.take
        (min (limit.getD 20) d.config.roundHistoryLen.value) := by
    rw [roundsResponse, RoundHistory.recent, hs.records, hs.capacity,
      List.rtake_eq_reverse_take_reverse, List.reverse_reverse, List.take_take, min_assoc,
      min_self]
  constructor
  · rw [hrecent, List.map_take, List.map_reverse, map_round_completedRecords, ← hcounts.1]
  · have hlen := congrArg List.length (map_round_completedRecords t.outcomes)
    rw [List.length_map] at hlen
    rw [roundsResponse, ht.records, ht.capacity, List.rtake, List.length_drop, hlen]
    dsimp only
    omega
  · exact horder
  · rfl
  · rw [hrecent]
    exact fun r hr => hs.sound r (List.mem_reverse.mp (List.mem_of_mem_take hr))

end History
end ConfluxFL
