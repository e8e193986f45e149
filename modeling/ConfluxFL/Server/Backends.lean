import ConfluxFL.Server.Precondition

/-! What a deployment starts from on each backend, and that backends which serve the same model
are not told apart by any run. The constructor seeds the in-memory store with the initial
weights; nobody seeds the others. -/
namespace ConfluxFL
open Fallible RoundM
variable {κ : Type} {d : Deployment κ} {env : RoundEnv} {s t : Server κ}

/-- The answer to a pull-mode client, when nothing moves between its reads. -/
def fetchTask (d : Deployment κ) (s : Server κ) : Except DispatchError TaskResponse :=
  match s.store.loadLatestWeights with
  | .ok weights => .ok (roundTask d s.aggregatorState s.round weights)
  | .error e => .error (.other e.text)

/-- No checkpoint is kept. What an in-memory store holds is gone with its process. -/
def AnyStore.HoldsNone : AnyStore → Prop
  | .inMemory _ => True
  | .postgres s => s.rows.rows = []
  | .s3 s => s.rounds = []

def AnyStore.isInMemory : AnyStore → Bool
  | .inMemory _ => true
  | _ => false

/-- Two servers that differ in their store only, and there not in what it serves. -/
def SameBut (s t : Server κ) : Prop :=
  ∃ store, t = { s with store := store } ∧ s.store.loadLatestWeights = store.loadLatestWeights ∧
    (s.round < 2^63 → s.store.RoundsAtMost s.round ∧ store.RoundsAtMost s.round)

section Related

theorem related_ask {ε α : Type} (reply : Reply ε α) (wrap : ε → ServerError)
    (h : SameBut s t) : Related SameBut (ask reply wrap s) (ask reply wrap t) := by
  cases reply with
  | value a => exact .ok a h
  | fail e => exact .error _ h
  | crash => exact .error _ h

theorem related_checkPrivacyBudget (h : SameBut s t) :
    Related SameBut (checkPrivacyBudget d s) (checkPrivacyBudget d t) := by
  have hbudget : budgetAllows d t = budgetAllows d s := by
    obtain ⟨store,rfl,_⟩ := h
    rfl
  rw [checkPrivacyBudget_apply, checkPrivacyBudget_apply, hbudget]
  split
  · exact .ok () h
  · exact .error _ h

theorem related_loadLatestWeights (h : SameBut s t) :
    Related SameBut (loadLatestWeights env s) (loadLatestWeights env t) := by
  refine (related_ask env.load _ h).bind fun _ s t h => ?_
  have hload : t.store.loadLatestWeights = s.store.loadLatestWeights := by
    obtain ⟨store,rfl,hserved,_⟩ := h
    exact hserved.symm
  rw [bind_apply, bind_apply, get_apply, get_apply]
  dsimp only
  rw [hload]
  cases s.store.loadLatestWeights with
  | ok weights => exact .ok weights h
  | error e => exact .error _ h

/-- An update of anything but the store and the counter. -/
theorem related_modify {m : Server κ → Server κ}
    (hm : ∀ s store, m { s with store := store } = { m s with store := store })
    (hstore : ∀ s, (m s).store = s.store) (hround : ∀ s, (m s).round = s.round)
    (h : SameBut s t) :
    Related SameBut ((modify m : RoundM κ Unit) s) ((modify m : RoundM κ Unit) t) := by
  obtain ⟨store,rfl,hserved,hfiled⟩ := h
  refine .ok () ⟨store,hm s store,?_,?_⟩
  · rw [hstore]
    exact hserved
  · rw [hstore, hround]
    exact hfiled

theorem related_checkBatchRequirement (round n : ℕ) (h : SameBut s t) :
    Related SameBut (checkBatchRequirement d round n s) (checkBatchRequirement d round n t) := by
  unfold checkBatchRequirement
  cases batchRequirement d.config.aggregator.value d.config.robustByzantineFraction.value
      (n % 2^32) with
  | none => exact .ok () h
  | some req =>
    cases hsat : req.satisfiedBy (n % 2^32) with
    | true =>
      simp only [hsat, if_true]
      exact related_modify (fun _ _ => rfl) (fun _ => rfl) (fun _ => rfl) h
    | false =>
      simp only [hsat, Bool.false_eq_true, if_false]
      exact .error _ h

theorem related_openRound (h : SameBut s t) :
    Related SameBut (openRound d env s) (openRound d env t) := by
  have hround : t.round = s.round := by
    obtain ⟨store,rfl,_⟩ := h
    rfl
  unfold openRound
  rw [bind_apply, bind_apply, get_apply, get_apply]
  dsimp only
  rw [hround]
  refine (related_checkPrivacyBudget h).bind fun _ s t h => ?_
  refine (related_loadLatestWeights h).bind fun weights s t h => ?_
  refine (related_ask env.active _ h).bind fun active s t h => ?_
  refine (related_checkBatchRequirement _ _ h).bind fun _ s t h => ?_
  refine Related.bind ?_ fun _ s t h => .ok _ h
  exact related_modify (fun _ _ => rfl) (fun _ => rfl) (fun _ => rfl) h

theorem related_flushRound (o : Opened) (h : SameBut s t) :
    Related SameBut (flushRound env o s) (flushRound env o t) := by
  unfold flushRound
  split_ifs
  · exact .error _ h
  · refine Related.bind ?_ fun _ s t h => .ok _ h
    exact related_modify (fun _ _ => rfl) (fun _ => rfl) (fun _ => rfl) h

theorem related_fetchSignals (o : Opened) (h : SameBut s t) :
    Related SameBut (fetchSignals d env o s) (fetchSignals d env o t) := by
  refine Related.bind ?_ fun _ s t h => ?_
  · split_ifs
    · unfold fetchAndInjectTrustedReference
      split_ifs
      · exact .error _ h
      · refine (related_ask env.reference _ h).bind fun bytes s t h => ?_
        cases decodeWeights bytes with
        | error e => exact .error _ h
        | ok reference =>
          exact related_modify (fun _ _ => rfl) (fun _ => rfl) (fun _ => rfl) h
    · exact .ok () h
  · split_ifs
    · unfold fetchAndInjectCandidateScores
      split_ifs
      · exact .error _ h
      · refine (related_ask env.scores _ h).bind fun scores s t h => ?_
        exact related_modify (fun _ _ => rfl) (fun _ => rfl) (fun _ => rfl) h
    · exact .ok () h

theorem related_filterBatch (o : Opened) (flush : FlushResult Submission) (h : SameBut s t) :
    Related SameBut (filterBatch d env o flush s) (filterBatch d env o flush t) := by
  refine (related_checkBatchRequirement _ _ h).bind fun _ s t h => ?_
  have hacc : t.accountant = s.accountant := by
    obtain ⟨store,rfl,_⟩ := h
    rfl
  rw [bind_apply, bind_apply, get_apply, get_apply]
  dsimp only
  rw [hacc]
  cases aggregationBatch d.config d.budgetExhausted s.accountant flush.deltas with
  | error e => exact .error _ h
  | ok batch => exact (related_fetchSignals o h).bind fun _ s t h => .ok _ h

theorem related_prepareBatch (h : SameBut s t) :
    Related SameBut (prepareBatch d env s) (prepareBatch d env t) :=
  (related_openRound h).bind fun o _ _ h => (related_flushRound o h).bind fun flush _ _ h =>
    related_filterBatch o flush h

theorem related_perform (outcome : WriteOutcome) {effect : Server κ → Server κ}
    (heffect : SameBut (effect s) (effect t)) (h : SameBut s t) :
    Related SameBut (perform outcome effect s) (perform outcome effect t) := by
  have hrun : SameBut (outcome.run effect s) (outcome.run effect t) := by
    unfold WriteOutcome.run
    split
    · exact heffect
    · exact h
  rw [perform_apply, perform_apply]
  cases outcome with
  | ok => exact .ok () heffect
  | fail applied e => exact .error _ hrun
  | crash applied => exact .error _ hrun

theorem related_appendClients (outcome : ℕ → WriteOutcome) (cost : RoundCost) (i : ℕ)
    (admitted : List String) (h : SameBut s t) :
    Related SameBut (appendClients outcome cost i admitted s)
      (appendClients outcome cost i admitted t) := by
  induction admitted generalizing i s t with
  | nil => exact .ok () h
  | cons c admitted ih =>
    refine (related_perform _ ?_ h).bind fun _ s t h => ih (i+1) h
    obtain ⟨store,rfl,hrest⟩ := h
    exact ⟨store,rfl,hrest⟩

theorem related_appendRows (cost : RoundCost) (admitted : List String) (h : SameBut s t) :
    Related SameBut (appendRows d env cost admitted s) (appendRows d env cost admitted t) := by
  unfold appendRows
  split
  · refine (related_perform _ ?_ h).bind fun _ s t h => related_appendClients _ _ _ _ h
    obtain ⟨store,rfl,hrest⟩ := h
    exact ⟨store,rfl,hrest⟩
  · exact .ok () h

/-- A checkpoint at the current round is what both stores serve next. -/
theorem SameBut.checkpointed {round : ℕ} (h : SameBut s t) (hround : round = s.round)
    (hlt : s.round < 2^63) (weights : List F32) (batch : List ClientDelta) :
    SameBut (s.checkpointed round weights batch) (t.checkpointed round weights batch) := by
  obtain ⟨store,rfl,_,hfiled⟩ := h
  obtain ⟨hleft,hright⟩ := hfiled hlt
  subst hround
  refine ⟨store.saveCheckpoint s.round weights,rfl,?_,fun _ => ⟨?_,?_⟩⟩
  · change (s.store.saveCheckpoint s.round weights).loadLatestWeights = _
    rw [AnyStore.loadLatestWeights_saveCheckpoint weights hleft hlt,
      AnyStore.loadLatestWeights_saveCheckpoint weights hright hlt]
  · exact hleft.saveCheckpoint weights hlt
  · exact hright.saveCheckpoint weights hlt

theorem SameBut.advanced {round : ℕ} (h : SameBut s t) (hround : round = s.round) :
    SameBut (s.advanced round) (t.advanced round) := by
  obtain ⟨store,rfl,hserved,hfiled⟩ := h
  subst hround
  refine ⟨store,rfl,hserved,fun hlt => ?_⟩
  change s.round+1 < 2^63 at hlt
  obtain ⟨hleft,hright⟩ := hfiled (by omega)
  exact ⟨hleft.mono (Nat.le_succ _) hlt,hright.mono (Nat.le_succ _) hlt⟩

theorem related_commitRound {p : Prepared} (h : SameBut s t) (hround : p.opened.round = s.round)
    (hlt : s.round < 2^63) : Related SameBut (commitRound d env p s) (commitRound d env p t) := by
  have hanswer : aggregateAnswer d t p.batch = aggregateAnswer d s p.batch := by
    obtain ⟨store,rfl,_⟩ := h
    rfl
  have haggregated : SameBut (aggregated d s p.batch) (aggregated d t p.batch) := by
    obtain ⟨store,rfl,hrest⟩ := h
    exact ⟨store,rfl,hrest⟩
  have hpanics : aggregatePanics d t p.batch = aggregatePanics d s p.batch := by
    obtain ⟨store,rfl,_⟩ := h
    rfl
  rw [commitRound_apply, commitRound_apply, hanswer, hpanics]
  cases aggregatePanics d s p.batch with
  | some message => exact .error _ h
  | none =>
  dsimp only
  cases aggregateAnswer d s p.batch with
  | error e => exact .error _ haggregated
  | ok weights =>
    have hchecked := haggregated.checkpointed hround hlt weights p.batch
    have hwritten (outcome : WriteOutcome) : SameBut
        (outcome.run (fun s => s.checkpointed p.opened.round weights p.batch)
          (aggregated d s p.batch))
        (outcome.run (fun s => s.checkpointed p.opened.round weights p.batch)
          (aggregated d t p.batch)) := by
      unfold WriteOutcome.run
      split
      · exact hchecked
      · exact haggregated
    cases env.save with
    | fail applied e => exact .error _ (hwritten _)
    | crash applied => exact .error _ (hwritten _)
    | ok =>
      have hcommitted : SameBut (committed d s p weights) (committed d t p weights) := by
        unfold committed
        obtain ⟨store,hstore,hrest⟩ := hchecked
        rw [hstore]
        exact ⟨store,rfl,hrest⟩
      have hrows : Related SameBut
          (appendRows d env (p.cost d) p.admitted (committed d s p weights))
          (appendRows d env (p.cost d) p.admitted (committed d t p weights)) :=
        related_appendRows _ _ hcommitted
      have hkeep : Keeps Server.round (appendRows d env (p.cost d) p.admitted) :=
        keeps_appendRows_of fun _ _ => rfl
      dsimp only
      generalize hs : appendRows d env (p.cost d) p.admitted (committed d s p weights) = r at hrows ⊢
      generalize appendRows d env (p.cost d) p.admitted (committed d t p weights) = r' at hrows ⊢
      cases hrows with
      | ok u hsame =>
        refine .ok _ (hsame.advanced ?_)
        rw [hkeep.ok hs]
        exact hround
      | error e hsame => exact .error e hsame

/-- An attempt does not tell two such servers apart. -/
theorem related_runRound (h : SameBut s t) (hlt : s.round < 2^63) :
    Related SameBut (runRound d env s) (runRound d env t) := by
  have hprepare : Related SameBut (prepareBatch d env s) (prepareBatch d env t) :=
    related_prepareBatch h
  unfold runRound
  rw [bind_apply, bind_apply]
  generalize hs : prepareBatch d env s = r at hprepare ⊢
  generalize prepareBatch d env t = r' at hprepare ⊢
  cases hprepare with
  | @ok p s' t' hsame =>
    have hround : s'.round = s.round := congrArg Core.round (keeps_prepareBatch.ok hs)
    refine related_commitRound hsame ?_ (by rw [hround]; exact hlt)
    rw [(prepareBatch_ok hs).round, hround]
  | error e hsame => exact .error e hsame

end Related

section Deployments

/-- A process on this backend, after some attempts at rounds. -/
def deployed (d : Deployment κ) (initialWeights : List F32) (s : Server κ) (store : AnyStore)
    (rounds : List RoundEnv) : World κ :=
  Run.after World.step ⟨{ s with store := store },none⟩
    (.connect d initialWeights::rounds.map .round)

/-- Once connected, the store serves the initial weights and nothing is filed above round one. -/
def Seeded (initialWeights : List F32) (store : AnyStore) : Prop :=
  (store.connect initialWeights).loadLatestWeights = .ok initialWeights ∧
    (store.connect initialWeights).RoundsAtMost 1

/-- A deployment over an empty store starts from its initial weights, and dispatches what the
in-memory deployment does, in every run. -/
structure StartsFromInitial (d : Deployment κ) (initialWeights : List F32) (s : Server κ)
    (store : AnyStore) : Prop where
  fetched : fetchTask d (deployed d initialWeights s store []).server =
    .ok (roundTask d d.aggregator.init 1 initialWeights)
  loaded : ∀ env, env.load = .value () →
    loadLatestWeights env (deployed d initialWeights s store []).server =
      .ok initialWeights (deployed d initialWeights s store []).server
  alike : ∀ rounds, (deployed d initialWeights s store rounds).server.pushed =
    (deployed d initialWeights s (.inMemory (.new initialWeights)) rounds).server.pushed

/-- An empty table or bucket has nothing to serve. -/
theorem loadLatestWeights_holdsNone {store : AnyStore} (h : store.HoldsNone)
    (hstore : store.isInMemory = false) : store.loadLatestWeights = .error .noCheckpoint := by
  cases store with
  | inMemory m => cases hstore
  | postgres p =>
    have hlatest : p.rows.latest = none := KeyedTable.latestRow_eq_none.mpr h
    simp [AnyStore.loadLatestWeights, PostgresStore.loadLatestWeights, hlatest]
  | s3 b =>
    have hrounds : b.rounds = [] := h
    simp [AnyStore.loadLatestWeights, S3Store.loadLatestWeights, hrounds]

theorem connect_of_not_inMemory {store : AnyStore} (h : store.isInMemory = false)
    (initialWeights : List F32) : store.connect initialWeights = store := by
  cases store with
  | inMemory m => cases h
  | postgres p => rfl
  | s3 b => rfl

theorem startsFromInitial_iff {store : AnyStore} (initialWeights : List F32) (h : store.HoldsNone) :
    StartsFromInitial d initialWeights s store ↔ store.isInMemory = true := by
  constructor
  · intro hstart
    by_contra hne
    have hstore : store.isInMemory = false := by simpa using hne
    have hload : (deployed d initialWeights s store []).server.store.loadLatestWeights =
        .error .noCheckpoint := by
      change (store.connect initialWeights).loadLatestWeights = _
      rw [connect_of_not_inMemory hstore]
      exact loadLatestWeights_holdsNone h hstore
    have hfetched := hstart.fetched
    rw [fetchTask, hload] at hfetched
    cases hfetched
  · intro hstore
    cases store with
    | inMemory m =>
      refine ⟨rfl,fun env hload => ?_,fun rounds => rfl⟩
      simp only [loadLatestWeights, hload]
      rfl
    | postgres p => cases hstore
    | s3 b => cases hstore

/-- Two worlds that differ in the store of their server only. -/
def WorldsAlike (w w' : World κ) : Prop := w'.running = w.running ∧ SameBut w.server w'.server

theorem WorldsAlike.step {w w' : World κ} (h : WorldsAlike w w') (hlt : w.server.round < 2^63)
    (env : RoundEnv) : WorldsAlike (w.step (.round env)) (w'.step (.round env)) := by
  obtain ⟨hrunning,hsame⟩ := h
  cases hr : w.running with
  | none =>
    rw [World.step_idle hr, World.step_idle (hrunning.trans hr)]
    exact ⟨hrunning,hsame⟩
  | some d =>
    have hrelated : Related SameBut (runRound d env w.server) (runRound d env w'.server) :=
      related_runRound hsame hlt
    refine ⟨?_,?_⟩
    · simp only [World.step, hr, hrunning.trans hr]
      generalize runRound d env w.server = r at hrelated ⊢
      generalize runRound d env w'.server = r' at hrelated ⊢
      cases hrelated with
      | ok a h => rfl
      | error e h => rfl
    · rw [World.step_round hr, World.step_round (hrunning.trans hr)]
      exact hrelated.stateOf

theorem World.step_round_le (w : World κ) (env : RoundEnv) :
    (w.step (.round env)).server.round ≤ w.server.round+1 := by
  cases hr : w.running with
  | none =>
    rw [World.step_idle hr]
    exact Nat.le_succ _
  | some d =>
    rw [World.step_round hr]
    have h := runRound_round d env w.server
    omega

theorem WorldsAlike.after {w w' : World κ} (h : WorldsAlike w w') (rounds : List RoundEnv)
    (hlt : w.server.round+rounds.length < 2^63) :
    WorldsAlike (Run.after World.step w (rounds.map .round))
      (Run.after World.step w' (rounds.map .round)) := by
  induction rounds generalizing w w' with
  | nil => exact h
  | cons env rounds ih =>
    rw [List.length_cons] at hlt
    have hle := w.step_round_le env
    exact ih (h.step (by omega) env) (by omega)

theorem deployed_alike {initialWeights : List F32} {a b : AnyStore} (ha : Seeded initialWeights a)
    (hb : Seeded initialWeights b) (rounds : List RoundEnv) (hlen : rounds.length+1 < 2^63) :
    WorldsAlike (deployed d initialWeights s a rounds) (deployed d initialWeights s b rounds) := by
  have hstart : WorldsAlike
      (⟨assemble d initialWeights { s with store := a },some d⟩ : World κ)
      ⟨assemble d initialWeights { s with store := b },some d⟩ :=
    ⟨rfl,b.connect initialWeights,rfl,ha.1.trans hb.1.symm,fun _ => ⟨ha.2,hb.2⟩⟩
  refine hstart.after rounds ?_
  change 1+rounds.length < 2^63
  omega

/-- Of the backends that hold no checkpoint exactly the in-memory one starts from the initial
weights; and backends that serve the initial weights, seeded or in-memory, dispatch the same
tasks round by round in every run below the signed column's limit. -/
theorem startsFromInitial_spec (d : Deployment κ) (initialWeights : List F32) (s : Server κ) :
    (∀ store, AnyStore.HoldsNone store →
      (StartsFromInitial d initialWeights s store ↔ store.isInMemory = true)) ∧
    ∀ a b, Seeded initialWeights a → Seeded initialWeights b → ∀ rounds, rounds.length+1 < 2^63 →
      (deployed d initialWeights s a rounds).server.pushed =
        (deployed d initialWeights s b rounds).server.pushed := by
  refine ⟨fun store h => startsFromInitial_iff initialWeights h,?_⟩
  intro a b ha hb rounds hlen
  obtain ⟨_,store,hsame,_⟩ := deployed_alike (d := d) (s := s) ha hb rounds hlen
  rw [hsame]

section Runs

/-- A table that nobody has written to. -/
def emptyTable : AnyStore := .postgres ⟨"conflux_checkpoints",⟨[],by simp⟩⟩

/-- A table seeded with the initial weights, and the in-memory store. -/
theorem startsFromInitial_seeded :
    (deployed (.noiseless fedAvg) [F32.zero] (.fresh emptyTable ()) seededStore
        [.clean [.plain "a" 1 [F32.one] 10]]).server.pushed =
      (deployed (.noiseless fedAvg) [F32.zero] (.fresh emptyTable ()) (.inMemory (.new []))
        [.clean [.plain "a" 1 [F32.one] 10]]).server.pushed ∧
    StartsFromInitial (.noiseless fedAvg) [F32.zero] (.fresh emptyTable ()) (.inMemory (.new [])) := by
  have hspec := startsFromInitial_spec (.noiseless fedAvg) [F32.zero] (.fresh emptyTable ())
  refine ⟨hspec.2 _ _ ⟨by decide +kernel,by decide +kernel⟩ ⟨rfl,by decide +kernel⟩ _ (by decide),?_⟩
  exact (hspec.1 (.inMemory (.new [])) trivial).mpr rfl

/-- On a fresh table neither the first task nor the first round finds a model. -/
theorem not_startsFromInitial_emptyTable : emptyTable.HoldsNone ∧
    fetchTask (.noiseless fedAvg)
        (deployed (.noiseless fedAvg) [F32.zero] (.fresh emptyTable ()) emptyTable []).server =
      .error (.other "no checkpoint has been saved yet") ∧
    ¬StartsFromInitial (.noiseless fedAvg) [F32.zero] (.fresh emptyTable ()) emptyTable := by
  refine ⟨rfl,by decide +kernel,fun h => ?_⟩
  have hfetched := h.fetched
  have hnone : fetchTask (.noiseless fedAvg)
      (deployed (.noiseless fedAvg) [F32.zero] (.fresh emptyTable ()) emptyTable []).server =
      .error (.other "no checkpoint has been saved yet") := by decide +kernel
  rw [hnone] at hfetched
  cases hfetched

end Runs
end Deployments
end ConfluxFL
