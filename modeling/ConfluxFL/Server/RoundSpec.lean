import ConfluxFL.Lib.Fallible
import ConfluxFL.Server.Round

/-! What an attempt at a round can do. Preparing a batch leaves everything durable and all of
the accounting alone; committing it is the aggregator's call followed by a fixed sequence of
writes, each of which may be the last. -/
namespace ConfluxFL
open Fallible RoundM
variable {κ : Type} {d : Deployment κ} {env : RoundEnv} {s t : Server κ}

/-- The part of the state that outlives an attempt or is charged by it. -/
structure Core (κ : Type) where
  round : ℕ
  store : AnyStore
  log : PrivacyRoundLog
  accountant : RdpAccountant
  aggregatorState : κ
  history : List SavedCheckpoint

def Server.core (s : Server κ) : Core κ :=
  ⟨s.round,s.store,s.log,s.accountant,s.aggregatorState,s.history⟩

theorem keeps_ask {ε α τ : Type} {f : Server κ → τ} (reply : Reply ε α)
    (wrap : ε → ServerError) : Keeps f (ask reply wrap : RoundM κ α) := by
  cases reply <;> exact fun _ => rfl

theorem keeps_checkPrivacyBudget {τ : Type} {f : Server κ → τ} :
    Keeps f (checkPrivacyBudget d) := by
  apply keeps_get.bind
  intro s
  refine (keeps_pure ()).ite ((keeps_pure ()).ite ?_)
  split
  · exact keeps_throw _
  · exact keeps_pure ()

section Keeps
variable {τ : Type} {f : Server κ → τ}

theorem keeps_checkBatchRequirement (hf : ∀ s v, f { s with roundVerdict := v } = f s)
    (round batch : ℕ) : Keeps f (checkBatchRequirement d round batch) := by
  unfold checkBatchRequirement
  dsimp only
  split
  · exact keeps_pure ()
  · split
    · exact keeps_modify fun s => hf s _
    · exact keeps_throw _

theorem keeps_loadLatestWeights : Keeps f (loadLatestWeights env : RoundM κ _) := by
  refine (keeps_ask env.load _).bind fun _ => keeps_get.bind fun s => ?_
  split
  · exact keeps_pure _
  · exact keeps_throw _

theorem keeps_fetchAndInjectTrustedReference (hf : ∀ s i, f { s with injected := i } = f s)
    (o : Opened) : Keeps f (fetchAndInjectTrustedReference d env o) := by
  unfold fetchAndInjectTrustedReference
  split
  · exact keeps_throw _
  · refine (keeps_ask env.reference _).bind fun bytes => ?_
    split
    · exact keeps_throw _
    · exact keeps_modify fun s => hf s _

theorem keeps_fetchAndInjectCandidateScores (hf : ∀ s i, f { s with injected := i } = f s)
    (o : Opened) : Keeps f (fetchAndInjectCandidateScores d env o) := by
  unfold fetchAndInjectCandidateScores
  split
  · exact keeps_throw _
  · exact (keeps_ask env.scores _).bind fun _ => keeps_modify fun s => hf s _

theorem keeps_fetchSignals (hf : ∀ s i, f { s with injected := i } = f s) (o : Opened) :
    Keeps f (fetchSignals d env o) := by
  apply Keeps.bind
  · split
    · exact keeps_fetchAndInjectTrustedReference hf o
    · exact keeps_pure ()
  · intro _
    split
    · exact keeps_fetchAndInjectCandidateScores hf o
    · exact keeps_pure ()

/-- Filtering touches the verdict and what is injected, and nothing else. -/
theorem keeps_filterBatch (hv : ∀ s v, f { s with roundVerdict := v } = f s)
    (hi : ∀ s i, f { s with injected := i } = f s) (o : Opened)
    (flush : FlushResult Submission) : Keeps f (filterBatch d env o flush) := by
  refine (keeps_checkBatchRequirement hv _ _).bind fun _ => keeps_get.bind fun s => ?_
  split
  · exact keeps_throw _
  · exact (keeps_fetchSignals hi o).bind fun _ => keeps_pure _

end Keeps

theorem keeps_openRound : Keeps Server.core (openRound d env) := by
  refine keeps_get.bind fun _ => keeps_checkPrivacyBudget.bind fun _ =>
    keeps_loadLatestWeights.bind fun _ => (keeps_ask env.active _).bind fun _ =>
    (keeps_checkBatchRequirement (fun _ _ => rfl) _ _).bind fun _ =>
    Keeps.bind ?_ fun _ => keeps_pure _
  exact keeps_modify fun _ => rfl

theorem keeps_flushRound (o : Opened) : Keeps Server.core (flushRound env o : RoundM κ _) := by
  unfold flushRound
  dsimp only
  split
  · exact keeps_throw _
  · apply Keeps.bind
    · exact keeps_modify fun _ => rfl
    · exact fun _ => keeps_pure _

/-- Preparing a batch changes nothing durable and nothing charged. -/
theorem keeps_prepareBatch : Keeps Server.core (prepareBatch d env) :=
  keeps_openRound.bind fun o => (keeps_flushRound o).bind fun flush =>
    keeps_filterBatch (fun _ _ => rfl) (fun _ _ => rfl) o flush

/-- What a prepared batch came from. -/
structure PreparedFrom (d : Deployment κ) (env : RoundEnv) (s : Server κ) (p : Prepared) :
    Prop where
  round : p.opened.round = s.round
  gate : d.config.accountingScope.value = .global →
    d.config.budgetExhaustedAction.value = .halt → d.budgetExhausted s.accountant.rounds = false
  loaded : s.store.loadLatestWeights = .ok p.opened.weights
  selection : ∃ active, env.active = .value active ∧ p.opened.numActive = active.length ∧
    p.opened.numSelected = (d.selector.select env.entropy active
      ((quorumOverride d).getD active.length) s.round).length
  submitted : p.numSubmitted = (env.flushed s.round).length
  requirement : meetsRequirement d.config.aggregator.value d.config.robustByzantineFraction.value
    ((env.flushed s.round).length % 2^32) = true
  batch : aggregationBatch d.config d.budgetExhausted s.accountant (env.flushed s.round) =
    .ok p.batch

theorem ask_ok_iff {ε α : Type} {reply : Reply ε α} {wrap : ε → ServerError} {a : α} :
    (ask reply wrap : RoundM κ α) s = .ok a t ↔ reply = .value a ∧ t = s := by
  cases reply <;> simp [ask, eq_comm]

theorem checkPrivacyBudget_ok (h : checkPrivacyBudget d s = .ok () t) : t = s ∧
    (d.config.accountingScope.value = .global →
      d.config.budgetExhaustedAction.value = .halt →
      d.budgetExhausted s.accountant.rounds = false) := by
  unfold checkPrivacyBudget at h
  obtain ⟨s',t',hs,h⟩ := bind_ok_iff.mp h
  cases hs
  split_ifs at h with hscope hex
  · cases h
    exact ⟨rfl,fun hg => absurd hg hscope⟩
  · cases h
    exact ⟨rfl,fun _ _ => by simpa using hex⟩
  · cases hact : d.config.budgetExhaustedAction.value with
    | halt =>
      rw [hact] at h
      cases h
    | continueWithoutGuarantee =>
      rw [hact] at h
      cases h
      exact ⟨rfl,fun _ hh => nomatch hh⟩

theorem checkBatchRequirement_ok {round batch : ℕ}
    (h : checkBatchRequirement d round batch s = .ok () t) :
    meetsRequirement d.config.aggregator.value d.config.robustByzantineFraction.value
      (batch % 2^32) = true := by
  unfold checkBatchRequirement at h
  cases hreq : batchRequirement d.config.aggregator.value
      d.config.robustByzantineFraction.value (batch % 2^32) with
  | none =>
    rw [meetsRequirement, hreq]
    rfl
  | some req =>
    rw [meetsRequirement, hreq]
    rw [hreq] at h
    by_cases hsat : req.satisfiedBy (batch % 2^32) = true
    · exact hsat
    · simp only [hsat] at h
      cases h

theorem loadLatestWeights_ok {w : List F32} (h : (loadLatestWeights env : RoundM κ _) s = .ok w t) :
    s.store.loadLatestWeights = .ok w ∧ t = s := by
  obtain ⟨_,s₁,hask,h₁⟩ := bind_ok_iff.mp h
  obtain ⟨_,rfl⟩ := ask_ok_iff.mp hask
  obtain ⟨s₂,t₂,hget,h₂⟩ := bind_ok_iff.mp h₁
  cases hget
  cases hw : s₁.store.loadLatestWeights with
  | ok w' =>
    rw [hw] at h₂
    cases h₂
    exact ⟨rfl,rfl⟩
  | error e =>
    rw [hw] at h₂
    cases h₂

theorem openRound_ok {o : Opened} (h : openRound d env s = .ok o t) : o.round = s.round ∧
    (d.config.accountingScope.value = .global → d.config.budgetExhaustedAction.value = .halt →
      d.budgetExhausted s.accountant.rounds = false) ∧
    s.store.loadLatestWeights = .ok o.weights ∧
    ∃ active, env.active = .value active ∧ o.numActive = active.length ∧
      o.numSelected = (d.selector.select env.entropy active
        ((quorumOverride d).getD active.length) s.round).length := by
  obtain ⟨s₀,t₀,hget,h⟩ := bind_ok_iff.mp h
  cases hget
  obtain ⟨_,t₁,hbudget,h⟩ := bind_ok_iff.mp h
  obtain ⟨rfl,hgate⟩ := checkPrivacyBudget_ok hbudget
  obtain ⟨w,t₂,hload,h⟩ := bind_ok_iff.mp h
  obtain ⟨hw,rfl⟩ := loadLatestWeights_ok hload
  obtain ⟨active,t₃,hactive,h⟩ := bind_ok_iff.mp h
  obtain ⟨ha,rfl⟩ := ask_ok_iff.mp hactive
  obtain ⟨_,t₄,_,h⟩ := bind_ok_iff.mp h
  cases h
  exact ⟨rfl,hgate,hw,active,ha,rfl,rfl⟩

theorem flushRound_ok {o : Opened} {flush : FlushResult Submission}
    (h : (flushRound env o : RoundM κ _) s = .ok flush t) :
    flush.deltas = env.flushed o.round := by
  unfold flushRound at h
  split_ifs at h
  · cases h
  · cases h
    rw [RoundBuffer.awaitFlush_new]
    rfl

theorem filterBatch_ok {o : Opened} {flush : FlushResult Submission} {p : Prepared}
    (h : filterBatch d env o flush s = .ok p t) : p.opened = o ∧
      p.numSubmitted = flush.deltas.length ∧
      meetsRequirement d.config.aggregator.value d.config.robustByzantineFraction.value
        (flush.deltas.length % 2^32) = true ∧
      aggregationBatch d.config d.budgetExhausted s.accountant flush.deltas = .ok p.batch := by
  obtain ⟨_,t₁,hreq,h⟩ := bind_ok_iff.mp h
  have hacc : t₁.accountant = s.accountant :=
    (keeps_checkBatchRequirement (f := Server.accountant) (fun _ _ => rfl) _ _).ok hreq
  obtain ⟨s₁,t₂,hget,h⟩ := bind_ok_iff.mp h
  cases hget
  rw [hacc] at h
  cases hb : aggregationBatch d.config d.budgetExhausted s.accountant flush.deltas with
  | error e =>
    rw [hb] at h
    cases h
  | ok batch =>
    rw [hb] at h
    obtain ⟨_,t₃,_,h⟩ := bind_ok_iff.mp h
    cases h
    exact ⟨rfl,rfl,checkBatchRequirement_ok hreq,rfl⟩

theorem prepareBatch_ok {p : Prepared} (h : prepareBatch d env s = .ok p t) :
    PreparedFrom d env s p := by
  obtain ⟨o,t₁,hopen,h⟩ := bind_ok_iff.mp h
  obtain ⟨flush,t₂,hflush,h⟩ := bind_ok_iff.mp h
  obtain ⟨hr,hgate,hw,hsel⟩ := openRound_ok hopen
  have hd := flushRound_ok hflush
  have hcore := (keeps_flushRound o).ok hflush |>.trans (keeps_openRound.ok hopen)
  have hacc : t₂.accountant = s.accountant := congrArg Core.accountant hcore
  obtain ⟨rfl,hn,hreq,hb⟩ := filterBatch_ok h
  rw [hd, hr] at hn hreq hb
  rw [hacc] at hb
  exact ⟨hr,hgate,hw,hsel,hn,hreq,hb⟩

section Signals
variable {o : Opened}

/-- What the sidecar's reference is stored with: the weights the round dispatched. -/
theorem fetchAndInjectTrustedReference_ok
    (h : fetchAndInjectTrustedReference d env o s = .ok () t) :
    ∃ reference, t = { s with
      injected := { s.injected with reference := some ⟨o.weights,reference⟩ } } := by
  unfold fetchAndInjectTrustedReference at h
  split_ifs at h
  · cases h
  · obtain ⟨bytes,t₁,hask,hdecode⟩ := bind_ok_iff.mp h
    obtain ⟨_,rfl⟩ := ask_ok_iff.mp hask
    cases hw : decodeWeights bytes with
    | error e =>
      rw [hw] at hdecode
      cases hdecode
    | ok reference =>
      rw [hw] at hdecode
      cases hdecode
      exact ⟨reference,rfl⟩

theorem fetchAndInjectCandidateScores_ok
    (h : fetchAndInjectCandidateScores d env o s = .ok () t) :
    ∃ scores, t = { s with
      injected := { s.injected with scores := some ⟨o.weights,scores⟩ } } := by
  unfold fetchAndInjectCandidateScores at h
  split_ifs at h
  · cases h
  · obtain ⟨scores,t₁,hask,hinject⟩ := bind_ok_iff.mp h
    obtain ⟨_,rfl⟩ := ask_ok_iff.mp hask
    cases hinject
    exact ⟨scores,rfl⟩

/-- What a method asks for is there, over the weights the round dispatched. -/
def SignalsOver (d : Deployment κ) (weights : List F32) (injected : Injected) : Prop :=
  (d.aggregator.requiresTrustedReference = true →
    ∃ reference, injected.reference = some ⟨weights,reference⟩) ∧
  (d.aggregator.requiresCandidateScores = true → ∃ scores, injected.scores = some ⟨weights,scores⟩)

theorem fetchSignals_ok (h : fetchSignals d env o s = .ok () t) :
    SignalsOver d o.weights t.injected := by
  obtain ⟨_,t₁,hreference,h⟩ := bind_ok_iff.mp h
  constructor
  · intro hr
    rw [if_pos hr] at hreference
    obtain ⟨reference,rfl⟩ := fetchAndInjectTrustedReference_ok hreference
    split_ifs at h
    · obtain ⟨scores,rfl⟩ := fetchAndInjectCandidateScores_ok h
      exact ⟨reference,rfl⟩
    · cases h
      exact ⟨reference,rfl⟩
  · intro hr
    rw [if_pos hr] at h
    obtain ⟨scores,rfl⟩ := fetchAndInjectCandidateScores_ok h
    exact ⟨scores,rfl⟩

theorem prepareBatch_signals {p : Prepared} (h : prepareBatch d env s = .ok p t) :
    SignalsOver d p.opened.weights t.injected := by
  obtain ⟨o,t₁,hopen,h⟩ := bind_ok_iff.mp h
  obtain ⟨flush,t₂,hflush,h⟩ := bind_ok_iff.mp h
  obtain ⟨_,t₃,_,h⟩ := bind_ok_iff.mp h
  obtain ⟨s₁,t₄,hget,h⟩ := bind_ok_iff.mp h
  cases hb : aggregationBatch d.config d.budgetExhausted s₁.accountant flush.deltas with
  | error e =>
    rw [hb] at h
    cases h
  | ok batch =>
    rw [hb] at h
    obtain ⟨_,t₅,hsignals,h⟩ := bind_ok_iff.mp h
    cases h
    exact fetchSignals_ok hsignals

end Signals

section Commit
variable {p : Prepared}

/-- The aggregator's answer to a batch in a state. -/
def aggregateAnswer (d : Deployment κ) (s : Server κ) (batch : List ClientDelta) :
    Except AggregatorError (List F32) :=
  (d.aggregator.aggregate s.aggregatorState s.injected batch).1

/-- What the aggregator's call panics with. -/
def aggregatePanics (d : Deployment κ) (s : Server κ) (batch : List ClientDelta) : Option String :=
  d.aggregator.panics s.aggregatorState s.injected batch

/-- The state the aggregator's call leaves. -/
def aggregated (d : Deployment κ) (s : Server κ) (batch : List ClientDelta) : Server κ :=
  { s with aggregatorState := (d.aggregator.aggregate s.aggregatorState s.injected batch).2.1
           injected := (d.aggregator.aggregate s.aggregatorState s.injected batch).2.2 }

/-- What this attempt costs. -/
def Prepared.cost (d : Deployment κ) (p : Prepared) : RoundCost :=
  roundCost d p.opened.numSelected p.opened.numActive

def Prepared.admitted (p : Prepared) : List String := p.batch.map ClientDelta.clientId

/-- The state in which the log rows are written: checkpointed and charged. -/
def committed (d : Deployment κ) (s : Server κ) (p : Prepared) (weights : List F32) : Server κ :=
  ((aggregated d s p.batch).checkpointed p.opened.round weights p.batch).charged (p.cost d)
    p.admitted

/-- The state of a completed round. -/
def Server.advanced (s : Server κ) (round : ℕ) : Server κ :=
  { s with round := round+1, currentBuffer := none }

def Prepared.summary (p : Prepared) : RoundSummary :=
  ⟨p.opened.round,p.flushReason,p.opened.numSelected,p.numSubmitted,p.batch.length⟩

theorem aggregate_apply (batch : List ClientDelta) : aggregate d batch s =
    match aggregatePanics d s batch with
    | some message => .error (.panic message) s
    | none =>
      match aggregateAnswer d s batch with
      | .ok weights => .ok weights (aggregated d s batch)
      | .error e => .error (.err (.aggregator e)) (aggregated d s batch) := by
  unfold aggregatePanics aggregateAnswer aggregated aggregate
  rw [bind_apply]
  change (match d.aggregator.panics s.aggregatorState s.injected batch with
    | some message => throw (.panic message)
    | none => _ : RoundM κ (List F32)) s = _
  cases d.aggregator.panics s.aggregatorState s.injected batch with
  | some message => rfl
  | none =>
    obtain ⟨result,state,injected⟩ := d.aggregator.aggregate s.aggregatorState s.injected batch
    cases result <;> rfl

/-- What a write that did not succeed stops the attempt with. -/
def WriteOutcome.stop : WriteOutcome → Option Stop
  | .ok => none
  | .fail _ e => some (.err (.store e))
  | .crash _ => some .crash

/-- The state after a write, whatever the caller was told. -/
def WriteOutcome.run (outcome : WriteOutcome) (effect : Server κ → Server κ) (s : Server κ) :
    Server κ := if outcome.applied then effect s else s

theorem perform_apply (outcome : WriteOutcome) (effect : Server κ → Server κ) :
    perform outcome effect s =
      match outcome with
      | .ok => .ok () (effect s)
      | .fail _ e => .error (.err (.store e)) (outcome.run effect s)
      | .crash _ => .error .crash (outcome.run effect s) := by
  cases outcome <;> rfl

/-- Committing, one write after the other. -/
theorem commitRound_apply : commitRound d env p s =
    match aggregatePanics d s p.batch with
    | some message => .error (.panic message) s
    | none =>
      match aggregateAnswer d s p.batch with
      | .error e => .error (.err (.aggregator e)) (aggregated d s p.batch)
      | .ok weights =>
        let written := env.save.run (fun s => s.checkpointed p.opened.round weights p.batch)
          (aggregated d s p.batch)
        match env.save with
        | .fail _ e => .error (.err (.store e)) written
        | .crash _ => .error .crash written
        | .ok =>
          match appendRows d env (p.cost d) p.admitted (committed d s p weights) with
          | .error stop t => .error stop t
          | .ok _ t => .ok p.summary (t.advanced p.opened.round) := by
  unfold commitRound
  rw [bind_apply, aggregate_apply]
  cases aggregatePanics d s p.batch with
  | some message => rfl
  | none =>
  dsimp only
  cases aggregateAnswer d s p.batch with
  | error e => rfl
  | ok weights =>
    dsimp only
    rw [bind_apply, perform_apply]
    cases env.save with
    | fail applied e => rfl
    | crash applied => rfl
    | ok =>
      have hrecord : recordRoundPrivacyCost d env (roundCost d p.opened.numSelected
          p.opened.numActive) (p.batch.map ClientDelta.clientId)
          ((aggregated d s p.batch).checkpointed p.opened.round weights p.batch) =
          appendRows d env (p.cost d) p.admitted (committed d s p weights) := rfl
      dsimp only
      rw [bind_apply, hrecord]
      cases appendRows d env (p.cost d) p.admitted (committed d s p weights) with
      | ok u t => rfl
      | error stop t => rfl

end Commit

section Rows
variable {cost : RoundCost} {admitted : List String}

/-- The log with the rows of one round. -/
def PrivacyRoundLog.recorded (log : PrivacyRoundLog) (cost : RoundCost) (admitted : List String) :
    PrivacyRoundLog :=
  { rounds := log.rounds++[cost]
    clientRounds := log.clientRounds++admitted.map fun c => (c,cost) }

/-- The writes of a round's log rows, in order: its own row, then the clients'. -/
def RoundEnv.row (env : RoundEnv) : ℕ → WriteOutcome
  | 0 => env.appendRound
  | k+1 => env.appendClient k

/-- All rows of a round with `n` admitted deltas become durable: the attempt is not cut before
its last row took effect. -/
def RoundEnv.RowsDurable (env : RoundEnv) (n : ℕ) : Prop :=
  ∀ k ≤ n, if k = n then (env.row k).applied = true else env.row k = .ok

instance (env : RoundEnv) (n : ℕ) : Decidable (env.RowsDurable n) :=
  inferInstanceAs (Decidable (∀ k ≤ n, if k = n then (env.row k).applied = true else env.row k = .ok))

/-- What the rows of a round with `n` admitted deltas stop the attempt with, if they do. -/
def RoundEnv.rowsStop (env : RoundEnv) (n : ℕ) : Option Stop :=
  ((List.range (n+1)).map env.row).findSome? WriteOutcome.stop

/-- Everything but the log. -/
def Server.unlogged (s : Server κ) : Core κ := { s.core with log := .empty }

theorem keeps_perform {τ : Type} {f : Server κ → τ} (outcome : WriteOutcome)
    {effect : Server κ → Server κ} (h : ∀ s, f (effect s) = f s) :
    Keeps f (perform outcome effect) := by
  intro s
  have hrun : f (outcome.run effect s) = f s := by
    unfold WriteOutcome.run
    split
    · exact h s
    · rfl
  rw [perform_apply]
  cases outcome with
  | ok => exact h s
  | fail applied e => exact hrun
  | crash applied => exact hrun

theorem keeps_appendClients {τ : Type} {f : Server κ → τ}
    (hf : ∀ s log, f { s with log := log } = f s) (outcome : ℕ → WriteOutcome) (i : ℕ) :
    Keeps f (appendClients outcome cost i admitted : RoundM κ Unit) := by
  induction admitted generalizing i with
  | nil => exact keeps_pure ()
  | cons c admitted ih =>
    exact Keeps.bind (keeps_perform _ fun s => hf s _) fun _ => ih (i+1)

/-- Writing the rows touches the log and nothing else. -/
theorem keeps_appendRows_of {τ : Type} {f : Server κ → τ}
    (hf : ∀ s log, f { s with log := log } = f s) : Keeps f (appendRows d env cost admitted) := by
  unfold appendRows
  split
  · exact Keeps.bind (keeps_perform _ fun s => hf s _) fun _ => keeps_appendClients hf _ 0
  · exact keeps_pure ()

theorem keeps_appendRows : Keeps Server.unlogged (appendRows d env cost admitted) :=
  keeps_appendRows_of fun _ _ => rfl

/-- A state after a write, and the state a sequence reaches when its first write took effect. -/
theorem stateOf_perform_bind {β : Type} (outcome : WriteOutcome) (effect : Server κ → Server κ)
    (f : Unit → RoundM κ β) : stateOf ((perform outcome effect >>= f) s) =
      if outcome = .ok then stateOf (f () (effect s)) else outcome.run effect s := by
  rw [bind_apply, perform_apply]
  cases outcome <;> rfl

theorem stopOf_perform_bind {β : Type} (outcome : WriteOutcome) (effect : Server κ → Server κ)
    (f : Unit → RoundM κ β) : stopOf ((perform outcome effect >>= f) s) =
      outcome.stop.or (stopOf (f () (effect s))) := by
  rw [bind_apply, perform_apply]
  cases outcome <;> rfl

theorem appendClients_stop (outcome : ℕ → WriteOutcome) (i : ℕ) :
    stopOf (appendClients outcome cost i admitted s) =
      ((List.range' i admitted.length).map outcome).findSome? WriteOutcome.stop := by
  induction admitted generalizing i s with
  | nil => rfl
  | cons c admitted ih =>
    rw [appendClients, stopOf_perform_bind, ih, List.length_cons, List.range'_succ,
      List.map_cons, List.findSome?_cons]
    cases (outcome i).stop <;> rfl

/-- The log rows stop an attempt at the first of them that does not succeed. -/
theorem appendRows_stop (hp : d.persistentAccounting = true) :
    stopOf (appendRows d env cost admitted s) = env.rowsStop admitted.length := by
  rw [appendRows, if_pos hp, stopOf_perform_bind, appendClients_stop, RoundEnv.rowsStop,
    List.range_succ_eq_map, List.map_cons, List.findSome?_cons, List.map_map,
    List.range_eq_range']
  have hclients : env.row ∘ Nat.succ = env.appendClient := rfl
  have hround : env.row 0 = env.appendRound := rfl
  rw [hclients, hround]
  cases env.appendRound.stop <;> rfl

theorem appendClients_log (outcome : ℕ → WriteOutcome) (cost : RoundCost)
    (admitted : List String) (i : ℕ) (s : Server κ)
    (h : ∀ j < admitted.length, if j+1 = admitted.length then (outcome (i+j)).applied = true
      else outcome (i+j) = .ok) :
    (stateOf (appendClients outcome cost i admitted s)).log.rounds = s.log.rounds ∧
      (stateOf (appendClients outcome cost i admitted s)).log.clientRounds =
        s.log.clientRounds++admitted.map fun c => (c,cost) := by
  induction admitted generalizing i s with
  | nil => simp [appendClients, stateOf]
  | cons c admitted ih =>
    rw [appendClients, stateOf_perform_bind]
    have hi := h 0 (by simp)
    rw [Nat.add_zero] at hi
    cases admitted with
    | nil =>
      have happ : (outcome i).applied = true := by simpa using hi
      simp [WriteOutcome.run, happ, appendClients, stateOf, PrivacyRoundLog.appendRoundForClient]
    | cons c' rest =>
      have hok : outcome i = .ok := by simpa using hi
      rw [if_pos hok]
      have hrest := ih (i+1) { s with log := s.log.appendRoundForClient c cost } fun j hj => by
        have hj' := h (j+1) (by simpa using hj)
        simpa [Nat.add_assoc, Nat.add_comm 1 j] using hj'
      rw [hrest.1, hrest.2]
      simp [PrivacyRoundLog.appendRoundForClient]

/-- Once the last row took effect the log holds the whole round, however the attempt ended. -/
theorem appendRows_log (hp : d.persistentAccounting = true)
    (h : env.RowsDurable admitted.length) :
    (stateOf (appendRows d env cost admitted s)).log = s.log.recorded cost admitted := by
  have h0 := h 0 (Nat.zero_le _)
  rw [appendRows, if_pos hp, stateOf_perform_bind]
  cases admitted with
  | nil =>
    have happ : env.appendRound.applied = true := by simpa [RoundEnv.row] using h0
    simp [WriteOutcome.run, happ, appendClients, stateOf, PrivacyRoundLog.appendRound,
      PrivacyRoundLog.recorded]
  | cons c rest =>
    have hok : env.appendRound = .ok := by simpa [RoundEnv.row] using h0
    rw [if_pos hok]
    have hrest := appendClients_log env.appendClient cost (c::rest) 0
      { s with log := s.log.appendRound cost } fun j hj => by
        have hj' := h (j+1) hj
        simpa [RoundEnv.row] using hj'
    cases hl : (stateOf (appendClients env.appendClient cost 0 (c::rest)
      { s with log := s.log.appendRound cost })).log with
    | mk rounds clientRounds =>
      rw [hl] at hrest
      obtain ⟨rfl,rfl⟩ := hrest
      rfl

end Rows

/-- Everything an attempt at a round can do: stop while it prepares its batch, with nothing
durable or charged touched; be refused by the aggregator; stop at the checkpoint; stop at a log
row; or complete. `s₁` is the state in which the batch was ready. -/
inductive Attempt (d : Deployment κ) (env : RoundEnv) (s : Server κ) :
    EStateM.Result Stop (Server κ) RoundSummary → Prop
  | stopped {stop : Stop} {t : Server κ} (core : t.core = s.core) : Attempt d env s (.error stop t)
  | refused {p : Prepared} {s₁ : Server κ} {e : AggregatorError}
      (ready : prepareBatch d env s = .ok p s₁)
      (answer : aggregateAnswer d s₁ p.batch = .error e) :
      Attempt d env s (.error (.err (.aggregator e)) (aggregated d s₁ p.batch))
  | unsaved {p : Prepared} {s₁ : Server κ} {weights : List F32} {stop : Stop}
      (ready : prepareBatch d env s = .ok p s₁)
      (answer : aggregateAnswer d s₁ p.batch = .ok weights) (save : env.save.stop = some stop) :
      Attempt d env s (.error stop (env.save.run
        (fun s => s.checkpointed p.opened.round weights p.batch) (aggregated d s₁ p.batch)))
  | unrecorded {p : Prepared} {s₁ t : Server κ} {weights : List F32} {stop : Stop}
      (ready : prepareBatch d env s = .ok p s₁)
      (answer : aggregateAnswer d s₁ p.batch = .ok weights) (save : env.save = .ok)
      (rows : appendRows d env (p.cost d) p.admitted (committed d s₁ p weights) = .error stop t) :
      Attempt d env s (.error stop t)
  | completed {p : Prepared} {s₁ t : Server κ} {weights : List F32}
      (ready : prepareBatch d env s = .ok p s₁)
      (answer : aggregateAnswer d s₁ p.batch = .ok weights) (save : env.save = .ok)
      (rows : appendRows d env (p.cost d) p.admitted (committed d s₁ p weights) = .ok () t) :
      Attempt d env s (.ok p.summary (t.advanced p.opened.round))

theorem commitRound_attempt {p : Prepared} {s₁ : Server κ}
    (ready : prepareBatch d env s = .ok p s₁) : Attempt d env s (commitRound d env p s₁) := by
  rw [commitRound_apply]
  cases aggregatePanics d s₁ p.batch with
  | some message => exact .stopped (keeps_prepareBatch.ok ready)
  | none =>
  dsimp only
  cases answer : aggregateAnswer d s₁ p.batch with
  | error e => exact .refused ready answer
  | ok weights =>
    cases save : env.save with
    | fail applied e =>
      have hstop : env.save.stop = some (.err (.store e)) := by rw [save]; rfl
      have h := Attempt.unsaved ready answer hstop
      rwa [save] at h
    | crash applied =>
      have hstop : env.save.stop = some .crash := by rw [save]; rfl
      have h := Attempt.unsaved ready answer hstop
      rwa [save] at h
    | ok =>
      dsimp only
      cases rows : appendRows d env (p.cost d) p.admitted (committed d s₁ p weights) with
      | error stop t => exact .unrecorded ready answer save rows
      | ok u t => exact .completed ready answer save rows

theorem runRound_attempt (d : Deployment κ) (env : RoundEnv) (s : Server κ) :
    Attempt d env s (runRound d env s) := by
  unfold runRound
  rw [bind_apply]
  cases h : prepareBatch d env s with
  | ok p s₁ => exact commitRound_attempt h
  | error stop t => exact .stopped (keeps_prepareBatch.error h)

/-- An attempt that reaches its checkpoint and makes it durable, whatever happens afterwards. -/
theorem checkpointed_durable {p : Prepared} {s₁ : Server κ} {weights : List F32}
    (ready : prepareBatch d env s = .ok p s₁)
    (h : t.unlogged = (committed d s₁ p weights).unlogged) :
    t.store = s.store.saveCheckpoint s.round weights ∧
      t.history = s.history++[⟨s.round,weights,p.batch⟩] := by
  have core := keeps_prepareBatch.ok ready
  have hstore : s₁.store = s.store := congrArg Core.store core
  have hhistory : s₁.history = s.history := congrArg Core.history core
  rw [← hstore, ← hhistory, ← (prepareBatch_ok ready).round]
  exact ⟨congrArg Core.store h,congrArg Core.history h⟩

/-- An attempt that leaves `t` called the aggregator on the batch it prepared: it keeps the state
the call leaves, and makes nothing durable but the checkpoint of the call's answer. -/
structure CallsAggregator (d : Deployment κ) (env : RoundEnv) (s t : Server κ) (p : Prepared)
    (s₁ : Server κ) : Prop where
  ready : prepareBatch d env s = .ok p s₁
  state : t.aggregatorState = (d.aggregator.aggregate s.aggregatorState s₁.injected p.batch).2.1
  durable : t.store = s.store ∧ t.history = s.history ∨ ∃ weights,
    (d.aggregator.aggregate s.aggregatorState s₁.injected p.batch).1 = .ok weights ∧
      t.store = s.store.saveCheckpoint s.round weights ∧
      t.history = s.history++[⟨s.round,weights,p.batch⟩]

/-- It is enough to look at the state the batch was ready in, and at what follows the call. -/
theorem CallsAggregator.of_ready {p : Prepared} {s₁ : Server κ}
    (ready : prepareBatch d env s = .ok p s₁)
    (state : t.aggregatorState = (aggregated d s₁ p.batch).aggregatorState)
    (durable : t.store = s₁.store ∧ t.history = s₁.history ∨ ∃ weights,
      aggregateAnswer d s₁ p.batch = .ok weights ∧
        t.store = s₁.store.saveCheckpoint p.opened.round weights ∧
        t.history = s₁.history++[⟨p.opened.round,weights,p.batch⟩]) :
    CallsAggregator d env s t p s₁ := by
  have core := keeps_prepareBatch.ok ready
  have hstate : s₁.aggregatorState = s.aggregatorState := congrArg Core.aggregatorState core
  have hstore : s₁.store = s.store := congrArg Core.store core
  have hhistory : s₁.history = s.history := congrArg Core.history core
  rw [aggregateAnswer, hstate, hstore, hhistory, (prepareBatch_ok ready).round] at durable
  rw [aggregated, hstate] at state
  exact ⟨ready,state,durable⟩

/-- What an attempt does to the aggregator and the store: it reaches neither, or it calls the
aggregator once on the batch it prepared. -/
theorem runRound_aggregator (d : Deployment κ) (env : RoundEnv) (s : Server κ) :
    (stateOf (runRound d env s)).core = s.core ∨
      ∃ p s₁, CallsAggregator d env s (stateOf (runRound d env s)) p s₁ := by
  have h := runRound_attempt d env s
  revert h
  generalize runRound d env s = result
  intro h
  cases h with
  | stopped core => exact .inl core
  | refused ready answer => exact .inr ⟨_,_,.of_ready ready rfl (.inl ⟨rfl,rfl⟩)⟩
  | @unsaved p s₁ weights stop ready answer save =>
    refine .inr ⟨p,s₁,?_⟩
    simp only [stateOf, WriteOutcome.run]
    split
    · exact .of_ready ready rfl (.inr ⟨weights,answer,rfl,rfl⟩)
    · exact .of_ready ready rfl (.inl ⟨rfl,rfl⟩)
  | @unrecorded p s₁ t weights stop ready answer save rows =>
    have h := keeps_appendRows.error rows
    exact .inr ⟨p,s₁,.of_ready ready (congrArg Core.aggregatorState h)
      (.inr ⟨weights,answer,congrArg Core.store h,congrArg Core.history h⟩)⟩
  | @completed p s₁ t weights ready answer save rows =>
    have h := keeps_appendRows.ok rows
    exact .inr ⟨p,s₁,.of_ready ready (congrArg Core.aggregatorState h)
      (.inr ⟨weights,answer,congrArg Core.store h,congrArg Core.history h⟩)⟩

/-- What an attempt makes durable: nothing, or the checkpoint of the batch it prepared. -/
theorem runRound_durable (d : Deployment κ) (env : RoundEnv) (s : Server κ) :
    (stateOf (runRound d env s)).store = s.store ∧
      (stateOf (runRound d env s)).history = s.history ∨
    ∃ p s₁ weights, prepareBatch d env s = .ok p s₁ ∧
      (stateOf (runRound d env s)).store = s.store.saveCheckpoint s.round weights ∧
      (stateOf (runRound d env s)).history = s.history++[⟨s.round,weights,p.batch⟩] := by
  rcases runRound_aggregator d env s with core | ⟨p,s₁,hcall⟩
  · exact .inl ⟨congrArg Core.store core,congrArg Core.history core⟩
  · rcases hcall.durable with hkept | ⟨weights,_,hsaved⟩
    · exact .inl hkept
    · exact .inr ⟨p,s₁,weights,hcall.ready,hsaved⟩

/-- Only a completed attempt moves the round, and by one. -/
theorem runRound_round (d : Deployment κ) (env : RoundEnv) (s : Server κ) :
    (stateOf (runRound d env s)).round = s.round ∨
      (stateOf (runRound d env s)).round = s.round+1 := by
  have h := runRound_attempt d env s
  revert h
  generalize runRound d env s = result
  intro h
  cases h with
  | stopped core => exact .inl (congrArg Core.round core)
  | refused ready answer => exact .inl (congrArg Core.round (keeps_prepareBatch.ok ready))
  | unsaved ready answer save =>
    have core := keeps_prepareBatch.ok ready
    simp only [stateOf, WriteOutcome.run]
    split
    · exact .inl (congrArg Core.round core)
    · exact .inl (congrArg Core.round core)
  | unrecorded ready answer save rows =>
    have core := keeps_prepareBatch.ok ready
    exact .inl ((congrArg Core.round (keeps_appendRows.error rows)).trans
      (congrArg Core.round core))
  | completed ready answer save rows =>
    exact .inr (congrArg (· + 1) (prepareBatch_ok ready).round)

end ConfluxFL
