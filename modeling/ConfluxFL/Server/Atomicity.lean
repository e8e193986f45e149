import ConfluxFL.Server.Checkpoints

/-! What a failed attempt leaves behind. Everything up to the aggregator's call can be retried;
from there on an attempt changes the aggregator, the store, the accountant and the log one
after the other, and an error in between takes nothing back. -/
namespace ConfluxFL
open Fallible RoundM
variable {κ : Type} {d : Deployment κ} {env : RoundEnv} {s t : Server κ}

/-- A retry from `t` starts where an attempt from `s` did. -/
structure Unchanged (s t : Server κ) : Prop where
  round : t.round = s.round
  latest : t.store.loadLatestWeights = s.store.loadLatestWeights
  accountant : t.accountant = s.accountant
  log : t.log = s.log
  aggregatorState : t.aggregatorState = s.aggregatorState

/-- An attempt that returns an error changes nothing a retry would see. -/
def Atomic (d : Deployment κ) (env : RoundEnv) (s : Server κ) : Prop :=
  ∀ e t, runRound d env s = .error (.err e) t → Unchanged s t

/-- The aggregator's call on this batch leaves its cross-round state as it was. -/
def KeepsState (d : Deployment κ) (s : Server κ) (batch : List ClientDelta) : Prop :=
  (d.aggregator.aggregate s.aggregatorState s.injected batch).2.1 = s.aggregatorState

/-- A checkpoint at this round would not change what the store serves. -/
def ServesSame (s : Server κ) (round : ℕ) (weights : List F32) : Prop :=
  (s.store.saveCheckpoint round weights).loadLatestWeights = s.store.loadLatestWeights

/-- No error comes after an effect. Once a batch is ready, a refusal leaves the aggregator's
state alone; a failed checkpoint write follows a call that left it alone, and did not change
what the store serves; and no log row fails. A call that panics comes back with nothing. -/
def NoLateFailure (d : Deployment κ) (env : RoundEnv) (s : Server κ) : Prop :=
  ∀ p s₁, prepareBatch d env s = .ok p s₁ → aggregatePanics d s₁ p.batch = none →
    match aggregateAnswer d s₁ p.batch,env.save with
    | .error _,_ => KeepsState d s₁ p.batch
    | .ok weights,.fail applied _ => KeepsState d s₁ p.batch ∧
        (applied = true → ServesSame s₁ p.opened.round weights)
    | .ok _,.crash _ => True
    | .ok _,.ok => d.persistentAccounting = true → ∀ e, env.rowsStop p.batch.length ≠ some (.err e)

theorem unchanged_of_core (h : t.core = s.core) : Unchanged s t :=
  ⟨congrArg Core.round h,congrArg (fun c => c.store.loadLatestWeights) h,
    congrArg Core.accountant h,congrArg Core.log h,congrArg Core.aggregatorState h⟩

theorem Unchanged.trans_iff {s₁ : Server κ} (h : s₁.core = s.core) :
    Unchanged s t ↔ Unchanged s₁ t := by
  have h₁ := unchanged_of_core h
  have h₂ := unchanged_of_core h.symm
  constructor
  · intro hu
    exact ⟨hu.round.trans h₂.round,hu.latest.trans h₂.latest,hu.accountant.trans h₂.accountant,
      hu.log.trans h₂.log,hu.aggregatorState.trans h₂.aggregatorState⟩
  · intro hu
    exact ⟨hu.round.trans h₁.round,hu.latest.trans h₁.latest,hu.accountant.trans h₁.accountant,
      hu.log.trans h₁.log,hu.aggregatorState.trans h₁.aggregatorState⟩

theorem unchanged_aggregated_iff (batch : List ClientDelta) :
    Unchanged s (aggregated d s batch) ↔ KeepsState d s batch :=
  ⟨fun h => h.aggregatorState,fun h => ⟨rfl,rfl,rfl,rfl,h⟩⟩

/-- A failed checkpoint write is invisible exactly when the aggregator's call was, and the
write was lost or filed below what the store serves. -/
theorem unchanged_written_iff {round : ℕ} {weights : List F32} {batch : List ClientDelta}
    {applied : Bool} {e : StoreError} :
    Unchanged s ((WriteOutcome.fail applied e).run
      (fun s => s.checkpointed round weights batch) (aggregated d s batch)) ↔
    KeepsState d s batch ∧ (applied = true → ServesSame s round weights) := by
  cases applied with
  | true => exact ⟨fun h => ⟨h.aggregatorState,fun _ => h.latest⟩,
      fun h => ⟨rfl,h.2 rfl,rfl,rfl,h.1⟩⟩
  | false => exact ⟨fun h => ⟨h.aggregatorState,fun hf => by cases hf⟩,
      fun h => ⟨rfl,rfl,rfl,rfl,h.1⟩⟩

/-- A row that fails comes after the charge. -/
theorem not_unchanged_of_rows {p : Prepared} {weights : List F32} {stop : Stop}
    (h : appendRows d env (p.cost d) p.admitted (committed d s p weights) = .error stop t) :
    ¬Unchanged s t := by
  intro hu
  have hacc : t.accountant = (committed d s p weights).accountant :=
    congrArg Core.accountant (keeps_appendRows.error h)
  have hlen := congrArg (fun a => a.rounds.length) (hacc.symm.trans hu.accountant)
  simp [committed, Server.charged, aggregated, Server.checkpointed] at hlen

/-- An attempt whose checkpoint was written returns no error exactly when no row fails. -/
theorem rows_atomic_iff (p : Prepared) (weights : List F32) :
    (∀ e t, appendRows d env (p.cost d) p.admitted (committed d s p weights) =
      .error (.err e) t → Unchanged s t) ↔
    (d.persistentAccounting = true → ∀ e, env.rowsStop p.batch.length ≠ some (.err e)) := by
  have hlen : p.admitted.length = p.batch.length := List.length_map _
  have hstop (hp : d.persistentAccounting = true) :
      stopOf (appendRows d env (p.cost d) p.admitted (committed d s p weights)) =
        env.rowsStop p.batch.length := hlen ▸ appendRows_stop hp
  constructor
  · intro h hp e he
    have hs := (hstop hp).trans he
    cases hrows : appendRows d env (p.cost d) p.admitted (committed d s p weights) with
    | ok u t =>
      rw [hrows] at hs
      cases hs
    | error stop t =>
      rw [hrows] at hs
      cases hs
      exact not_unchanged_of_rows hrows (h e t hrows)
  · intro h e t hrows
    cases hp : d.persistentAccounting with
    | false =>
      rw [appendRows, hp] at hrows
      cases hrows
    | true =>
      have hs := hstop hp
      rw [hrows] at hs
      exact absurd hs.symm (h hp e)

theorem commitRound_atomic_iff (p : Prepared) :
    (∀ e t, commitRound d env p s = .error (.err e) t → Unchanged s t) ↔
    (aggregatePanics d s p.batch = none →
    match aggregateAnswer d s p.batch,env.save with
    | .error _,_ => KeepsState d s p.batch
    | .ok weights,.fail applied _ => KeepsState d s p.batch ∧
        (applied = true → ServesSame s p.opened.round weights)
    | .ok _,.crash _ => True
    | .ok _,.ok =>
      d.persistentAccounting = true → ∀ e, env.rowsStop p.batch.length ≠ some (.err e)) := by
  rw [commitRound_apply]
  cases aggregatePanics d s p.batch with
  | some message => exact iff_of_true nofun nofun
  | none =>
  rw [imp_iff_right rfl]
  dsimp only
  cases aggregateAnswer d s p.batch with
  | error e =>
    dsimp only
    rw [← unchanged_aggregated_iff]
    constructor
    · intro h
      exact h _ _ rfl
    · rintro h _ _ ⟨⟩
      exact h
  | ok weights =>
    cases hsave : env.save with
    | crash applied =>
      dsimp only
      refine ⟨fun _ => trivial,fun _ e t h => ?_⟩
      cases h
    | fail applied e =>
      dsimp only
      rw [← unchanged_written_iff]
      constructor
      · intro h
        exact h _ _ rfl
      · rintro h _ _ ⟨⟩
        exact h
    | ok =>
      dsimp only
      rw [← rows_atomic_iff p weights]
      cases appendRows d env (p.cost d) p.admitted (committed d s p weights) with
      | error stop t =>
        constructor
        · rintro h _ _ ⟨⟩
          exact h _ _ rfl
        · rintro h _ _ ⟨⟩
          exact h _ _ rfl
      | ok u t =>
        constructor
        · intro _ e t' h
          cases h
        · intro _ e t' h
          cases h

/-- An attempt is all or nothing exactly when no error comes after an effect. -/
theorem runRound_atomic_iff (d : Deployment κ) (env : RoundEnv) (s : Server κ) :
    Atomic d env s ↔ NoLateFailure d env s := by
  unfold Atomic NoLateFailure runRound
  rw [bind_apply]
  cases h : prepareBatch d env s with
  | error stop t =>
    refine ⟨fun _ p s₁ hp => ?_,fun _ e t' ht => ?_⟩
    · cases hp
    · cases ht
      exact unchanged_of_core (keeps_prepareBatch.error h)
  | ok p s₁ =>
    have hcore := keeps_prepareBatch.ok h
    simp only [Unchanged.trans_iff hcore]
    rw [commitRound_atomic_iff]
    constructor
    · rintro hc _ _ ⟨⟩
      exact hc
    · intro hc
      exact hc p s₁ rfl

/-- The database drops the connection when the round's privacy row is written. -/
def rowRefused : RoundEnv :=
  { RoundEnv.clean [.plain "a" 1 [F32.one] 10] with
    appendRound := .fail false (.backend "connection reset") }

/-- The checkpoint of the refused attempt stands and the accountant has been charged for it. -/
theorem not_atomic_rowRefused : ¬Atomic (Deployment.noiseless fedAvg).persistent rowRefused
    (Run.after World.step seededWorld
      [.connect (Deployment.noiseless fedAvg).persistent []]).server := by
  intro h
  have hrun : failsWith (fun stop t => stop = .err (.store (.backend "connection reset")) &&
        !t.accountant.rounds.isEmpty)
      (runRound (Deployment.noiseless fedAvg).persistent rowRefused
        (Run.after World.step seededWorld
          [.connect (Deployment.noiseless fedAvg).persistent []]).server) = true := by
    decide +kernel
  obtain ⟨stop,t,hresult,ht⟩ := exists_error_of_failsWith hrun
  rw [Bool.and_eq_true, decide_eq_true_eq] at ht
  obtain ⟨rfl,hcharged⟩ := ht
  rw [(h _ t hresult).accountant] at hcharged
  cases hcharged

end ConfluxFL
