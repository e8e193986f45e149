import ConfluxFL.Server.Checkpoints

/-! Whether the durable privacy log keeps up with the durable checkpoints. The checkpoint is
written first and its log rows follow one by one, so the log covers every checkpoint in every
run that is never cut between a checkpoint and its last row. -/
namespace ConfluxFL
open Fallible RoundM
variable {κ : Type} {d : Deployment κ} {env : RoundEnv} {s t : Server κ} {w : World κ}

/-- How many of these checkpoints were aggregated from a batch that admitted the client. -/
def admissions (history : List SavedCheckpoint) (clientId : String) : ℕ :=
  history.countP fun entry => (entry.batch.map ClientDelta.clientId).contains clientId

/-- The accountant a restart rebuilds from the log has charged a round for every checkpoint
that ever took effect, and has charged it to every client admitted to it. -/
structure Covered (s : Server κ) : Prop where
  rounds : s.history.length ≤ s.log.connectAccounting.rounds.length
  clients : ∀ c, admissions s.history c ≤ (s.log.connectAccounting.clientRounds c).length

/-- Every process that connects keeps its accounting in the log. -/
def Event.Persistent : Event κ → Prop
  | .connect d _ => d.persistentAccounting = true
  | .round _ => True

/-- An attempt whose checkpoint takes effect is not cut before its last log row has. -/
def Uncut (w : World κ) (e : Event κ) : Prop :=
  ∀ d env p s₁ weights, w.Attempts e d env → prepareBatch d env w.server = .ok p s₁ →
    aggregateAnswer d s₁ p.batch = .ok weights → env.save.applied = true →
    env.save = .ok ∧ env.RowsDurable p.batch.length

theorem admissions_append (history : List SavedCheckpoint) (entry : SavedCheckpoint)
    (c : String) : admissions (history++[entry]) c = admissions history c+
      if (entry.batch.map ClientDelta.clientId).contains c then 1 else 0 := by
  rw [admissions, List.countP_append, List.countP_singleton]
  rfl

theorem roundsOf_recorded (log : PrivacyRoundLog) (cost : RoundCost) (admitted : List String)
    (c : String) : ((log.recorded cost admitted).roundsOf c).length =
      (log.roundsOf c).length+admitted.count c := by
  have hrows : ((admitted.map fun c => (c,cost)).filter fun row => row.1 = c).length =
      admitted.count c := by
    rw [← List.countP_eq_length_filter, List.countP_map, List.count]
    congr 1
  simp only [PrivacyRoundLog.roundsOf, PrivacyRoundLog.recorded, List.filter_append,
    List.map_append, List.length_append, List.length_map, hrows]

/-- A checkpoint together with all of its rows keeps the log ahead. -/
theorem Covered.recorded (h : Covered s) (entry : SavedCheckpoint) (cost : RoundCost)
    (hhist : t.history = s.history++[entry])
    (hlog : t.log = s.log.recorded cost (entry.batch.map ClientDelta.clientId)) :
    Covered t := by
  constructor
  · have hr := h.rounds
    rw [PrivacyRoundLog.connectAccounting_rounds] at hr ⊢
    rw [hhist, hlog, List.length_append]
    simp only [PrivacyRoundLog.recorded, List.length_append, List.length_singleton]
    omega
  · intro c
    have hc := h.clients c
    rw [PrivacyRoundLog.connectAccounting_clientRounds] at hc ⊢
    rw [hhist, hlog, admissions_append, roundsOf_recorded]
    by_cases hin : (entry.batch.map ClientDelta.clientId).contains c = true
    · have hpos : 0 < (entry.batch.map ClientDelta.clientId).count c :=
        List.count_pos_iff.mpr (List.contains_iff_mem.mp hin)
      rw [if_pos hin]
      omega
    · rw [if_neg hin]
      omega

theorem Covered.of_core (h : Covered s) (hhist : t.history = s.history) (hlog : t.log = s.log) :
    Covered t := by
  constructor
  · rw [hhist, hlog]
    exact h.rounds
  · intro c
    rw [hhist, hlog]
    exact h.clients c

/-- The rows behind a checkpoint that was written, once they are all durable. -/
theorem Covered.rows (h : Covered s) (hp : d.persistentAccounting = true) {p : Prepared}
    {s₁ : Server κ} (weights : List F32) (ready : prepareBatch d env s = .ok p s₁)
    (hrows : env.RowsDurable p.batch.length) :
    Covered (stateOf (appendRows d env (p.cost d) p.admitted (committed d s₁ p weights))) := by
  have core := keeps_prepareBatch.ok ready
  have hun : (stateOf (appendRows d env (p.cost d) p.admitted (committed d s₁ p weights))).unlogged =
      (committed d s₁ p weights).unlogged := keeps_appendRows _
  have hdur : env.RowsDurable p.admitted.length := by
    rw [Prepared.admitted, List.length_map]
    exact hrows
  have hlog : (stateOf (appendRows d env (p.cost d) p.admitted (committed d s₁ p weights))).log =
      (committed d s₁ p weights).log.recorded (p.cost d) p.admitted := appendRows_log hp hdur
  have hs : s₁.log = s.log := congrArg Core.log core
  have hh : s₁.history = s.history := congrArg Core.history core
  refine h.recorded ⟨p.opened.round,weights,p.batch⟩ (p.cost d) ?_ ?_
  · rw [← hh]
    exact congrArg Core.history hun
  · rw [hlog, ← hs]
    rfl

theorem covered_runRound (h : Covered w.server) (hr : w.running = some d)
    (hp : d.persistentAccounting = true) (hcut : Uncut w (.round env)) :
    Covered (stateOf (runRound d env w.server)) := by
  have hatt := runRound_attempt d env w.server
  revert hatt
  generalize runRound d env w.server = result
  intro hatt
  cases hatt with
  | stopped core => exact h.of_core (congrArg Core.history core) (congrArg Core.log core)
  | refused ready answer =>
    have core := keeps_prepareBatch.ok ready
    exact h.of_core (congrArg Core.history core) (congrArg Core.log core)
  | @unsaved p s₁ weights stop ready answer save =>
    have core := keeps_prepareBatch.ok ready
    have happ : env.save.applied = false := by
      by_contra hne
      have hok := (hcut d env p s₁ weights ⟨hr,rfl⟩ ready answer (by simpa using hne)).1
      rw [hok] at save
      cases save
    simp only [stateOf, WriteOutcome.run, happ]
    exact h.of_core (congrArg Core.history core) (congrArg Core.log core)
  | @unrecorded p s₁ t weights stop ready answer save rows =>
    have hdur := (hcut d env p s₁ weights ⟨hr,rfl⟩ ready answer (by rw [save]; rfl)).2
    have hcov := h.rows hp weights ready hdur
    rw [rows] at hcov
    exact hcov
  | @completed p s₁ t weights ready answer save rows =>
    have hdur := (hcut d env p s₁ weights ⟨hr,rfl⟩ ready answer (by rw [save]; rfl)).2
    have hcov := h.rows hp weights ready hdur
    rw [rows] at hcov
    exact hcov.of_core rfl rfl

/-- With persistent accounting, over any number of lifetimes, retries and crashes: if no
attempt is cut between a checkpoint that took effect and its last log row, the log covers every
checkpoint in every state the run reaches. -/
theorem covered_of_uncut (w : World κ) (events : List (Event κ)) (hidle : w.running = none)
    (hhistory : w.server.history = []) (hpersistent : ∀ e ∈ events, e.Persistent)
    (hcut : Run.Always World.step Uncut w events) :
    Covered (Run.after World.step w events).server := by
  let I : World κ → Prop := fun w => Covered w.server ∧
    ∀ d, w.running = some d → d.persistentAccounting = true
  have hI : I (Run.after World.step w events) := by
    refine Run.after_of_invariant I ?_
      (hcut.and (Run.always_of_forall_mem hpersistent)) ?_
    · refine ⟨⟨by simp [hhistory],fun c => by simp [hhistory, admissions]⟩,fun d hd => ?_⟩
      rw [hidle] at hd
      cases hd
    · rintro w e ⟨hcov,hrun⟩ ⟨hcut,hper⟩
      refine World.step_invariant I e ⟨hcov,hrun⟩ ?_ ?_
      · rintro d initialWeights rfl
        refine ⟨hcov.of_core rfl rfl,?_⟩
        rintro d' ⟨⟩
        exact hper
      · rintro d env ⟨hr,rfl⟩
        refine ⟨?_,fun d' hd' => ?_⟩
        · rw [World.step_round hr]
          exact covered_runRound hcov hr (hrun d hr) hcut
        · rw [World.step_round_running hr hd']
          exact hrun d hr
  exact hI.1

section Runs

def startPersistent : Event Unit := .connect (Deployment.noiseless fedAvg).persistent []

/-- The process dies before the checkpoint reaches the database. -/
def diesBeforeCheckpoint : RoundEnv :=
  { RoundEnv.clean [.plain "a" 2 [F32.zero] 10] with save := .crash false }

/-- The process dies between the checkpoint and the round's privacy row. -/
def diesAfterCheckpoint : RoundEnv :=
  { RoundEnv.clean [.plain "a" 1 [F32.one] 10] with appendRound := .crash false }

theorem uncut_connect (d : Deployment κ) (initialWeights : List F32) :
    Uncut w (.connect d initialWeights) := by
  rintro _ _ _ _ _ ⟨_,h⟩
  cases h

theorem uncut_of_lost (h : env.save.applied = false) : Uncut w (.round env) := by
  rintro d _ p s₁ weights ⟨_,⟨⟩⟩ _ _ happ
  rw [h] at happ
  cases happ

theorem uncut_of_rows (hsave : env.save = .ok) (hrows : ∀ k, env.row k = .ok) :
    Uncut w (.round env) := by
  rintro d _ p s₁ weights ⟨_,⟨⟩⟩ _ _ _
  refine ⟨hsave,fun k _ => ?_⟩
  rw [hrows k]
  split
  · rfl
  · rfl

theorem covered_crashBeforeCheckpoint : Covered (Run.after World.step seededWorld
    [startPersistent,soloRound 1 F32.one,.round diesBeforeCheckpoint,startPersistent,
      soloRound 1 F32.zero]).server := by
  refine covered_of_uncut _ _ rfl rfl ?_ ?_
  · simp [Event.Persistent, startPersistent, soloRound, Deployment.persistent]
  · have hrows (arrivals : List Submission) (k : ℕ) : (RoundEnv.clean arrivals).row k = .ok := by
      cases k <;> rfl
    exact ⟨uncut_connect _ _,uncut_of_rows rfl (hrows _),uncut_of_lost rfl,uncut_connect _ _,
      uncut_of_rows rfl (hrows _),trivial⟩

theorem not_covered_crashAfterCheckpoint : ¬Covered (Run.after World.step seededWorld
    [startPersistent,.round diesAfterCheckpoint]).server := by
  intro h
  have hrun : (Run.after World.step seededWorld
      [startPersistent,.round diesAfterCheckpoint]).server.history.length = 1 ∧
      (Run.after World.step seededWorld
        [startPersistent,.round diesAfterCheckpoint]).server.log.rounds.length = 0 := by
    decide +kernel
  have hr := h.rounds
  rw [PrivacyRoundLog.connectAccounting_rounds] at hr
  omega

end Runs
end ConfluxFL
