import ConfluxFL.Config.Validate
import ConfluxFL.Privacy.MachineEpsilon
import ConfluxFL.Server.BatchContent
import ConfluxFL.Server.Checkpoints

/-! Whether a budget can be overspent. The gates look at the history before a round and the
round is charged after it, so a run stays within its target as long as every history that passes a
gate has a reserve for the round it lets through. Epsilon is the accountant's own, in double
precision. -/
namespace ConfluxFL
open Fallible RoundM
variable {κ : Type} {P : Platform} {d : Deployment κ} {env : RoundEnv} {s t : Server κ} {w : World κ}

section Target
variable (P d)

/-- The epsilon of a history whose groups come in this order. -/
def epsilonOf (configs rounds : List RoundCost) : F64 :=
  P.epsilonFromRounds d.config.delta.value configs rounds

/-- The gate asks whether the epsilon of the history, its groups in some order, has reached the
target. -/
def MachineGate : Prop := ∀ rounds, ∃ configs, configs.Perm rounds.dedup ∧
  d.budgetExhausted rounds = d.config.targetEpsilon.value.le (epsilonOf P d configs rounds)

/-- The same process with the gate its configuration stands for. -/
def Deployment.gated : Deployment κ :=
  { d with budgetExhausted := fun rounds =>
      d.config.targetEpsilon.value.le (epsilonOf P d rounds.dedup rounds) }

theorem machineGate_gated : MachineGate P (d.gated P) :=
  fun rounds => ⟨rounds.dedup,.refl _,rfl⟩

/-- A history passes the gate, in some order of its groups. -/
def Passes (rounds : List RoundCost) : Prop := ∃ configs, configs.Perm rounds.dedup ∧
  d.config.targetEpsilon.value.le (epsilonOf P d configs rounds) = false

/-- A history is within the target, in every order of its groups. -/
def WithinTarget (rounds : List RoundCost) : Prop := ∀ configs, configs.Perm rounds.dedup →
  (epsilonOf P d configs rounds).le d.config.targetEpsilon.value = true

/-- Some order of the grid has room for `k` more rounds of this cost: what each recorded round cost
there, the coming ones and the conversion stay below the target, with a margin for the roundings. -/
def Reserve (margin : ℝ) (rounds : List RoundCost) (k : ℕ) (cost : RoundCost) : Prop :=
  ∃ alpha ∈ Platform.rdpOrders,
    P.Numbers d.config.delta.value alpha (rounds++List.replicate k cost) ∧
    P.spent alpha rounds+k*(P.costAt alpha cost).toReal+
        (P.conversion alpha d.config.delta.value).toReal+
          margin*P.termSize d.config.delta.value alpha (rounds++List.replicate k cost) ≤
      d.config.targetEpsilon.value.toReal

/-- What the roundings of one epsilon amount to, relative to its terms. -/
noncomputable def roundingMargin : ℝ := 1/((2^18 : ℕ) : ℝ)

/-- What the configured scope promises of a state: the experiment's epsilon under a halting
global budget, every client's under a per-client one. -/
def WithinBudget (s : Server κ) : Prop :=
  (d.config.accountingScope.value = .global → d.config.budgetExhaustedAction.value = .halt →
    WithinTarget P d s.accountant.rounds) ∧
  (d.config.accountingScope.value = .perClient → ∀ c,
    WithinTarget P d (s.accountant.clientRounds c))

/-- The cost of a round in which these clients are active: its rate is the part of them the
selector draws. -/
def drawnCost (env : RoundEnv) (round : ℕ) (active : List String) : RoundCost :=
  roundCost d (d.selector.select env.entropy active ((quorumOverride d).getD active.length)
    round).length active.length

/-- The attempt gets as far as its checkpoint. -/
def Checkpointed (env : RoundEnv) (s : Server κ) : Prop := ∃ p s₁ weights,
  prepareBatch d env s = .ok p s₁ ∧ aggregateAnswer d s₁ p.batch = .ok weights ∧ env.save = .ok

end Target

/-- Whenever an attempt completes, the budget is not overspent. -/
def BudgetLaw (P : Platform) (w : World κ) (e : Event κ) : Prop :=
  ∀ d env summary t, w.Attempts e d env → runRound d env w.server = .ok summary t →
    WithinBudget P d t

/-- A process starts with a valid configuration and the gate it stands for. -/
def Event.Sound (P : Platform) : Event κ → Prop
  | .connect d _ => d.config.accepted = true ∧ MachineGate P d
  | .round _ => True

/-- What is kept in reserve for a round over this batch by the histories that pass the gate: one
round's cost by the experiment's, and by a client's the cost of each of its updates. -/
def Reserved (P : Platform) (margin : ℝ) (d : Deployment κ) (accountant : RdpAccountant)
    (cost : RoundCost) (batch : List ClientDelta) : Prop :=
  (d.config.accountingScope.value = .global → d.config.budgetExhaustedAction.value = .halt →
    Passes P d accountant.rounds → Reserve P d margin accountant.rounds 1 cost) ∧
  (d.config.accountingScope.value = .perClient → ∀ c ∈ batch.map ClientDelta.clientId,
    Passes P d (accountant.clientRounds c) →
      Reserve P d margin (accountant.clientRounds c) ((batch.map ClientDelta.clientId).count c) cost)

/-- A start replays no client history above its own target, and a round that is about to be
charged finds its reserve. -/
def Affordable (P : Platform) (w : World κ) : Event κ → Prop
  | .connect d _ => d.config.accountingScope.value = .perClient →
      ∀ c, (startingAccountant d w.server.log).clientRounds c ≠ [] →
        WithinTarget P d ((startingAccountant d w.server.log).clientRounds c)
  | .round env => ∀ d active batch, w.running = some d → Checkpointed d env w.server →
      env.active = .value active →
      aggregationBatch d.config d.budgetExhausted w.server.accountant
        (env.flushed w.server.round) = .ok batch →
      Reserved P roundingMargin d w.server.accountant (drawnCost d env w.server.round active) batch

section Target
variable {rounds : List RoundCost} {k : ℕ} {cost : RoundCost}

theorem spent_append_replicate (P : Platform) (alpha : F64) (rounds : List RoundCost) (k : ℕ)
    (cost : RoundCost) : P.spent alpha (rounds++List.replicate k cost) =
      P.spent alpha rounds+k*(P.costAt alpha cost).toReal := by
  rw [Platform.spent, List.map_append, List.sum_append, List.map_replicate, List.sum_replicate,
    nsmul_eq_mul]
  rfl

/-- Rounds that have a reserve are within the target once they are recorded. -/
theorem withinTarget_of_reserve (hk : k ≠ 0) (ht : d.config.targetEpsilon.value.isFinite = true)
    (h : Reserve P d roundingMargin rounds k cost) :
    WithinTarget P d (rounds++List.replicate k cost) := by
  obtain ⟨alpha,halpha,hnumbers,hle⟩ := h
  intro configs hconfigs
  refine (Platform.epsilonFromRounds_le_iff (by simp [hk]) ht).mpr ⟨alpha,halpha,?_⟩
  have herror := Platform.error_epsilonAt hconfigs hnumbers
  rw [F64.le_eq_toReal (Platform.holdsSum_epsilonAt hconfigs hnumbers).isFinite ht,
    decide_eq_true_iff]
  rw [spent_append_replicate] at herror
  rw [roundingMargin] at hle
  linarith [(abs_le.mp herror).2]

/-- Rounds that are within the target once they are recorded had a reserve, up to the roundings. -/
theorem reserve_of_withinTarget (hk : k ≠ 0) (ht : d.config.targetEpsilon.value.isFinite = true)
    (hnumbers : ∀ alpha ∈ Platform.rdpOrders,
      P.Numbers d.config.delta.value alpha (rounds++List.replicate k cost))
    (h : WithinTarget P d (rounds++List.replicate k cost)) :
    Reserve P d (-roundingMargin) rounds k cost := by
  obtain ⟨alpha,halpha,hle⟩ := (Platform.epsilonFromRounds_le_iff (by simp [hk]) ht).mp
    (h _ (.refl _))
  refine ⟨alpha,halpha,hnumbers alpha halpha,?_⟩
  have herror := Platform.error_epsilonAt (.refl _) (hnumbers alpha halpha)
  rw [F64.le_eq_toReal (Platform.holdsSum_epsilonAt (.refl _) (hnumbers alpha halpha)).isFinite ht,
    decide_eq_true_iff] at hle
  rw [spent_append_replicate] at herror
  rw [roundingMargin]
  linarith [(abs_le.mp herror).1]

theorem withinTarget_nil (h : d.config.accepted = true) : WithinTarget P d [] := by
  intro configs _
  have hpos := (d.config.targetEpsilon_of_accepted h).1
  have hzero : epsilonOf P d configs [] = 0.0 := by
    rw [epsilonOf, Platform.epsilonFromRounds, if_pos rfl]
  have hvalue : (0.0 : F64).toReal = 0 := (F64.toReal_eq _).trans Rat.cast_zero
  rw [hzero, F64.le_eq_toReal (by decide) (d.config.targetEpsilon_of_accepted h).2, hvalue]
  exact decide_eq_true (F64.toReal_nonneg_of_pos hpos)

theorem MachineGate.passes (h : MachineGate P d) (hb : d.budgetExhausted rounds = false) :
    Passes P d rounds := by
  obtain ⟨configs,hconfigs,hgate⟩ := h rounds
  exact ⟨configs,hconfigs,hgate.symm.trans hb⟩

end Target

section Charge

@[simp] theorem charged_rounds (s : Server κ) (cost : RoundCost) (admitted : List String) :
    (s.charged cost admitted).accountant.rounds = s.accountant.rounds++[cost] := by
  simp [Server.charged]

theorem charged_clientRounds (s : Server κ) (cost : RoundCost) (admitted : List String)
    (c : String) : (s.charged cost admitted).accountant.clientRounds c =
      s.accountant.clientRounds c++List.replicate (admitted.count c) cost := by
  have hrows : ((admitted.map fun c => (c,cost)).filter fun row => row.1 = c).map Prod.snd =
      List.replicate (admitted.count c) cost := by
    induction admitted with
    | nil => rfl
    | cons a admitted ih =>
      by_cases ha : a = c
      · simpa [ha, List.replicate_succ] using ih
      · simpa [ha] using ih
  simp only [Server.charged, RdpAccountant.recordClients_clientRounds, hrows,
    RdpAccountant.recordRound_clientRounds]

/-- An attempt leaves the accountant alone, or charges the batch it prepared. -/
theorem runRound_accountant (d : Deployment κ) (env : RoundEnv) (s : Server κ) :
    (stateOf (runRound d env s)).accountant = s.accountant ∧
      (∀ summary t, runRound d env s ≠ .ok summary t) ∨
    ∃ p s₁ weights, prepareBatch d env s = .ok p s₁ ∧
      aggregateAnswer d s₁ p.batch = .ok weights ∧ env.save = .ok ∧
      (stateOf (runRound d env s)).accountant = (s.charged (p.cost d) p.admitted).accountant := by
  have h := runRound_attempt d env s
  revert h
  generalize runRound d env s = result
  intro h
  cases h with
  | stopped core => exact .inl ⟨congrArg Core.accountant core,fun _ _ h => by cases h⟩
  | refused ready answer =>
    have core := keeps_prepareBatch.ok ready
    exact .inl ⟨congrArg Core.accountant core,fun _ _ h => by cases h⟩
  | unsaved ready answer save =>
    have core := keeps_prepareBatch.ok ready
    refine .inl ⟨?_,fun _ _ h => by cases h⟩
    simp only [stateOf, WriteOutcome.run]
    split
    · exact congrArg Core.accountant core
    · exact congrArg Core.accountant core
  | @unrecorded p s₁ t weights stop ready answer save rows =>
    have hacc : s₁.accountant = s.accountant :=
      congrArg Core.accountant (keeps_prepareBatch.ok ready)
    refine .inr ⟨p,s₁,weights,ready,answer,save,?_⟩
    rw [Server.charged, ← hacc]
    exact congrArg Core.accountant (keeps_appendRows.error rows)
  | @completed p s₁ t weights ready answer save rows =>
    have hacc : s₁.accountant = s.accountant :=
      congrArg Core.accountant (keeps_prepareBatch.ok ready)
    refine .inr ⟨p,s₁,weights,ready,answer,save,?_⟩
    rw [Server.charged, ← hacc]
    exact congrArg Core.accountant (keeps_appendRows.ok rows)

/-- Under a per-client budget every admitted client passed its own gate. -/
theorem admitted_inBudget {p : Prepared} (h : PreparedFrom d env s p)
    (hscope : d.config.accountingScope.value = .perClient) {c : String} (hc : c ∈ p.admitted) :
    d.budgetExhausted (s.accountant.clientRounds c) = false := by
  obtain ⟨b,hb,rfl⟩ := List.mem_map.mp hc
  rw [(aggregationBatch_ok_iff.mp h.batch).2] at hb
  have hin := inBudget_of_mem_entries hb
  simpa [inBudget, hscope] using hin

end Charge

/-- What a charge leaves within budget when every history that passed its gate has a reserve. -/
theorem withinBudget_charged {p : Prepared} (hgate : MachineGate P d)
    (ht : d.config.targetEpsilon.value.isFinite = true) (hp : PreparedFrom d env s p)
    (hclients : d.config.accountingScope.value = .perClient →
      ∀ c, WithinTarget P d (s.accountant.clientRounds c))
    (hreserved : Reserved P roundingMargin d s.accountant (p.cost d) p.batch) :
    WithinBudget P d (s.charged (p.cost d) p.admitted) := by
  constructor
  · intro hscope hhalt
    have hreserve := hreserved.1 hscope hhalt (hgate.passes (hp.gate hscope hhalt))
    rw [charged_rounds]
    exact withinTarget_of_reserve one_ne_zero ht hreserve
  · intro hscope c
    rw [charged_clientRounds]
    by_cases hc : c ∈ p.admitted
    · have hreserve := hreserved.2 hscope c hc (hgate.passes (admitted_inBudget hp hscope hc))
      exact withinTarget_of_reserve (List.count_pos_iff.mpr hc).ne' ht hreserve
    · rw [List.count_eq_zero_of_not_mem hc, List.replicate_zero, List.append_nil]
      exact hclients hscope c

/-- The cost an attempt is charged is that of the round its selector draws. -/
theorem PreparedFrom.cost_eq {p : Prepared} (hp : PreparedFrom d env s p) {active : List String}
    (hactive : env.active = .value active) : p.cost d = drawnCost d env s.round active := by
  obtain ⟨active',hactive',hnum,hsel⟩ := hp.selection
  obtain rfl : active = active' := by
    rw [hactive] at hactive'
    cases hactive'
    rfl
  rw [Prepared.cost, hnum, hsel]
  rfl

/-- A running process has its gate and a finite target, and no client of its accountant is above
target. -/
def Gated (P : Platform) (w : World κ) : Prop :=
  ∀ d, w.running = some d → MachineGate P d ∧ d.config.targetEpsilon.value.isFinite = true ∧
    (d.config.accountingScope.value = .perClient →
      ∀ c, WithinTarget P d (w.server.accountant.clientRounds c))

/-- What an attempt does to the accountant under the gate. -/
theorem Gated.attempt (hI : Gated P w) (hr : w.running = some d)
    (haff : Affordable P w (.round env)) :
    (∀ summary t, runRound d env w.server = .ok summary t → WithinBudget P d t) ∧
    (d.config.accountingScope.value = .perClient →
      ∀ c, WithinTarget P d ((stateOf (runRound d env w.server)).accountant.clientRounds c)) := by
  obtain ⟨hgate,ht,hclients⟩ := hI d hr
  rcases runRound_accountant d env w.server with ⟨hacc,hno⟩ | ⟨p,s₁,weights,ready,answer,save,hacc⟩
  · refine ⟨fun summary t h => absurd h (hno summary t),fun hscope c => ?_⟩
    rw [hacc]
    exact hclients hscope c
  · have hp := prepareBatch_ok ready
    obtain ⟨active,hactive,-,-⟩ := hp.selection
    have hreserved := haff d active p.batch hr ⟨p,s₁,weights,ready,answer,save⟩ hactive hp.batch
    rw [← hp.cost_eq hactive] at hreserved
    have hwithin := withinBudget_charged hgate ht hp hclients hreserved
    constructor
    · intro summary t h
      rw [h] at hacc
      have hcharged : t.accountant = (w.server.charged (p.cost d) p.admitted).accountant := hacc
      unfold WithinBudget
      rw [hcharged]
      exact hwithin
    · intro hscope c
      rw [hacc]
      exact hwithin.2 hscope c

/-- A round that completes within its budget had its reserve, up to the roundings. -/
theorem reserved_of_withinBudget {summary : RoundSummary} {active : List String}
    {batch : List ClientDelta} (ht : d.config.targetEpsilon.value.isFinite = true)
    (hrun : runRound d env s = .ok summary t) (hactive : env.active = .value active)
    (hbatch : aggregationBatch d.config d.budgetExhausted s.accountant (env.flushed s.round) =
      .ok batch)
    (hnumbers : ∀ alpha ∈ Platform.rdpOrders,
      P.Numbers d.config.delta.value alpha t.accountant.rounds ∧
      ∀ c, P.Numbers d.config.delta.value alpha (t.accountant.clientRounds c))
    (h : WithinBudget P d t) : Reserved P (-roundingMargin) d s.accountant
      (drawnCost d env s.round active) batch := by
  rcases runRound_accountant d env s with ⟨hacc,hno⟩ | ⟨p,s₁,weights,ready,answer,save,hacc⟩
  · exact absurd hrun (hno summary t)
  · have hp := prepareBatch_ok ready
    obtain rfl : p.batch = batch := Except.ok.inj (hp.batch.symm.trans hbatch)
    rw [hrun] at hacc
    have hcharged : t.accountant = (s.charged (p.cost d) p.admitted).accountant := hacc
    rw [← hp.cost_eq hactive]
    unfold WithinBudget at h
    rw [hcharged] at h hnumbers
    constructor
    · intro hscope hhalt _
      have hwithin := h.1 hscope hhalt
      rw [charged_rounds] at hwithin hnumbers
      exact reserve_of_withinTarget one_ne_zero ht (fun alpha ha => (hnumbers alpha ha).1) hwithin
    · intro hscope c hc _
      have hwithin := h.2 hscope c
      rw [charged_clientRounds] at hwithin
      refine reserve_of_withinTarget (List.count_pos_iff.mpr hc).ne' ht (fun alpha ha => ?_) hwithin
      have hclient := (hnumbers alpha ha).2 c
      rwa [charged_clientRounds] at hclient

/-- In every run of valid processes with their gates, if every start replays histories within its
target and every round that is charged finds its reserve, no completed round leaves a budget
overspent. And no round that completes within budget does so without one, up to the roundings. -/
theorem budgetLaw_of_affordable (P : Platform) (w : World κ) (events : List (Event κ))
    (hidle : w.running = none) (hsound : ∀ e ∈ events, e.Sound P)
    (haff : Run.Always World.step (Affordable P) w events) :
    Run.Always World.step (BudgetLaw P) w events ∧
    ∀ (d : Deployment κ) (env : RoundEnv) (s t : Server κ) (summary : RoundSummary)
      (active : List String) (batch : List ClientDelta), d.config.accepted = true →
      runRound d env s = .ok summary t → env.active = .value active →
      aggregationBatch d.config d.budgetExhausted s.accountant (env.flushed s.round) =
        .ok batch →
      (∀ alpha ∈ Platform.rdpOrders,
        P.Numbers d.config.delta.value alpha t.accountant.rounds ∧
        ∀ c, P.Numbers d.config.delta.value alpha (t.accountant.clientRounds c)) →
      WithinBudget P d t →
      Reserved P (-roundingMargin) d s.accountant (drawnCost d env s.round active) batch := by
  refine ⟨Run.Always.of_invariant (Gated P) ?_ (haff.and (Run.always_of_forall_mem hsound)) ?_,
    fun d env s t summary active batch hvalid hrun hactive hbatch hnumbers hwithin =>
      reserved_of_withinBudget (d.config.targetEpsilon_of_accepted hvalid).2 hrun hactive hbatch
        hnumbers hwithin⟩
  · intro d hd
    rw [hidle] at hd
    cases hd
  · rintro w e hI ⟨haff,hsound⟩
    constructor
    · rintro d env summary t ⟨hr,rfl⟩ h
      exact (hI.attempt hr haff).1 summary t h
    · refine World.step_invariant (Gated P) e hI ?_ ?_
      · rintro d initialWeights rfl d' ⟨⟩
        refine ⟨hsound.2,(d.config.targetEpsilon_of_accepted hsound.1).2,fun hscope c => ?_⟩
        change WithinTarget P d ((startingAccountant d w.server.log).clientRounds c)
        by_cases hnil : (startingAccountant d w.server.log).clientRounds c = []
        · rw [hnil]
          exact withinTarget_nil hsound.1
        · exact haff hscope c hnil
      · rintro d env ⟨hr,rfl⟩ d' hd'
        obtain rfl := World.step_round_running hr hd'
        refine ⟨(hI d' hr).1,(hI d' hr).2.1,?_⟩
        rw [World.step_round hr]
        exact (hI.attempt hr haff).2

section Runs

/-- The logarithm at the one point where these runs take it, the inverse of the default failure
probability. -/
def tabulated : Platform where
  ln x := if x = ⟨0x40f869ffffffffff⟩ then ⟨0x4027069e2aa2aa5b⟩ else F64.zero
  exp _ := F64.one

/-- A production process with durable accounting and this target. -/
def production (target : F64) : Deployment Unit := Deployment.gated tabulated
  { config := { ResolvedConfig.ofDefaults .crossSilo .production with
      targetEpsilon := ⟨target,.cli⟩ }
    aggregator := fedAvg
    selector := .first
    budgetExhausted := fun _ => false
    persistentAccounting := true
    sidecar := false }

/-- A target below the price of any recorded round. -/
def tight : Deployment Unit := production ⟨0x3fa0000000000000⟩

/-- A valid configuration under the halting action whose first completed round overspends. -/
theorem not_budgetLaw_tight : tight.config.accepted = true ∧ MachineGate tabulated tight ∧
    ¬Run.Always World.step (BudgetLaw tabulated) seededWorld
      [.connect tight [],soloRound 1 F32.one] := by
  refine ⟨by decide,machineGate_gated _ _,fun h => ?_⟩
  have hlast := Run.always_iff_forall_split.mp h [_] _ [] rfl
  have hrun : completesWith (fun t => !(epsilonOf tabulated tight t.accountant.rounds.dedup
        t.accountant.rounds).le tight.config.targetEpsilon.value)
      (runRound tight (.clean [.plain "a" 1 [F32.one] 10])
        (Run.after World.step seededWorld [.connect tight []]).server) = true := by
    decide +kernel
  obtain ⟨summary,t,hresult,ht⟩ := exists_ok_of_completesWith hrun
  have hle := (hlast _ _ summary t ⟨rfl,rfl⟩ hresult).1 rfl rfl _ (.refl _)
  rw [Bool.not_eq_true', hle] at ht
  cases ht

/-- The default target. -/
def roomy : Deployment Unit := production ⟨0x4020000000000000⟩

/-- A round in which everybody takes part. -/
def everybody : RoundCost := ⟨F32.one,F32.one⟩

theorem costAt_everybody : (tabulated.costAt 5.0 everybody).isFinite = true ∧
    (tabulated.costAt 5.0 everybody).toReal = 5/2 := by
  have hcost : tabulated.costAt 5.0 everybody = ⟨0x4004000000000000⟩ := by decide +kernel
  have hunpack : (⟨0x4004000000000000⟩ : F64).value.toModel.unpack =
    .finite .positive 0x14000000000000 (-51) (by decide) := rfl
  rw [hcost, F64.toReal_of_unpack hunpack]
  exact ⟨by decide,by norm_num⟩

theorem conversion_roomy : (tabulated.conversion 5.0 roomy.config.delta.value).isFinite = true ∧
    |(tabulated.conversion 5.0 roomy.config.delta.value).toReal| ≤ 2.9 := by
  have hconv : tabulated.conversion 5.0 roomy.config.delta.value = ⟨0x4007069e2aa2aa5b⟩ := by
    decide +kernel
  have hunpack : (⟨0x4007069e2aa2aa5b⟩ : F64).value.toModel.unpack =
    .finite .positive 0x17069e2aa2aa5b (-51) (by decide) := rfl
  rw [hconv, F64.toReal_of_unpack hunpack, abs_of_nonneg (by positivity)]
  exact ⟨by decide,by norm_num⟩

theorem termSize_everybody (n : ℕ) :
    tabulated.termSize roomy.config.delta.value 5.0 (List.replicate n everybody) ≤ n*(5/2)+2.9 := by
  rw [Platform.termSize, List.map_replicate, List.sum_replicate, costAt_everybody.2, nsmul_eq_mul,
    abs_of_pos (by norm_num)]
  exact add_le_add_right conversion_roomy.2 _

theorem numbers_everybody {n : ℕ} (hn : n ≤ 2) :
    tabulated.Numbers roomy.config.delta.value 5.0 (List.replicate n everybody) := by
  refine ⟨fun c hc => ?_,conversion_roomy.1,(termSize_everybody n).trans ?_,?_⟩
  · rw [List.eq_of_mem_replicate hc]
    exact costAt_everybody.1
  · have hcast : (n : ℝ) ≤ 2 := by exact_mod_cast hn
    have hpow : (8 : ℝ) ≤ 2^1000 := by
      calc (8 : ℝ) = 2^3 := by norm_num
        _ ≤ 2^1000 := pow_le_pow_right₀ (by norm_num) (by norm_num)
    rw [Nat.cast_pow, Nat.cast_ofNat]
    exact le_trans (by linarith) hpow
  · rw [List.length_replicate]
    omega

/-- There is room for two such rounds. -/
theorem reserve_everybody {n : ℕ} (hn : n ≤ 1) :
    Reserve tabulated roomy roundingMargin (List.replicate n everybody) 1 everybody := by
  have htarget : roomy.config.targetEpsilon.value.toReal = 8 := by
    have hunpack : roomy.config.targetEpsilon.value.value.toModel.unpack =
        .finite .positive 0x10000000000000 (-49) (by decide) := rfl
    rw [F64.toReal_of_unpack hunpack]
    norm_num
  have hcast : (n : ℝ) ≤ 1 := by exact_mod_cast hn
  have hsize := termSize_everybody (n+1)
  have hspent : tabulated.spent 5.0 (List.replicate n everybody) = n*(5/2) := by
    rw [Platform.spent, List.map_replicate, List.sum_replicate, costAt_everybody.2, nsmul_eq_mul]
  have hmargin : roundingMargin ≤ 1/100 := by
    rw [roundingMargin]
    norm_num
  have hnonneg : 0 ≤ roundingMargin := one_div_nonneg.mpr (Nat.cast_nonneg _)
  refine ⟨5.0,by simp [Platform.rdpOrders],?_,?_⟩ <;>
    rw [List.replicate_append_replicate]
  · exact numbers_everybody (by omega)
  · rw [hspent, costAt_everybody.2, htarget, Nat.cast_one, one_mul]
    have hconv := (le_abs_self _).trans conversion_roomy.2
    have hsize' : tabulated.termSize roomy.config.delta.value 5.0
        (List.replicate (n+1) everybody) ≤ 8 := by
      rw [Nat.cast_succ] at hsize
      linarith
    have hproduct := mul_le_mul hmargin hsize' (add_nonneg (List.sum_nonneg fun x hx => by
      obtain ⟨c,_,rfl⟩ := List.mem_map.mp hx
      exact abs_nonneg _) (abs_nonneg _)) (by norm_num)
    linarith

/-- Two rounds in which everybody takes part stay within the default target. -/
theorem budgetLaw_roomy : Run.Always World.step (BudgetLaw tabulated) seededWorld
    [.connect roomy [],soloRound 1 F32.one,soloRound 2 F32.one] := by
  have hreserved (n : ℕ) (hn : n ≤ 1) (accountant : RdpAccountant)
      (hrounds : accountant.rounds = List.replicate n everybody) (batch : List ClientDelta)
      {cost : RoundCost} (hcost : cost = everybody) :
      Reserved tabulated roundingMargin roomy accountant cost batch := by
    refine ⟨fun _ _ _ => ?_,fun hscope => by cases hscope⟩
    rw [hrounds, hcost]
    exact reserve_everybody hn
  refine (budgetLaw_of_affordable tabulated seededWorld [.connect roomy [],soloRound 1 F32.one,
    soloRound 2 F32.one] rfl ?_ ⟨?_,?_,?_,trivial⟩).1
  · intro e he
    simp only [List.mem_cons, List.not_mem_nil, or_false] at he
    rcases he with rfl | rfl | rfl
    · exact ⟨by decide,machineGate_gated _ _⟩
    · trivial
    · trivial
  · intro hscope
    cases hscope
  · rintro d active batch ⟨⟩ - ⟨⟩ -
    exact hreserved 0 zero_le_one _ (by decide +kernel) batch (by decide +kernel)
  · rintro d active batch hrunning - ⟨⟩ -
    obtain rfl := World.step_round_running rfl hrunning
    exact hreserved 1 le_rfl _ (by decide +kernel) batch (by decide +kernel)

end Runs
end ConfluxFL
