import ConfluxFL.Server.Precondition

/-! The verdict `/round/status` publishes, against what the last check really found. Only a
requirement that is met is written down, so the verdict is right until the first violation and
wrong from there on. -/
namespace ConfluxFL
open Fallible RoundM
variable {κ : Type} {d : Deployment κ} {env : RoundEnv} {s t : Server κ}

/-- What a reader should be told after a check: whether the batch satisfied its requirement. A
size for which the method states none leaves the last answer standing. -/
def judgedVerdict (d : Deployment κ) (verdict : Option Bool) (n : ℕ) : Option Bool :=
  match batchRequirement d.config.aggregator.value d.config.robustByzantineFraction.value
    (n % 2^32) with
  | none => verdict
  | some req => some (req.satisfiedBy (n % 2^32))

/-- A run of processes beside an observer who remembers what the last check found. -/
structure Observed (κ : Type) where
  world : World κ
  found : Option Bool

/-- What the observer has seen after an event; a new process has checked nothing yet. -/
def Observed.foundAfter (o : Observed κ) : Event κ → Option Bool
  | .connect _ _ => none
  | .round env =>
    match o.world.running with
    | none => o.found
    | some d => (checkedSizes d env o.world.server).foldl (judgedVerdict d) o.found

def Observed.step (o : Observed κ) (e : Event κ) : Observed κ :=
  ⟨o.world.step e,o.foundAfter e⟩

/-- The published verdict is what the last check found, after the opening check of an attempt
and after the attempt. -/
def Truthful (o : Observed κ) (e : Event κ) : Prop :=
  ∀ d env, o.world.Attempts e d env →
    (stateOf (openRound d env o.world.server)).roundVerdict =
      (openingSize d env o.world.server).toList.foldl (judgedVerdict d) o.found ∧
    (o.step e).world.server.roundVerdict = (o.step e).found

/-- Every size an attempt checks satisfies the method's citation. -/
def ChecksCited (w : World κ) (e : Event κ) : Prop :=
  ∀ d env, w.Attempts e d env → ∀ n ∈ checkedSizes d env w.server,
    Cited d.config.aggregator.value d.config.robustByzantineFraction.value (n % 2^32)

theorem judgedVerdict_of_passes (verdict : Option Bool) {n : ℕ} (h : passesCheck d n = true) :
    judgedVerdict d verdict n = recordedVerdict d verdict n := by
  unfold judgedVerdict recordedVerdict
  rw [h]
  unfold passesCheck meetsRequirement at h
  cases hreq : batchRequirement d.config.aggregator.value
      d.config.robustByzantineFraction.value (n % 2^32) with
  | none => simp
  | some req =>
    rw [hreq] at h
    simpa using h

theorem judgedVerdict_of_not_passes (verdict : Option Bool) {n : ℕ}
    (h : passesCheck d n = false) : judgedVerdict d verdict n = some false := by
  unfold judgedVerdict
  unfold passesCheck meetsRequirement at h
  cases hreq : batchRequirement d.config.aggregator.value
      d.config.robustByzantineFraction.value (n % 2^32) with
  | none =>
    rw [hreq] at h
    cases h
  | some req =>
    rw [hreq] at h
    simpa using h

theorem recordedVerdict_ne_false {verdict : Option Bool} (h : verdict ≠ some false) (n : ℕ) :
    recordedVerdict d verdict n ≠ some false := by
  unfold recordedVerdict
  split
  · simp
  · exact h

/-- Sizes that all pass are judged as they are recorded. -/
theorem foldl_judgedVerdict {sizes : List ℕ} (h : ∀ n ∈ sizes, passesCheck d n = true)
    (verdict : Option Bool) :
    sizes.foldl (judgedVerdict d) verdict = sizes.foldl (recordedVerdict d) verdict := by
  induction sizes generalizing verdict with
  | nil => rfl
  | cons n sizes ih =>
    rw [List.foldl_cons, List.foldl_cons, judgedVerdict_of_passes _ (h n List.mem_cons_self)]
    exact ih (fun m hm => h m (List.mem_cons_of_mem n hm)) _

theorem foldl_recordedVerdict_ne_false (sizes : List ℕ) {verdict : Option Bool}
    (h : verdict ≠ some false) : sizes.foldl (recordedVerdict d) verdict ≠ some false := by
  induction sizes generalizing verdict with
  | nil => exact h
  | cons n sizes ih => exact ih (recordedVerdict_ne_false h n)

/-- An attempt stops at the first size that fails, so a failing size is the last it checks. -/
theorem checkedSizes_failing {n : ℕ} (hn : n ∈ checkedSizes d env s)
    (hfail : passesCheck d n = false) : ∃ passed, checkedSizes d env s = passed++[n] := by
  unfold checkedSizes at hn ⊢
  cases hopen : openingSize d env s with
  | none => simp [hopen] at hn
  | some m =>
    rw [hopen] at hn
    dsimp only at hn ⊢
    split_ifs at hn ⊢ with h
    · have hm : passesCheck d m = true := (Bool.and_eq_true_iff.mp h).1
      rcases List.mem_cons.mp hn with rfl | hn
      · rw [hfail] at hm
        cases hm
      · rw [List.mem_singleton.mp hn]
        exact ⟨[m],rfl⟩
    · rw [List.mem_singleton.mp hn]
      exact ⟨[],rfl⟩

theorem openRound_verdict (d : Deployment κ) (env : RoundEnv) (s : Server κ) :
    (stateOf (openRound d env s)).roundVerdict =
      (openingSize d env s).toList.foldl (recordedVerdict d) s.roundVerdict := by
  have hopen := openRound_opening d env s
  revert hopen
  generalize openRound d env s = result
  intro hopen
  cases hopen with
  | unchecked size other => simp [size, stateOf]
  | violated size fails violation =>
    simp [size, stateOf, recordedVerdict_of_not_passes _ fails]
  | opened size passes round verdict => simpa [size, stateOf] using verdict

/-- While a process runs, the observer agrees with what it publishes. -/
def Agrees (o : Observed κ) : Prop :=
  o.world.running.isSome → o.world.server.roundVerdict = o.found ∧ o.found ≠ some false

theorem foundAfter_attempts {o : Observed κ} {e : Event κ} (h : o.world.Attempts e d env) :
    (o.step e).found = (checkedSizes d env o.world.server).foldl (judgedVerdict d) o.found := by
  obtain ⟨hr,rfl⟩ := h
  simp [Observed.step, Observed.foundAfter, hr]

theorem verdictAfter_attempts {o : Observed κ} {e : Event κ} (h : o.world.Attempts e d env) :
    (o.step e).world.server.roundVerdict =
      (checkedSizes d env o.world.server).foldl (recordedVerdict d)
        o.world.server.roundVerdict := by
  obtain ⟨hr,rfl⟩ := h
  rw [← (runRound_checked d env o.world.server).2, ← World.step_round hr]
  rfl

theorem mem_checkedSizes_of_opening {n : ℕ} (h : openingSize d env s = some n) :
    n ∈ checkedSizes d env s := by
  unfold checkedSizes
  rw [h]
  dsimp only
  split_ifs <;> simp

theorem truthful_iff_checksCited {o : Observed κ} {e : Event κ} (hI : Agrees o) :
    Truthful o e ↔ ChecksCited o.world e := by
  constructor
  · intro h d env hat n hn
    rw [← meetsRequirement_iff]
    by_contra hne
    have hfail : passesCheck d n = false := by simpa [passesCheck] using hne
    obtain ⟨hverdict,hfound⟩ := hI (by rw [hat.1]; rfl)
    obtain ⟨passed,hsizes⟩ := checkedSizes_failing hn hfail
    have htrue := (h d env hat).2
    rw [verdictAfter_attempts hat, foundAfter_attempts hat, hverdict, hsizes] at htrue
    simp only [List.foldl_append, List.foldl_cons, List.foldl_nil,
      judgedVerdict_of_not_passes _ hfail, recordedVerdict_of_not_passes _ hfail] at htrue
    exact foldl_recordedVerdict_ne_false passed hfound htrue
  · intro h d env hat
    have hall : ∀ n ∈ checkedSizes d env o.world.server, passesCheck d n = true :=
      fun n hn => meetsRequirement_iff.mpr (h d env hat n hn)
    have hverdict := (hI (by rw [hat.1]; rfl)).1
    constructor
    · rw [openRound_verdict, hverdict, foldl_judgedVerdict]
      intro n hn
      exact hall n (mem_checkedSizes_of_opening (Option.mem_toList.mp hn))
    · rw [verdictAfter_attempts hat, foundAfter_attempts hat, hverdict, foldl_judgedVerdict hall]

theorem Agrees.step {o : Observed κ} {e : Event κ} (hI : Agrees o) (h : ChecksCited o.world e) :
    Agrees (o.step e) := by
  cases e with
  | connect d initialWeights => exact fun _ => ⟨rfl,nofun⟩
  | round env =>
    cases hr : o.world.running with
    | none =>
      intro hrun
      have hidle : (o.step (.round env)).world = o.world := World.step_idle hr
      rw [hidle, hr] at hrun
      cases hrun
    | some d =>
      intro _
      have hat : o.world.Attempts (.round env) d env := ⟨hr,rfl⟩
      have heq := ((truthful_iff_checksCited hI).mpr h d env hat).2
      refine ⟨heq,?_⟩
      rw [← heq, verdictAfter_attempts hat]
      apply foldl_recordedVerdict_ne_false
      obtain ⟨hverdict,hfound⟩ := hI (by rw [hr]; rfl)
      rw [hverdict]
      exact hfound

/-- The published verdict tells the truth after every check of a run exactly when no check of
the run finds a violation. -/
theorem truthful_iff_noViolation (w : World κ) (events : List (Event κ))
    (hidle : w.running = none) :
    Run.Always Observed.step Truthful ⟨w,none⟩ events ↔
      Run.Always World.step ChecksCited w events := by
  have hworld : Run.Always Observed.step (fun o e => ChecksCited o.world e) ⟨w,none⟩ events ↔
      Run.Always World.step ChecksCited w events := Run.always_map Observed.world fun _ _ => rfl
  refine Iff.trans ?_ hworld
  refine Run.always_iff_of_invariant Agrees ?_ (fun o e => truthful_iff_checksCited)
    fun o e hI h => hI.step h
  intro hrun
  simp [hidle] at hrun

section Runs

theorem checksCited_connect {w : World κ} (d : Deployment κ) (initialWeights : List F32) :
    ChecksCited w (.connect d initialWeights) := by
  rintro d' env ⟨_,he⟩
  cases he

theorem checksCited_round {w : World κ} (hr : w.running = some d)
    (h : (checkedSizes d env w.server).all (passesCheck d) = true) :
    ChecksCited w (.round env) := by
  rintro d' env' ⟨hr',he⟩ n hn
  cases he
  cases hr.symm.trans hr'
  exact meetsRequirement_iff.mp (List.all_eq_true.mp h n hn)

/-- A round of Krum in which five of five submit. -/
def healthyRun : List (Event Unit) :=
  [.connect krumQuorumProcess [],.round (fiveSubmissions F32.one)]

theorem truthful_healthyRun : seededWorld.running = none ∧
    Run.Always Observed.step Truthful ⟨seededWorld,none⟩ healthyRun := by
  refine ⟨rfl,(truthful_iff_noViolation seededWorld healthyRun rfl).mpr ?_⟩
  refine ⟨checksCited_connect _ _,checksCited_round rfl ?_,trivial⟩
  decide +kernel

/-- The next round times out with two. -/
def timeoutInRoundTwo : RoundEnv :=
  { twoBeforeTimeout with arrivals := [.plain "a" 2 [F32.one] 10,.plain "b" 2 [F32.one] 10] }

/-- Once a round was refused the status goes on saying that the requirement is satisfied. -/
theorem not_truthful_afterViolation :
    (Run.after Observed.step (⟨seededWorld,none⟩ : Observed Unit)
      (healthyRun++[.round timeoutInRoundTwo])).world.server.roundVerdict = some true ∧
    ¬Run.Always Observed.step Truthful ⟨seededWorld,none⟩
      (healthyRun++[.round timeoutInRoundTwo]) := by
  have hpublished : (Run.after Observed.step (⟨seededWorld,none⟩ : Observed Unit)
      (healthyRun++[.round timeoutInRoundTwo])).world.server.roundVerdict = some true := by
    decide +kernel
  have hfound : (Run.after Observed.step (⟨seededWorld,none⟩ : Observed Unit)
      (healthyRun++[.round timeoutInRoundTwo])).found = some false := by
    decide +kernel
  refine ⟨hpublished,fun h => ?_⟩
  have hlast := Run.always_iff_forall_split.mp h healthyRun _ [] rfl
  have hrunning : ((seededWorld.step (.connect krumQuorumProcess [])).step
      (.round (fiveSubmissions F32.one))).running = some krumQuorumProcess :=
    World.step_survives rfl (by decide +kernel)
  have heq := (hlast krumQuorumProcess timeoutInRoundTwo ⟨hrunning,rfl⟩).2
  rw [Run.after_append] at hpublished hfound
  rw [← Run.after_nil Observed.step (Observed.step _ _), ← Run.after_cons, hpublished,
    hfound] at heq
  cases heq

end Runs
end ConfluxFL
