import ConfluxFL.Server.Guarantee

/-! The batch sizes an attempt checks, and when a check ends the run. A round is checked at the
size it opens with and again at the size it flushes with; validation vouches for the first when
a quorum is configured, and nothing vouches for the second. -/
namespace ConfluxFL
open Fallible RoundM
variable {κ : Type} {d : Deployment κ} {env : RoundEnv} {s t : Server κ}

/-- The attempt stopped because of its batch size. -/
def Stop.isViolation : Stop → Bool
  | .err (.preconditionViolated ..) => true
  | _ => false

/-- The experiment-wide budget does not stop the attempt. -/
def budgetAllows (d : Deployment κ) (s : Server κ) : Bool :=
  d.config.accountingScope.value ≠ .global || !d.budgetExhausted s.accountant.rounds ||
    d.config.budgetExhaustedAction.value ≠ .halt

/-- The size an attempt opens its round with, when nothing stops it before its first check. -/
def openingSize (d : Deployment κ) (env : RoundEnv) (s : Server κ) : Option ℕ :=
  if budgetAllows d s then
    match env.load,s.store.loadLatestWeights,env.active with
    | .value _,.ok _,.value active =>
      some ((quorumOverride d).getD (d.selector.select env.entropy active
        ((quorumOverride d).getD active.length) s.round).length)
    | _,_,_ => none
  else none

/-- The requirement check lets a batch of this size pass. -/
def passesCheck (d : Deployment κ) (n : ℕ) : Bool :=
  meetsRequirement d.config.aggregator.value d.config.robustByzantineFraction.value (n % 2^32)

/-- The batch sizes an attempt checks, in order: what it opens with and, once the buffer has
flushed, what arrived. -/
def checkedSizes (d : Deployment κ) (env : RoundEnv) (s : Server κ) : List ℕ :=
  match openingSize d env s with
  | none => []
  | some n =>
    if passesCheck d n && !env.diesCollecting then [n,(env.flushed s.round).length] else [n]

/-- The verdict after a check: only a requirement that is met is written down. -/
def recordedVerdict (d : Deployment κ) (verdict : Option Bool) (n : ℕ) : Option Bool :=
  if (batchRequirement d.config.aggregator.value d.config.robustByzantineFraction.value
    (n % 2^32)).isSome && passesCheck d n then some true else verdict

/-- What a check does: pass and record, or stop with the violation and record nothing. -/
theorem checkBatchRequirement_cases (d : Deployment κ) (round n : ℕ) (s : Server κ) :
    (passesCheck d n = true ∧ checkBatchRequirement d round n s =
      .ok () { s with roundVerdict := recordedVerdict d s.roundVerdict n }) ∨
    (passesCheck d n = false ∧ ∃ e, e.isViolation = true ∧
      checkBatchRequirement d round n s = .error e s) := by
  unfold checkBatchRequirement recordedVerdict passesCheck meetsRequirement
  generalize n % 2^32 = m
  cases hreq : batchRequirement d.config.aggregator.value
      d.config.robustByzantineFraction.value m with
  | none => exact .inl ⟨rfl,by simp⟩
  | some req =>
    cases hsat : req.satisfiedBy m with
    | true => exact .inl ⟨hsat,by simp [hsat]⟩
    | false => exact .inr ⟨hsat,_,rfl,by simp only [hsat]; rfl⟩

theorem recordedVerdict_of_not_passes (verdict : Option Bool) {n : ℕ}
    (h : passesCheck d n = false) : recordedVerdict d verdict n = verdict := by
  simp [recordedVerdict, h]

section Avoids

/-- The error is about the batch size. -/
abbrev AvoidsViolation {α : Type} (x : RoundM κ α) : Prop :=
  Avoids (fun e : Stop => e.isViolation = true) x

theorem avoids_ask {ε α : Type} (reply : Reply ε α) {wrap : ε → ServerError}
    (h : ∀ e, (Stop.err (wrap e)).isViolation = false) :
    AvoidsViolation (ask reply wrap : RoundM κ α) := by
  cases reply with
  | value a => exact avoids_pure a
  | fail e => exact avoids_throw (by simp [h])
  | crash => exact avoids_throw (by simp [Stop.isViolation])

theorem avoids_perform (outcome : WriteOutcome) (effect : Server κ → Server κ) :
    AvoidsViolation (perform outcome effect) := by
  refine (avoids_modify _).bind fun _ => ?_
  cases outcome with
  | ok => exact avoids_pure ()
  | fail applied e => exact avoids_throw (by simp [Stop.isViolation])
  | crash applied => exact avoids_throw (by simp [Stop.isViolation])

theorem avoids_fetchSignals (o : Opened) : AvoidsViolation (fetchSignals d env o) := by
  apply Avoids.bind
  · split_ifs
    · unfold fetchAndInjectTrustedReference
      split
      · exact avoids_throw (by simp [Stop.isViolation])
      · refine (avoids_ask env.reference fun _ => rfl).bind fun bytes => ?_
        split
        · exact avoids_throw (by simp [Stop.isViolation])
        · exact avoids_modify _
    · exact avoids_pure ()
  · intro _
    split_ifs
    · unfold fetchAndInjectCandidateScores
      split
      · exact avoids_throw (by simp [Stop.isViolation])
      · exact (avoids_ask env.scores fun _ => rfl).bind fun _ => avoids_modify _
    · exact avoids_pure ()

theorem avoids_appendClients (outcome : ℕ → WriteOutcome) (cost : RoundCost) (i : ℕ)
    (admitted : List String) :
    AvoidsViolation (appendClients outcome cost i admitted : RoundM κ Unit) := by
  induction admitted generalizing i with
  | nil => exact avoids_pure ()
  | cons c admitted ih => exact (avoids_perform _ _).bind fun _ => ih (i+1)

theorem avoids_commitRound (p : Prepared) : AvoidsViolation (commitRound d env p) := by
  refine Avoids.bind ?_ fun weights => (avoids_perform _ _).bind fun _ =>
    Avoids.bind ?_ fun _ => (avoids_modify _).bind fun _ => avoids_pure _
  · refine avoids_get.bind fun s => ?_
    split
    · exact avoids_throw (by simp [Stop.isViolation])
    · refine (avoids_modify _).bind fun _ => ?_
      split
      · exact avoids_pure _
      · exact avoids_throw (by simp [Stop.isViolation])
  · refine (avoids_modify _).bind fun _ => ?_
    unfold appendRows
    split
    · exact (avoids_perform _ _).bind fun _ => avoids_appendClients _ _ _ _
    · exact avoids_pure ()

end Avoids

theorem checkPrivacyBudget_apply : checkPrivacyBudget d s =
    if budgetAllows d s then .ok () s else .error (.err .budgetExhausted) s := by
  unfold checkPrivacyBudget budgetAllows
  rw [bind_apply, get_apply]
  by_cases hscope : d.config.accountingScope.value = .global
  · cases hex : d.budgetExhausted s.accountant.rounds with
    | true => cases hact : d.config.budgetExhaustedAction.value <;> simp [hscope, hex]
    | false => simp [hscope, hex]
  · simp [hscope]

/-- How the opening of a round ends: before its check, at its check, or with an open buffer. -/
inductive Opening (d : Deployment κ) (env : RoundEnv) (s : Server κ) :
    EStateM.Result Stop (Server κ) Opened → Prop
  | unchecked {e : Stop} (size : openingSize d env s = none) (other : e.isViolation = false) :
      Opening d env s (.error e s)
  | violated {n : ℕ} {e : Stop} (size : openingSize d env s = some n)
      (fails : passesCheck d n = false) (violation : e.isViolation = true) :
      Opening d env s (.error e s)
  | opened {n : ℕ} {o : Opened} {t : Server κ} (size : openingSize d env s = some n)
      (passes : passesCheck d n = true) (round : o.round = s.round)
      (verdict : t.roundVerdict = recordedVerdict d s.roundVerdict n) : Opening d env s (.ok o t)

theorem openRound_opening (d : Deployment κ) (env : RoundEnv) (s : Server κ) :
    Opening d env s (openRound d env s) := by
  unfold openRound
  rw [bind_apply, get_apply]
  dsimp only
  rw [bind_apply, checkPrivacyBudget_apply]
  cases hbudget : budgetAllows d s with
  | false => exact .unchecked (by simp [openingSize, hbudget]) rfl
  | true =>
    simp only [if_true]
    rw [bind_apply]
    unfold loadLatestWeights
    rw [bind_apply]
    cases hload : env.load with
    | fail e => exact .unchecked (by simp [openingSize, hload]) rfl
    | crash => exact .unchecked (by simp [openingSize, hload]) rfl
    | value u =>
      simp only [ask, pure_apply]
      rw [bind_apply, get_apply]
      dsimp only
      cases hw : s.store.loadLatestWeights with
      | error e => exact .unchecked (by simp [openingSize, hload, hw]) rfl
      | ok weights =>
        simp only [pure_apply]
        rw [bind_apply]
        cases hactive : env.active with
        | fail e => exact .unchecked (by simp [openingSize, hload, hw, hactive]) rfl
        | crash => exact .unchecked (by simp [openingSize, hload, hw, hactive]) rfl
        | value active =>
          simp only [pure_apply]
          rw [bind_apply]
          have hsize : openingSize d env s = some ((quorumOverride d).getD
              (d.selector.select env.entropy active
                ((quorumOverride d).getD active.length) s.round).length) := by
            simp [openingSize, hload, hw, hactive, hbudget]
          rcases checkBatchRequirement_cases d s.round _ s with ⟨hpass,h⟩ | ⟨hfail,e,he,h⟩
          · rw [h]
            exact .opened hsize hpass rfl rfl
          · rw [h]
            exact .violated hsize hfail he

theorem keeps_commitRound_roundVerdict (p : Prepared) :
    Keeps Server.roundVerdict (commitRound d env p) := by
  refine Keeps.bind ?_ fun weights => Keeps.bind (keeps_perform env.save ?_) fun _ =>
    Keeps.bind ?_ fun _ => Keeps.bind (keeps_modify ?_) fun _ => keeps_pure _
  · refine keeps_get.bind fun s => ?_
    split
    · exact keeps_throw _
    · refine Keeps.bind (keeps_modify fun _ => rfl) fun _ => ?_
      split
      · exact keeps_pure _
      · exact keeps_throw _
  · exact fun _ => rfl
  · exact Keeps.bind (keeps_modify fun _ => rfl) fun _ => keeps_appendRows_of fun _ _ => rfl
  · exact fun _ => rfl

theorem excludeExhausted_error {exhausted : List RoundCost → Bool} {accountant : RdpAccountant}
    {action : BudgetExhaustedAction} {decoded : List Decoded} {e : ServerError}
    (h : excludeExhausted exhausted accountant action decoded = .error e) :
    ∃ c, e = .budgetExhaustedForClient c := by
  induction decoded with
  | nil => cases h
  | cons d decoded ih =>
    unfold excludeExhausted at h
    split_ifs at h with hex
    · rcases except_bind_error_iff.mp h with h | ⟨kept,_,h⟩
      · exact ih h
      · cases h
    · cases action with
      | halt =>
        cases h
        exact ⟨d.clientId,rfl⟩
      | continueWithoutGuarantee => exact ih h

/-- No filter refuses a batch for its size. -/
theorem aggregationBatch_error {config : ResolvedConfig} {exhausted : List RoundCost → Bool}
    {accountant : RdpAccountant} {flushed : List Submission} {e : ServerError}
    (h : aggregationBatch config exhausted accountant flushed = .error e) :
    (Stop.err e).isViolation = false := by
  rcases except_bind_error_iff.mp h with h | ⟨checked,_,h⟩
  · rcases except_bind_error_iff.mp h with h | ⟨decoded,_,h⟩
    · rcases except_bind_error_iff.mp h with h | ⟨ds,_,h⟩
      · obtain ⟨u,_,hu⟩ := mapM_error h
        unfold decodeDelta at hu
        split at hu
        · cases hu
        · cases hu
          rfl
      · cases h
    · unfold filterByPerClientBudget at h
      split_ifs at h
      obtain ⟨c,rfl⟩ := excludeExhausted_error h
      rfl
  · cases h

/-- What follows the second check. -/
def afterCheck (d : Deployment κ) (env : RoundEnv) (o : Opened)
    (flush : FlushResult Submission) : RoundM κ RoundSummary := do
  let s ← get
  match aggregationBatch d.config d.budgetExhausted s.accountant flush.deltas with
  | .error e => throw (.err e)
  | .ok batch => do
    fetchSignals d env o
    commitRound d env ⟨o,flush.reason,flush.deltas.length,batch⟩

theorem avoids_afterCheck (o : Opened) (flush : FlushResult Submission) :
    AvoidsViolation (afterCheck d env o flush) := by
  refine avoids_get.bind fun s => ?_
  split
  · rename_i e h
    exact avoids_throw (by simp [aggregationBatch_error h])
  · exact (avoids_fetchSignals o).bind fun _ => avoids_commitRound _

theorem keeps_afterCheck_roundVerdict (o : Opened) (flush : FlushResult Submission) :
    Keeps Server.roundVerdict (afterCheck d env o flush) := by
  refine keeps_get.bind fun s => ?_
  split
  · exact keeps_throw _
  · exact (keeps_fetchSignals (fun _ _ => rfl) o).bind fun _ => keeps_commitRound_roundVerdict _

/-- An attempt, cut at its two checks. -/
theorem runRound_eq : runRound d env = openRound d env >>= fun o => flushRound env o >>=
    fun flush => checkBatchRequirement d o.round flush.deltas.length >>= fun _ =>
      afterCheck d env o flush := by
  unfold runRound prepareBatch filterBatch afterCheck
  simp only [bind_assoc]
  congr
  funext o
  congr
  funext flush
  congr
  funext _
  congr
  funext s
  cases aggregationBatch d.config d.budgetExhausted s.accountant flush.deltas with
  | error e => rfl
  | ok batch => simp

/-- The result says that the batch size was refused. -/
def violates {α : Type} (result : EStateM.Result Stop (Server κ) α) : Bool :=
  (stopOf result).any Stop.isViolation

theorem violates_eq_false {α : Type} {x : RoundM κ α} (h : AvoidsViolation x) :
    violates (x s) = false := by
  unfold violates
  cases hx : x s with
  | ok a t => rfl
  | error e t =>
    have he := h s e t hx
    simpa [stopOf] using he

theorem flushRound_verdict (o : Opened) (h : env.diesCollecting = false) :
    ∃ flush t, (flushRound env o : RoundM κ _) s = .ok flush t ∧
      t.roundVerdict = s.roundVerdict := by
  let flush := (RoundBuffer.new o.round o.quorum).awaitFlush env.arrivals env.timedOut
  refine ⟨flush.1,{ s with currentBuffer := some flush.2 },?_,rfl⟩
  simp only [flushRound, h]
  rfl

/-- From an open buffer on: the second check decides, unless the process dies first. -/
theorem flushed_checked (d : Deployment κ) (env : RoundEnv) (o : Opened) (s : Server κ) :
    let result := (flushRound env o >>= fun flush =>
      checkBatchRequirement d o.round flush.deltas.length >>= fun _ => afterCheck d env o flush) s
    let n := (env.flushed o.round).length
    (violates result = (!env.diesCollecting && !passesCheck d n)) ∧
      (stateOf result).roundVerdict =
        if env.diesCollecting then s.roundVerdict else recordedVerdict d s.roundVerdict n := by
  dsimp only
  rw [bind_apply]
  cases hdies : env.diesCollecting with
  | true =>
    have hflush : (flushRound env o : RoundM κ _) s = .error .crash s := by
      simp [flushRound, hdies]
    rw [hflush]
    exact ⟨rfl,rfl⟩
  | false =>
    obtain ⟨flush,t,hflush,ht⟩ := flushRound_verdict (s := s) o hdies
    rw [hflush, ← flushRound_ok hflush]
    dsimp only
    rw [bind_apply]
    rcases checkBatchRequirement_cases d o.round flush.deltas.length t with
      ⟨hpass,h⟩ | ⟨hfail,e,he,h⟩
    · rw [h]
      dsimp only
      refine ⟨?_,?_⟩
      · rw [violates_eq_false (avoids_afterCheck o flush), hpass]
        rfl
      · rw [keeps_afterCheck_roundVerdict o flush, ← ht]
        rfl
    · rw [h, hfail]
      refine ⟨?_,?_⟩
      · simpa [violates, stopOf] using he
      · rw [recordedVerdict_of_not_passes _ hfail]
        exact ht

/-- An attempt is refused for its batch size exactly when one of the sizes it checks fails,
and the verdict it leaves is what its checks recorded. -/
theorem runRound_checked (d : Deployment κ) (env : RoundEnv) (s : Server κ) :
    (violates (runRound d env s) = (checkedSizes d env s).any fun n => !passesCheck d n) ∧
      (stateOf (runRound d env s)).roundVerdict =
        (checkedSizes d env s).foldl (recordedVerdict d) s.roundVerdict := by
  rw [runRound_eq, bind_apply]
  have hopen := openRound_opening d env s
  revert hopen
  generalize openRound d env s = result
  intro hopen
  cases hopen with
  | unchecked size other =>
    rw [checkedSizes, size]
    exact ⟨by simpa [violates, stopOf] using other,rfl⟩
  | violated size fails violation =>
    rw [checkedSizes, size]
    refine ⟨?_,?_⟩
    · simpa [violates, stopOf, fails] using violation
    · simp [fails, stateOf, recordedVerdict_of_not_passes _ fails]
  | @opened n o t size passes round verdict =>
    obtain ⟨hstop,hverdict⟩ := flushed_checked d env o t
    rw [checkedSizes, size]
    dsimp only
    rw [hstop, hverdict, round, verdict, passes]
    cases env.diesCollecting with
    | true => simp [passes]
    | false => simp [passes]

section Quorum

/-- Nothing stops the attempt before its buffer flushes, its opening check apart. -/
def ReachesFlush (d : Deployment κ) (env : RoundEnv) (s : Server κ) : Prop :=
  (openingSize d env s).isSome ∧ env.diesCollecting = false

/-- The process runs a validated configuration with a quorum, a 32-bit number. -/
def ValidatedQuorum (d : Deployment κ) : Prop :=
  d.config.accepted = true ∧ ∃ quorum, d.config.quorum = some quorum ∧ quorum.value < 2^32

/-- No attempt with a validated quorum is refused for its batch size. -/
def NeverViolates (w : World κ) (e : Event κ) : Prop :=
  ∀ d env, w.Attempts e d env → ValidatedQuorum d → violates (runRound d env w.server) = false

/-- Every attempt with a validated quorum that gets as far as its flush flushes a number of
updates that satisfies the method's citation. -/
def FlushesCited (w : World κ) (e : Event κ) : Prop :=
  ∀ d env, w.Attempts e d env → ValidatedQuorum d → ReachesFlush d env w.server →
    Cited d.config.aggregator.value d.config.robustByzantineFraction.value
      ((env.flushed w.server.round).length % 2^32)

/-- A round with a validated quorum opens with it, and passes its opening check. -/
theorem passesCheck_openingSize (h : ValidatedQuorum d) {n : ℕ}
    (hn : openingSize d env s = some n) : passesCheck d n = true := by
  obtain ⟨haccepted,quorum,hq,hlt⟩ := h
  have hopen : n = quorum.value := by
    have hoverride : quorumOverride d = some quorum.value := by simp [quorumOverride, hq]
    unfold openingSize at hn
    rw [hoverride] at hn
    split_ifs at hn
    split at hn
    · exact (Option.some.inj hn).symm
    · cases hn
  rw [passesCheck, hopen, Nat.mod_eq_of_lt hlt]
  exact d.config.meetsRequirement_of_accepted haccepted hq

/-- With a validated quorum only the flushed number can be refused. -/
theorem violates_runRound_iff (h : ValidatedQuorum d) : violates (runRound d env s) = true ↔
    ReachesFlush d env s ∧ passesCheck d (env.flushed s.round).length = false := by
  rw [(runRound_checked d env s).1, checkedSizes, ReachesFlush]
  cases hopen : openingSize d env s with
  | none => simp
  | some n =>
    have hpass := passesCheck_openingSize h hopen
    cases env.diesCollecting with
    | true => simp [hpass]
    | false => simp [hpass]

/-- Over any run, a configured and validated quorum keeps rounds from being refused for their
batch size exactly when every number the rounds flush satisfies the citation; the quorum itself
does not see to that, since a timeout flushes fewer and a late wake-up more. -/
theorem neverViolates_iff_flushesCited (w : World κ) (events : List (Event κ)) :
    Run.Always World.step NeverViolates w events ↔
      Run.Always World.step FlushesCited w events := by
  apply Run.always_congr
  intro w e
  constructor
  · intro h d env hat hd hreach
    have hnot : ¬violates (runRound d env w.server) = true := by simp [h d env hat hd]
    rw [violates_runRound_iff hd, not_and, Bool.not_eq_false] at hnot
    exact meetsRequirement_iff.mp (hnot hreach)
  · intro h d env hat hd
    rw [← Bool.not_eq_true, violates_runRound_iff hd, not_and, Bool.not_eq_false]
    intro hreach
    exact meetsRequirement_iff.mpr (h d env hat hd hreach)

/-- Krum with a quorum of five. -/
def krumQuorumProcess : Deployment Unit :=
  { krumProcess with config := { krumProcess.config with quorum := some ⟨5,.cli⟩ } }

/-- Only two of five clients submit before the round times out. -/
def twoBeforeTimeout : RoundEnv :=
  { RoundEnv.clean [.plain "a" 1 [F32.one] 10,.plain "b" 1 [F32.one] 10] with
    active := .value ["a","b","c","d","e"], timedOut := true }

theorem validatedQuorum_krum : ValidatedQuorum krumQuorumProcess :=
  ⟨by decide,⟨5,.cli⟩,rfl,by decide⟩

/-- A round with a quorum of five times out with two updates and ends the run. -/
theorem not_neverViolates_afterTimeout : ¬Run.Always World.step NeverViolates seededWorld
    [.connect krumQuorumProcess [],.round twoBeforeTimeout] := by
  intro h
  have hround := Run.always_iff_forall_split.mp h [_] _ [] rfl
  have hrun : violates (runRound krumQuorumProcess twoBeforeTimeout
      (Run.after World.step seededWorld [.connect krumQuorumProcess []]).server) = true := by
    decide +kernel
  rw [hround krumQuorumProcess twoBeforeTimeout ⟨rfl,rfl⟩ validatedQuorum_krum] at hrun
  cases hrun

end Quorum
end ConfluxFL
