import ConfluxFL.Lib.Fallible
import ConfluxFL.Server.Batch

/-! Which submissions pass the checks. The pipeline stops exactly when some payload does not
decode or, with the halting action, when a finite update belongs to a client whose budget is
spent; otherwise what it keeps is decided submission by submission. -/
namespace ConfluxFL
variable (config : ResolvedConfig) (exhausted : List RoundCost → Bool)
  (accountant : RdpAccountant)

/-- The per-client budget check does not exclude this client. -/
def inBudget (clientId : String) : Bool :=
  decide (config.accountingScope.value ≠ .perClient) ||
    !exhausted (accountant.clientRounds clientId)

/-- The decoded update of a submission that is itself finite and in budget. -/
def checkedUpdate (s : Submission) : Option Decoded :=
  match decodeDelta s with
  | .ok d =>
    if d.weights.all F32.isFinite && inBudget config exhausted accountant d.clientId then some d
    else none
  | .error _ => none

/-- Nothing in the flush stops the pipeline. -/
def Accepts (flushed : List Submission) : Prop :=
  (∀ s ∈ flushed, ∃ d, decodeDelta s = .ok d) ∧
    (config.budgetExhaustedAction.value = .halt → ∀ s ∈ flushed, ∀ d, decodeDelta s = .ok d →
      d.weights.all F32.isFinite = true → inBudget config exhausted accountant d.clientId = true)

variable {config exhausted accountant}

theorem decodeDelta_clientId {s : Submission} {d : Decoded} (h : decodeDelta s = .ok d) :
    d.clientId = s.clientId := by
  unfold decodeDelta at h
  split at h
  · cases h
    rfl
  · cases h

theorem checkedUpdate_eq_some {s : Submission} {d : Decoded} :
    checkedUpdate config exhausted accountant s = some d ↔ decodeDelta s = .ok d ∧
      d.weights.all F32.isFinite = true ∧
      inBudget config exhausted accountant d.clientId = true := by
  unfold checkedUpdate
  split
  · rename_i d' hd
    by_cases h : (d'.weights.all F32.isFinite &&
        inBudget config exhausted accountant d'.clientId) = true
    · rw [if_pos h, hd]
      rw [Bool.and_eq_true] at h
      constructor
      · rintro ⟨⟩
        exact ⟨rfl,h⟩
      · rintro ⟨⟨⟩,_⟩
        rfl
    · rw [if_neg h, hd]
      constructor
      · rintro ⟨⟩
      · rintro ⟨⟨⟩,h'⟩
        exact absurd (Bool.and_eq_true _ _ ▸ h') h
  · rename_i e he
    simp [he]

theorem checkedUpdate_clientId {s : Submission} {d : Decoded}
    (h : checkedUpdate config exhausted accountant s = some d) : d.clientId = s.clientId :=
  decodeDelta_clientId (checkedUpdate_eq_some.mp h).1

theorem decodeFlushedDeltas_ok_iff {deltas : List Submission} {ds : List Decoded} :
    decodeFlushedDeltas deltas = .ok ds ↔ (∀ s ∈ deltas, ∃ d, decodeDelta s = .ok d) ∧
      ds = (deltas.filterMap fun s => (decodeDelta s).toOption).filter fun d =>
        d.weights.all F32.isFinite := by
  unfold decodeFlushedDeltas
  rw [Fallible.except_bind_ok_iff]
  constructor
  · rintro ⟨l,hl,h⟩
    obtain ⟨hall,rfl⟩ := Fallible.mapM_ok_iff.mp hl
    cases h
    exact ⟨hall,rfl⟩
  · rintro ⟨hall,rfl⟩
    exact ⟨_,Fallible.mapM_ok_iff.mpr ⟨hall,rfl⟩,rfl⟩

theorem excludeExhausted_ok_iff {action : BudgetExhaustedAction} {ds l : List Decoded} :
    excludeExhausted exhausted accountant action ds = .ok l ↔
      (action = .halt → ∀ d ∈ ds, exhausted (accountant.clientRounds d.clientId) = false) ∧
        l = ds.filter fun d => !exhausted (accountant.clientRounds d.clientId) := by
  induction ds generalizing l with
  | nil =>
    change (.ok [] : Except ServerError (List Decoded)) = .ok l ↔ _
    simp only [Except.ok.injEq, List.not_mem_nil, false_imp_iff, implies_true, true_and,
      List.filter_nil]
    exact eq_comm
  | cons d ds ih =>
    unfold excludeExhausted
    cases hd : exhausted (accountant.clientRounds d.clientId) with
    | false =>
      simp only [Bool.not_false, if_true, Fallible.except_bind_ok_iff, ih, List.mem_cons,
        forall_eq_or_imp, hd, true_and, List.filter_cons]
      constructor
      · rintro ⟨kept,⟨hall,rfl⟩,h⟩
        cases h
        exact ⟨hall,rfl⟩
      · rintro ⟨hall,rfl⟩
        exact ⟨_,⟨hall,rfl⟩,rfl⟩
    | true =>
      cases action with
      | halt => simp [hd]
      | continueWithoutGuarantee => simp [hd, ih]

theorem filterByPerClientBudget_ok_iff {ds l : List Decoded} :
    filterByPerClientBudget exhausted accountant config ds = .ok l ↔
      (config.budgetExhaustedAction.value = .halt →
        ∀ d ∈ ds, inBudget config exhausted accountant d.clientId = true) ∧
      l = ds.filter fun d => inBudget config exhausted accountant d.clientId := by
  unfold filterByPerClientBudget
  by_cases hs : config.accountingScope.value = .perClient
  · have hb : ∀ c, inBudget config exhausted accountant c =
        !exhausted (accountant.clientRounds c) := fun c => by simp [inBudget, hs]
    simp only [hs, ne_eq, not_true_eq_false, if_false, excludeExhausted_ok_iff, hb,
      Bool.not_eq_true']
  · have hb : ∀ c, inBudget config exhausted accountant c = true := fun c => by
      simp [inBudget, hs]
    simp only [hs, ne_eq, not_false_eq_true, if_true, hb, implies_true, true_and,
      List.filter_true, Except.ok.injEq, eq_comm]

/-- What the checks keep, and when they stop the round. -/
theorem checkedUpdates_ok_iff {flushed : List Submission} {l : List Decoded} :
    checkedUpdates config exhausted accountant flushed = .ok l ↔
      Accepts config exhausted accountant flushed ∧
        l = (sortByClientId flushed).filterMap (checkedUpdate config exhausted accountant) := by
  have hsort : ∀ s, s ∈ sortByClientId flushed ↔ s ∈ flushed := fun s => StableSort.mem_sortBy
  have hkeep : (((sortByClientId flushed).filterMap fun s => (decodeDelta s).toOption).filter
        fun d => d.weights.all F32.isFinite).filter
        (fun d => inBudget config exhausted accountant d.clientId) =
      (sortByClientId flushed).filterMap (checkedUpdate config exhausted accountant) := by
    rw [List.filter_filterMap, List.filter_filterMap]
    apply List.filterMap_congr
    intro s _
    unfold checkedUpdate
    cases decodeDelta s with
    | ok d =>
      cases hf : d.weights.all F32.isFinite <;>
        cases hb : inBudget config exhausted accountant d.clientId <;>
        simp [Except.toOption, Option.filter, hf, hb]
    | error e => rfl
  unfold checkedUpdates
  rw [Fallible.except_bind_ok_iff]
  constructor
  · rintro ⟨ds,hds,hl⟩
    obtain ⟨hdec,rfl⟩ := decodeFlushedDeltas_ok_iff.mp hds
    obtain ⟨hbud,rfl⟩ := filterByPerClientBudget_ok_iff.mp hl
    refine ⟨⟨fun s hs => hdec s ((hsort s).mpr hs),fun hh s hs d hd hf => ?_⟩,hkeep⟩
    refine hbud hh d (List.mem_filter.mpr ⟨?_,hf⟩)
    exact List.mem_filterMap.mpr ⟨s,(hsort s).mpr hs,by rw [hd]; rfl⟩
  · rintro ⟨⟨hdec,hbud⟩,rfl⟩
    refine ⟨_,decodeFlushedDeltas_ok_iff.mpr ⟨fun s hs => hdec s ((hsort s).mp hs),rfl⟩,?_⟩
    refine filterByPerClientBudget_ok_iff.mpr ⟨fun hh d hd => ?_,hkeep.symm⟩
    obtain ⟨hd,hf⟩ := List.mem_filter.mp hd
    obtain ⟨s,hs,hsd⟩ := List.mem_filterMap.mp hd
    have hok : decodeDelta s = .ok d := by
      cases h : decodeDelta s with
      | ok d' => simpa [h, Except.toOption] using hsd
      | error e => simp [h, Except.toOption] at hsd
    exact hbud hh s ((hsort s).mp hs) d hok hf

end ConfluxFL
