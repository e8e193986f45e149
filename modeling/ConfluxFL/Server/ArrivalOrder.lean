import ConfluxFL.Server.BatchContent

/-! Arrival order. Sorting by client id fixes the order between clients and leaves the order
within one client to arrival, so the batch is the same for every order exactly when the filters'
verdict on each client is, and the submissions of a client they let through cannot be told apart
in it. -/
namespace ConfluxFL
variable (config : ResolvedConfig) (exhausted : List RoundCost → Bool)
  (accountant : RdpAccountant)

/-- Everything of a delta except its weights. -/
def Submission.metadata (s : Submission) : ClientDelta := { s.delta with weights := [] }

/-- The submissions of the client carry one metadata, and its checked updates transform to one
weight vector. -/
structure Indistinct (flushed : List Submission) (c : String) : Prop where
  metadata : ∀ s ∈ flushed, ∀ t ∈ flushed, s.clientId = c → t.clientId = c →
    s.metadata = t.metadata
  weights : ∀ s ∈ flushed, ∀ t ∈ flushed, ∀ d e,
    checkedUpdate config exhausted accountant s = some d →
    checkedUpdate config exhausted accountant t = some e → d.clientId = c → e.clientId = c →
    transformed config d = transformed config e

/-- The filters turn the client away in every order of arrival, or let it through in every
order, and then its submissions cannot be told apart. -/
def Settled (flushed : List Submission) (c : String) : Prop :=
  (∀ arrival : List Submission, arrival.Perm flushed →
    clientPasses config exhausted accountant arrival c = false) ∨
  (∀ arrival : List Submission, arrival.Perm flushed →
    clientPasses config exhausted accountant arrival c = true) ∧
    Indistinct config exhausted accountant flushed c

/-- Every order of arrival hands the aggregator the same batch, or none. -/
def ArrivalIndependent (flushed : List Submission) : Prop :=
  ∀ arrival : List Submission, arrival.Perm flushed →
    (aggregationBatch config exhausted accountant arrival).toOption =
      (aggregationBatch config exhausted accountant flushed).toOption

theorem eq_of_perm_of_forall_eq {α : Type*} {l m : List α} (h : l.Perm m)
    (he : ∀ a ∈ m, ∀ b ∈ m, a = b) : l = m := by
  cases m with
  | nil => exact h.eq_nil
  | cons a m =>
    have hm : a::m = List.replicate (a::m).length a :=
      List.eq_replicate_iff.mpr ⟨rfl,fun b hb => he b hb a List.mem_cons_self⟩
    have hl : l = List.replicate (a::m).length a :=
      List.eq_replicate_iff.mpr ⟨h.length_eq,fun b hb => he b (h.mem_iff.mp hb) a List.mem_cons_self⟩
    rw [hl, ← hm]

theorem exists_perm_cons {α : Type*} {a : α} {l : List α} (h : a ∈ l) :
    ∃ m : List α, (a::m).Perm l := by
  obtain ⟨x,y,rfl⟩ := List.append_of_mem h
  exact ⟨x++y,List.perm_middle.symm⟩

theorem exists_perm_concat {α : Type*} {a : α} {l : List α} (h : a ∈ l) :
    ∃ m : List α, (m++[a]).Perm l := by
  obtain ⟨m,hm⟩ := exists_perm_cons h
  exact ⟨m,(List.perm_append_singleton a m).trans hm⟩

variable {config exhausted accountant} {flushed arrival : List Submission}

theorem group_perm (h : arrival.Perm flushed) (c : String) :
    (StableSort.group Submission.clientId c arrival).Perm
      (StableSort.group Submission.clientId c flushed) := h.filter _

theorem accepts_perm (h : arrival.Perm flushed) : Accepts config exhausted accountant arrival ↔
    Accepts config exhausted accountant flushed := by
  simp only [Accepts, h.mem_iff]

theorem sorted_filterMap {β : Type} {f : Submission → Option β} {key : β → String}
    (hf : ∀ s b, f s = some b → key b = s.clientId) (l : List Submission) :
    StableSort.SortedBy key ((sortByClientId l).filterMap f) := by
  rw [StableSort.SortedBy, List.pairwise_filterMap]
  refine (StableSort.sortBy_sorted (l := l)).imp fun hab b hb b' hb' => ?_
  rw [hf _ _ hb, hf _ _ hb']
  exact hab

theorem group_filterMap {β : Type} {f : Submission → Option β} {key : β → String}
    (hf : ∀ s b, f s = some b → key b = s.clientId) (l : List Submission) (c : String) :
    StableSort.group key c ((sortByClientId l).filterMap f) =
      (StableSort.group Submission.clientId c l).filterMap f := by
  rw [← StableSort.group_sortBy l]
  simp only [StableSort.group, List.filter_filterMap, List.filterMap_filter]
  apply List.filterMap_congr
  intro s _
  cases h : f s with
  | none => simp
  | some b => simp [hf s b h, Option.filter]

theorem entry_clientId {s : Submission} {b : ClientDelta}
    (h : (if clientPasses config exhausted accountant flushed s.clientId then
      (lastUpdate config exhausted accountant flushed s.clientId).map fun d =>
        reencoded s (transformed config d)
      else none) = some b) : b.clientId = s.clientId := by
  split_ifs at h
  obtain ⟨d,_,rfl⟩ := Option.map_eq_some_iff.mp h
  rfl

theorem reencoded_eq_of_metadata {s t : Submission} (h : s.metadata = t.metadata)
    (w : List F32) : reencoded s w = reencoded t w := by
  have hs : ∀ u : Submission, reencoded u w =
      { u.metadata with weights := encodeWeights w } := fun u => rfl
  rw [hs, hs, h]

/-- The last update of a client that passes, and the submission it was decoded from. -/
theorem exists_lastUpdate {c : String}
    (h : clientPasses config exhausted accountant flushed c = true) :
    ∃ d, lastUpdate config exhausted accountant flushed c = some d ∧
      ∃ s ∈ flushed, checkedUpdate config exhausted accountant s = some d ∧ d.clientId = c := by
  rw [clientPasses, List.any_eq_true] at h
  obtain ⟨d,hd,h⟩ := h
  rw [Bool.and_eq_true] at h
  have hm : d ∈ (flushed.filterMap (checkedUpdate config exhausted accountant)).filter fun d =>
      d.clientId = c := List.mem_filter.mpr ⟨hd,h.1⟩
  obtain ⟨e,he⟩ := Option.isSome_iff_exists.mp
    (List.getLast?_isSome.mpr (List.ne_nil_of_mem hm))
  obtain ⟨hmem,hc⟩ := List.mem_filter.mp (List.mem_of_getLast? he)
  obtain ⟨s,hs,hse⟩ := List.mem_filterMap.mp hmem
  exact ⟨e,he,s,hs,hse,of_decide_eq_true hc⟩

/-- One client's part of the batch: its submissions over the weights of its last update. -/
theorem group_entries {c : String} {d : Decoded}
    (hp : clientPasses config exhausted accountant flushed c = true)
    (hd : lastUpdate config exhausted accountant flushed c = some d) :
    StableSort.group ClientDelta.clientId c (entriesByClient config exhausted accountant flushed) =
      (StableSort.group Submission.clientId c flushed).map fun s =>
        reencoded s (transformed config d) := by
  rw [entriesByClient, group_filterMap fun _ _ => entry_clientId, ← List.filterMap_eq_map]
  apply List.filterMap_congr
  intro s hs
  rw [(StableSort.mem_group.mp hs).2, if_pos hp, hd]
  rfl

theorem group_entries_nil {c : String}
    (hp : clientPasses config exhausted accountant flushed c = false) :
    StableSort.group ClientDelta.clientId c
      (entriesByClient config exhausted accountant flushed) = [] := by
  rw [entriesByClient, group_filterMap fun _ _ => entry_clientId, List.filterMap_eq_nil_iff]
  intro s hs
  rw [(StableSort.mem_group.mp hs).2, if_neg (Bool.eq_false_iff.mp hp)]

/-- The batch is the same for two arrival orders once every client's part is settled. -/
theorem entriesByClient_perm (h : arrival.Perm flushed)
    (hi : ∀ c, Settled config exhausted accountant flushed c) :
    entriesByClient config exhausted accountant arrival =
      entriesByClient config exhausted accountant flushed := by
  apply (sorted_filterMap (fun _ _ => entry_clientId) arrival).ext
    (sorted_filterMap (fun _ _ => entry_clientId) flushed)
  intro c
  change StableSort.group ClientDelta.clientId c (entriesByClient config exhausted accountant
    arrival) = StableSort.group ClientDelta.clientId c (entriesByClient config exhausted accountant
    flushed)
  rcases hi c with hno | ⟨hyes,hind⟩
  · rw [group_entries_nil (hno _ h), group_entries_nil (hno _ (List.Perm.refl _))]
  · obtain ⟨d,hd,s,hs,hsd,hdc⟩ := exists_lastUpdate (hyes _ h)
    obtain ⟨e,he,t,ht,hte,hec⟩ := exists_lastUpdate (hyes _ (List.Perm.refl _))
    rw [group_entries (hyes _ h) hd, group_entries (hyes _ (List.Perm.refl _)) he,
      hind.weights s (h.mem_iff.mp hs) t ht d e hsd hte hdc hec]
    apply eq_of_perm_of_forall_eq ((group_perm h c).map _)
    intro a ha b hb
    obtain ⟨u,hu,rfl⟩ := List.mem_map.mp ha
    obtain ⟨v,hv,rfl⟩ := List.mem_map.mp hb
    obtain ⟨hu,huc⟩ := StableSort.mem_group.mp hu
    obtain ⟨hv,hvc⟩ := StableSort.mem_group.mp hv
    exact reencoded_eq_of_metadata (hind.metadata u hu v hv huc hvc) _

/-- The pipeline's answer in closed form, errors forgotten. -/
theorem aggregationBatch_toOption (l : List Submission) :
    (Accepts config exhausted accountant l → (aggregationBatch config exhausted accountant
        l).toOption = some (entriesByClient config exhausted accountant l)) ∧
      (¬Accepts config exhausted accountant l →
        (aggregationBatch config exhausted accountant l).toOption = none) := by
  constructor
  · intro ha
    rw [aggregationBatch_ok_iff.mpr ⟨ha,rfl⟩]
    rfl
  · intro ha
    cases h : aggregationBatch config exhausted accountant l with
    | ok batch => exact absurd (aggregationBatch_ok_iff.mp h).1 ha
    | error e => rfl

/-- Every order gives one batch exactly when the checks refuse the flush or the entries agree. -/
theorem arrivalIndependent_iff : ArrivalIndependent config exhausted accountant flushed ↔
    (Accepts config exhausted accountant flushed →
      ∀ arrival : List Submission, arrival.Perm flushed →
        entriesByClient config exhausted accountant arrival =
          entriesByClient config exhausted accountant flushed) := by
  by_cases ha : Accepts config exhausted accountant flushed
  · rw [imp_iff_right ha]
    refine forall₂_congr fun arrival h => ?_
    rw [(aggregationBatch_toOption arrival).1 ((accepts_perm h).mpr ha),
      (aggregationBatch_toOption flushed).1 ha, Option.some.injEq]
  · refine iff_of_true (fun arrival h => ?_) fun h => absurd h ha
    rw [(aggregationBatch_toOption arrival).2 (fun h' => ha ((accepts_perm h).mp h')),
      (aggregationBatch_toOption flushed).2 ha]

theorem arrivalIndependent_of_settled (hi : ∀ c, Settled config exhausted accountant flushed c) :
    ArrivalIndependent config exhausted accountant flushed :=
  arrivalIndependent_iff.mpr fun _ _ h => entriesByClient_perm h hi

/-- Distinct client ids leave nothing to confuse. -/
theorem settled_of_nodup (hn : (flushed.map Submission.clientId).Nodup) (c : String) :
    Settled config exhausted accountant flushed c := by
  have heq : ∀ s ∈ flushed, ∀ t ∈ flushed, s.clientId = t.clientId → s = t :=
    fun s hs t ht hst => List.inj_on_of_nodup_map hn hs ht hst
  have hsort : ∀ arrival : List Submission, arrival.Perm flushed →
      sortByClientId arrival = sortByClientId flushed := by
    intro arrival h
    refine (StableSort.sortBy_sorted (l := arrival)).ext StableSort.sortBy_sorted fun c => ?_
    rw [StableSort.group_sortBy, sortByClientId, StableSort.group_sortBy]
    apply eq_of_perm_of_forall_eq (group_perm h c)
    intro a ha b hb
    obtain ⟨ha,hac⟩ := StableSort.mem_group.mp ha
    obtain ⟨hb,hbc⟩ := StableSort.mem_group.mp hb
    exact heq a ha b hb (hac.trans hbc.symm)
  have hpass : ∀ arrival : List Submission, arrival.Perm flushed →
      clientPasses config exhausted accountant arrival c =
        clientPasses config exhausted accountant flushed c := by
    intro arrival h
    rw [Bool.eq_iff_iff, ← mem_passedIds_scored, ← mem_passedIds_scored, scoredUpdates,
      scoredUpdates, hsort arrival h]
  cases hc : clientPasses config exhausted accountant flushed c with
  | false => exact .inl fun arrival h => (hpass arrival h).trans hc
  | true =>
    refine .inr ⟨fun arrival h => (hpass arrival h).trans hc,?_,?_⟩
    · intro s hs t ht hsc htc
      rw [heq s hs t ht (hsc.trans htc.symm)]
    · intro s hs t ht d e hd he hdc hec
      have hst : s = t := by
        apply heq s hs t ht
        rw [← checkedUpdate_clientId hd, ← checkedUpdate_clientId he, hdc, hec]
      rw [hst, he] at hd
      cases hd
      rfl

section Necessity

/-- A client whose part of the batch is not empty was let through. -/
theorem clientPasses_of_group {c : String} {b : ClientDelta}
    (h : b ∈ StableSort.group ClientDelta.clientId c
      (entriesByClient config exhausted accountant flushed)) :
    clientPasses config exhausted accountant flushed c = true := by
  by_contra hp
  rw [group_entries_nil (Bool.eq_false_iff.mpr hp)] at h
  exact absurd h List.not_mem_nil

/-- The client whose submission arrives first opens its part of the batch with it. -/
theorem head_group_entries {s : Submission} {l : List Submission}
    (hp : clientPasses config exhausted accountant (s::l) s.clientId = true) :
    ∃ w, (StableSort.group ClientDelta.clientId s.clientId
      (entriesByClient config exhausted accountant (s::l))).head? = some (reencoded s w) := by
  obtain ⟨d,hd,_⟩ := exists_lastUpdate hp
  refine ⟨transformed config d,?_⟩
  rw [group_entries hp hd]
  simp [StableSort.group]

/-- A checked update that arrives last gives its weights to its client's part. -/
theorem getLast_group_entries {s : Submission} {l : List Submission} {d : Decoded}
    (hd : checkedUpdate config exhausted accountant s = some d)
    (hp : clientPasses config exhausted accountant (l++[s]) s.clientId = true) :
    (StableSort.group ClientDelta.clientId s.clientId
      (entriesByClient config exhausted accountant (l++[s]))).getLast? =
        some (reencoded s (transformed config d)) := by
  have hl : lastUpdate config exhausted accountant (l++[s]) s.clientId = some d := by
    simp [lastUpdate, List.filterMap_append, hd, checkedUpdate_clientId hd]
  rw [group_entries hp hl]
  simp [StableSort.group]

variable (heq : ∀ arrival : List Submission, arrival.Perm flushed →
  entriesByClient config exhausted accountant arrival =
    entriesByClient config exhausted accountant flushed)
include heq

/-- Equal batches mean equal verdicts on every client. -/
theorem clientPasses_perm (h : arrival.Perm flushed) (c : String) :
    clientPasses config exhausted accountant arrival c =
      clientPasses config exhausted accountant flushed c := by
  have hpart : ∀ l m : List Submission, entriesByClient config exhausted accountant l =
      entriesByClient config exhausted accountant m →
      clientPasses config exhausted accountant l c = true →
      clientPasses config exhausted accountant m c = true := by
    intro l m hlm hp
    obtain ⟨d,hd,s,hs,hsd,hdc⟩ := exists_lastUpdate hp
    have hsc : s.clientId = c := (checkedUpdate_clientId hsd).symm.trans hdc
    have hb := group_entries hp hd
    rw [hlm] at hb
    have hmem : reencoded s (transformed config d) ∈ StableSort.group ClientDelta.clientId c
        (entriesByClient config exhausted accountant m) := by
      rw [hb]
      exact List.mem_map.mpr ⟨s,StableSort.mem_group.mpr ⟨hs,hsc⟩,rfl⟩
    exact clientPasses_of_group hmem
  exact Bool.eq_iff_iff.mpr ⟨hpart _ _ (heq _ h),hpart _ _ (heq _ h).symm⟩

theorem indistinct_of_entries_eq {c : String}
    (hp : ∀ arrival : List Submission, arrival.Perm flushed →
      clientPasses config exhausted accountant arrival c = true) :
    Indistinct config exhausted accountant flushed c := by
  constructor
  · rintro s hs t ht rfl htc
    obtain ⟨l,hl⟩ := exists_perm_cons hs
    obtain ⟨m,hm⟩ := exists_perm_cons ht
    obtain ⟨w,hw⟩ := head_group_entries (hp _ hl)
    obtain ⟨v,hv⟩ := head_group_entries (htc ▸ hp _ hm)
    rw [heq _ hl] at hw
    rw [heq _ hm, htc, hw, Option.some.injEq] at hv
    exact congrArg (fun b : ClientDelta => { b with weights := [] }) hv
  · intro s hs t ht d e hd he hdc hec
    have hsc : s.clientId = c := (checkedUpdate_clientId hd).symm.trans hdc
    have htc : t.clientId = c := (checkedUpdate_clientId he).symm.trans hec
    obtain ⟨l,hl⟩ := exists_perm_concat hs
    obtain ⟨m,hm⟩ := exists_perm_concat ht
    have hw := getLast_group_entries hd (hsc ▸ hp _ hl)
    have hv := getLast_group_entries he (htc ▸ hp _ hm)
    rw [heq _ hl, hsc] at hw
    rw [heq _ hm, htc, hw, Option.some.injEq] at hv
    exact encodeWeights_injective (congrArg ClientDelta.weights hv)

end Necessity

/-- Every order gives one batch exactly when the checks refuse the flush or every client is
settled in it. -/
theorem arrivalIndependent_iff_settled :
    ArrivalIndependent config exhausted accountant flushed ↔
      (Accepts config exhausted accountant flushed →
        ∀ c, Settled config exhausted accountant flushed c) := by
  rw [arrivalIndependent_iff]
  refine forall_congr' fun _ => ⟨fun heq c => ?_,fun hi arrival h => entriesByClient_perm h hi⟩
  cases hc : clientPasses config exhausted accountant flushed c with
  | false => exact .inl fun arrival h => (clientPasses_perm heq h c).trans hc
  | true =>
    have hp : ∀ arrival : List Submission, arrival.Perm flushed →
        clientPasses config exhausted accountant arrival c = true :=
      fun arrival h => (clientPasses_perm heq h c).trans hc
    exact .inr ⟨hp,indistinct_of_entries_eq heq hp⟩

end ConfluxFL
