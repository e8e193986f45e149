import ConfluxFL.Server.Checked

/-! What the aggregator is given. Weights are joined to deltas under the client id, so the
batch is decided per client: which clients have a passing update, and which update of a client
came last. With distinct ids this is submission by submission. -/
namespace ConfluxFL
variable (config : ResolvedConfig) (exhausted : List RoundCost → Bool)
  (accountant : RdpAccountant)

/-- The transformed updates that reach the reputation filter. -/
def scoredUpdates (flushed : List Submission) : List (String × List F32) :=
  applyServerSidePrivacy config
    ((sortByClientId flushed).filterMap (checkedUpdate config exhausted accountant))

/-- One transformed update passes the reputation filter of its batch. -/
def passesReputation (decoded : List (String × List F32)) (weights : List F32) : Bool :=
  !config.reputationFilterEnabled.value ||
    config.minReputationScore.value.le (cosineScore weights (meanVector decoded))

/-- The submissions that pass every check themselves, each with its own metadata and the
transform of its own weights, in client-id order. -/
def survivors (flushed : List Submission) : List ClientDelta :=
  (sortByClientId flushed).filterMap fun s =>
    (checkedUpdate config exhausted accountant s).bind fun d =>
      if passesReputation config (scoredUpdates config exhausted accountant flushed)
          (transformed config d) then
        some (reencoded s (transformed config d))
      else none

/-- The last of a client's checked updates, in arrival order. -/
def lastUpdate (flushed : List Submission) (clientId : String) : Option Decoded :=
  ((flushed.filterMap (checkedUpdate config exhausted accountant)).filter fun d =>
    d.clientId = clientId).getLast?

/-- Some update of the client passes every check. -/
def clientPasses (flushed : List Submission) (clientId : String) : Bool :=
  (flushed.filterMap (checkedUpdate config exhausted accountant)).any fun d =>
    d.clientId = clientId &&
      passesReputation config (scoredUpdates config exhausted accountant flushed)
        (transformed config d)

/-- Every submission of a client with a passing update, in client-id order, with its own
metadata over the transform of that client's last checked weights. -/
def entriesByClient (flushed : List Submission) : List ClientDelta :=
  (sortByClientId flushed).filterMap fun s =>
    if clientPasses config exhausted accountant flushed s.clientId then
      (lastUpdate config exhausted accountant flushed s.clientId).map fun d =>
        reencoded s (transformed config d)
    else none

variable {config exhausted accountant} {flushed : List Submission}

theorem filter_checked (l : List Submission) (c : String) :
    (l.filterMap (checkedUpdate config exhausted accountant)).filter (fun d => d.clientId = c) =
      (StableSort.group Submission.clientId c l).filterMap
        (checkedUpdate config exhausted accountant) := by
  rw [StableSort.group, List.filter_filterMap, List.filterMap_filter]
  apply List.filterMap_congr
  intro s _
  cases h : checkedUpdate config exhausted accountant s with
  | none => simp
  | some d => simp [checkedUpdate_clientId h, Option.filter]

theorem filter_checked_sort (flushed : List Submission) (c : String) :
    ((sortByClientId flushed).filterMap (checkedUpdate config exhausted accountant)).filter
        (fun d => d.clientId = c) =
      (flushed.filterMap (checkedUpdate config exhausted accountant)).filter
        fun d => d.clientId = c := by
  rw [filter_checked, filter_checked, sortByClientId, StableSort.group_sortBy]

/-- The map built from the decoded list answers with the last update of a client. -/
theorem weightsByClient_scored (flushed : List Submission) (c : String) :
    weightsByClient (scoredUpdates config exhausted accountant flushed) c =
      (lastUpdate config exhausted accountant flushed c).map (transformed config) := by
  rw [weightsByClient, ← List.head?_filter, List.filter_reverse, List.head?_reverse,
    scoredUpdates, applyServerSidePrivacy, List.filter_map]
  change (((List.filter (fun d : Decoded => decide (d.clientId = c)) _).map _).getLast?).map _ = _
  rw [filter_checked_sort, List.getLast?_map, Option.map_map]
  rfl

theorem mem_passedIds {decoded : List (String × List F32)} {c : String} :
    c ∈ passedIds config decoded ↔
      ∃ e ∈ decoded, e.1 = c ∧ passesReputation config decoded e.2 = true := by
  unfold passedIds passesReputation filterByThreshold
  cases config.reputationFilterEnabled.value <;>
    simp [List.mem_map, List.mem_filter, and_assoc, and_comm]

theorem mem_passedIds_scored {c : String} :
    c ∈ passedIds config (scoredUpdates config exhausted accountant flushed) ↔
      clientPasses config exhausted accountant flushed c = true := by
  rw [mem_passedIds, clientPasses, List.any_eq_true]
  have hmem : ∀ d, d ∈ (sortByClientId flushed).filterMap
      (checkedUpdate config exhausted accountant) ↔
      d ∈ flushed.filterMap (checkedUpdate config exhausted accountant) := by
    intro d
    simp only [List.mem_filterMap, sortByClientId, StableSort.mem_sortBy]
  constructor
  · rintro ⟨e,he,hc,hp⟩
    rw [scoredUpdates, applyServerSidePrivacy, List.mem_map] at he
    obtain ⟨d,hd,rfl⟩ := he
    exact ⟨d,(hmem d).mp hd,by simpa using ⟨hc,hp⟩⟩
  · rintro ⟨d,hd,h⟩
    rw [Bool.and_eq_true, decide_eq_true_eq] at h
    refine ⟨(d.clientId,transformed config d),?_,h.1,h.2⟩
    exact List.mem_map_of_mem (f := fun d : Decoded => (d.clientId,transformed config d))
      ((hmem d).mpr hd)

theorem reencode_scored (flushed : List Submission) :
    reencodePassingDeltas (sortByClientId flushed)
        (scoredUpdates config exhausted accountant flushed)
        (passedIds config (scoredUpdates config exhausted accountant flushed)) =
      entriesByClient config exhausted accountant flushed := by
  rw [reencodePassingDeltas, entriesByClient, List.filterMap_filter]
  apply List.filterMap_congr
  intro s _
  rw [weightsByClient_scored, Option.map_map]
  have hc : (passedIds config (scoredUpdates config exhausted accountant flushed)).contains
      s.clientId = clientPasses config exhausted accountant flushed s.clientId := by
    rw [Bool.eq_iff_iff, List.contains_iff_mem, mem_passedIds_scored]
  rw [hc]
  rfl

/-- The pipeline's result in closed form. -/
theorem aggregationBatch_ok_iff {batch : List ClientDelta} :
    aggregationBatch config exhausted accountant flushed = .ok batch ↔
      Accepts config exhausted accountant flushed ∧
        batch = entriesByClient config exhausted accountant flushed := by
  unfold aggregationBatch
  rw [Fallible.except_bind_ok_iff]
  constructor
  · rintro ⟨l,hl,h⟩
    obtain ⟨ha,rfl⟩ := checkedUpdates_ok_iff.mp hl
    cases h
    exact ⟨ha,reencode_scored flushed⟩
  · rintro ⟨ha,rfl⟩
    exact ⟨_,checkedUpdates_ok_iff.mpr ⟨ha,rfl⟩,congrArg Except.ok (reencode_scored flushed)⟩

/-- Only clients in budget reach the aggregator. -/
theorem inBudget_of_mem_entries {b : ClientDelta}
    (hb : b ∈ entriesByClient config exhausted accountant flushed) :
    inBudget config exhausted accountant b.clientId = true := by
  obtain ⟨s,_,hs⟩ := List.mem_filterMap.mp hb
  split_ifs at hs with hpass
  obtain ⟨last,_,rfl⟩ := Option.map_eq_some_iff.mp hs
  rw [clientPasses, List.any_eq_true] at hpass
  obtain ⟨d,hd,hpass⟩ := hpass
  obtain ⟨u,_,hu⟩ := List.mem_filterMap.mp hd
  rw [Bool.and_eq_true, decide_eq_true_eq] at hpass
  have hin := (checkedUpdate_eq_some.mp hu).2.2
  rw [hpass.1] at hin
  exact hin

section Distinct
variable (hn : (flushed.map Submission.clientId).Nodup)
include hn

theorem group_of_nodup {s : Submission} (hs : s ∈ flushed) :
    StableSort.group Submission.clientId s.clientId flushed = [s] := by
  induction flushed with
  | nil => simp at hs
  | cons t l ih =>
    rw [List.map_cons, List.nodup_cons] at hn
    rcases List.mem_cons.mp hs with rfl | hs
    · have hnil : l.filter (fun a => a.clientId = s.clientId) = [] := by
        rw [List.filter_eq_nil_iff]
        intro a ha hac
        rw [decide_eq_true_eq] at hac
        exact hn.1 (hac ▸ List.mem_map_of_mem ha)
      simp [StableSort.group, hnil]
    · have hts : ¬t.clientId = s.clientId := fun h => hn.1 (h ▸ List.mem_map_of_mem hs)
      have hl := ih hn.2 hs
      rw [StableSort.group] at hl ⊢
      simp [hts, hl]

theorem filter_checked_of_nodup {s : Submission} (hs : s ∈ flushed) :
    (flushed.filterMap (checkedUpdate config exhausted accountant)).filter
        (fun d => d.clientId = s.clientId) =
      (checkedUpdate config exhausted accountant s).toList := by
  rw [filter_checked, group_of_nodup hn hs]
  cases h : checkedUpdate config exhausted accountant s <;> simp [h]

theorem entriesByClient_of_nodup : entriesByClient config exhausted accountant flushed =
    survivors config exhausted accountant flushed := by
  unfold entriesByClient survivors
  apply List.filterMap_congr
  intro s hs
  have hf : (flushed.filterMap (checkedUpdate config exhausted accountant)).filter
      (fun d => d.clientId = s.clientId) = (checkedUpdate config exhausted accountant s).toList :=
    filter_checked_of_nodup hn (StableSort.mem_sortBy.mp hs)
  have hp : clientPasses config exhausted accountant flushed s.clientId =
      (checkedUpdate config exhausted accountant s).any fun d =>
        passesReputation config (scoredUpdates config exhausted accountant flushed)
          (transformed config d) := by
    rw [clientPasses, ← List.any_filter, hf]
    cases checkedUpdate config exhausted accountant s <;> simp
  rw [lastUpdate, hf, hp]
  cases checkedUpdate config exhausted accountant s with
  | none => simp
  | some d => simp

end Distinct

/-- The aggregator's batch: every submission of a client that has a passing update, with its
own metadata over that client's last checked weights. When no client id is repeated these are
exactly the submissions that pass every check, each with its own weights. -/
theorem aggregationBatch_content (config : ResolvedConfig) (exhausted : List RoundCost → Bool)
    (accountant : RdpAccountant) (flushed : List Submission) (batch : List ClientDelta)
    (h : aggregationBatch config exhausted accountant flushed = .ok batch) :
    batch = entriesByClient config exhausted accountant flushed ∧
      ((flushed.map Submission.clientId).Nodup →
        batch = survivors config exhausted accountant flushed) := by
  obtain ⟨_,rfl⟩ := aggregationBatch_ok_iff.mp h
  exact ⟨rfl,fun hn => entriesByClient_of_nodup hn⟩

/-- Two updates of client `a` with different weights and sample counts, and one of client `b`
in between. -/
def repeatedClient : List Submission :=
  [.plain "a" 1 [⟨0x3f000000⟩] 10,.plain "b" 1 [⟨0x3e800000⟩] 20,.plain "a" 1 [⟨0x3e000000⟩] 30]

def sharedBatch : List ClientDelta :=
  [(Submission.plain "a" 1 [⟨0x3e000000⟩] 10).delta,
    (Submission.plain "a" 1 [⟨0x3e000000⟩] 30).delta,
    (Submission.plain "b" 1 [⟨0x3e800000⟩] 20).delta]

theorem aggregationBatch_repeatedClient :
    aggregationBatch .noiseless (fun _ => false) .new repeatedClient = .ok sharedBatch := by
  decide +kernel

theorem aggregationBatch_content_repeatedClient :
    aggregationBatch .noiseless (fun _ => false) .new repeatedClient = .ok sharedBatch ∧
      sharedBatch = entriesByClient .noiseless (fun _ => false) .new repeatedClient :=
  ⟨aggregationBatch_repeatedClient,
    (aggregationBatch_content _ _ _ _ _ aggregationBatch_repeatedClient).1⟩

/-- Both deltas of the repeated client carry the weights of the later one. -/
theorem aggregationBatch_ne_survivors :
    ¬∀ (config : ResolvedConfig) (exhausted : List RoundCost → Bool)
      (accountant : RdpAccountant) (flushed : List Submission) (batch : List ClientDelta),
      aggregationBatch config exhausted accountant flushed = .ok batch →
        batch = survivors config exhausted accountant flushed := by
  intro h
  have hb := h _ _ _ _ _ aggregationBatch_repeatedClient
  exact absurd hb (by decide +kernel)

end ConfluxFL
