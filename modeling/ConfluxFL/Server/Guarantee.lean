import ConfluxFL.Config.Validate
import ConfluxFL.Core.Krum
import ConfluxFL.Server.ArrivalOrder
import ConfluxFL.Server.Checkpoints

/-! Whether a checkpoint lies within the guarantee its method cites. The requirement is checked
against the batch that was flushed; the filters run after the check and may leave fewer updates
than the method needs at that size. -/
namespace ConfluxFL
open Fallible RoundM
variable {κ : Type} {d : Deployment κ} {env : RoundEnv} {s t : Server κ}

/-- The attempt made this checkpoint durable. -/
def Saves (d : Deployment κ) (env : RoundEnv) (s : Server κ) (entry : SavedCheckpoint) : Prop :=
  (stateOf (runRound d env s)).history = s.history++[entry]

/-- How many of the flushed submissions belong to a client with an update that passes the
finiteness, budget and reputation checks. -/
def keptCount (d : Deployment κ) (env : RoundEnv) (s : Server κ) : ℕ :=
  (env.flushed s.round).countP fun u =>
    clientPasses d.config d.budgetExhausted s.accountant (env.flushed s.round) u.clientId

/-- The citations' inequalities at batch size `n`, for a fraction that is one. -/
def Cited (aggregator : String) (byzantineFraction : F32) (n : ℕ) : Prop :=
  n ≠ 0 → (F32.zero.le byzantineFraction && byzantineFraction.le F32.one) = true →
    let f := min (byzantineFraction*F32.ofNat n).floorToNat (n-1)
    ((aggregator = "krum" ∨ aggregator = "multi_krum") → 2*f+3 ≤ n) ∧
      (aggregator = "bulyan" → 4*f+3 ≤ n) ∧ (aggregator = "trimmed_mean" → 2*f+1 ≤ n)

theorem meetsRequirement_iff {aggregator : String} {byzantineFraction : F32} {n : ℕ} :
    meetsRequirement aggregator byzantineFraction n = true ↔
      Cited aggregator byzantineFraction n := by
  unfold meetsRequirement batchRequirement Cited
  by_cases hn : n = 0
  · simp [hn]
  by_cases hf : (F32.zero.le byzantineFraction && byzantineFraction.le F32.one) = true
  · simp only [hn, hf, Bool.not_true, Bool.false_eq_true, or_self, if_false, ne_eq,
      not_false_eq_true, true_implies, excludedAt]
    generalize min (byzantineFraction*F32.ofNat n).floorToNat (n-1) = f
    unfold citedMinimum
    split
    · simp [BatchRequirement.satisfiedBy]
    · simp [BatchRequirement.satisfiedBy]
    · simp [BatchRequirement.satisfiedBy]
    · simp [BatchRequirement.satisfiedBy]
    · rename_i h₁ h₂ h₃ h₄
      have hcited : ((aggregator = "krum" ∨ aggregator = "multi_krum") → 2*f+3 ≤ n) ∧
          (aggregator = "bulyan" → 4*f+3 ≤ n) ∧ (aggregator = "trimmed_mean" → 2*f+1 ≤ n) :=
        ⟨fun h => (h.elim h₁ h₂).elim,fun h => (h₃ h).elim,fun h => (h₄ h).elim⟩
      simpa using hcited
  · simp [hn, hf]

theorem length_entriesByClient {config : ResolvedConfig} {exhausted : List RoundCost → Bool}
    {accountant : RdpAccountant} (flushed : List Submission) :
    (entriesByClient config exhausted accountant flushed).length =
      flushed.countP fun u => clientPasses config exhausted accountant flushed u.clientId := by
  have hperm : (sortByClientId flushed).Perm flushed := StableSort.sortBy_perm
  rw [entriesByClient, List.length_filterMap_eq_countP, ← hperm.countP_eq]
  apply List.countP_congr
  intro u _
  by_cases hpass : clientPasses config exhausted accountant flushed u.clientId = true
  · obtain ⟨last,hlast,-⟩ := exists_lastUpdate hpass
    simp [hpass, hlast]
  · simp [hpass]

/-- The batch behind a checkpoint is the one the attempt prepared. -/
theorem Saves.prepared {entry : SavedCheckpoint} (h : Saves d env s entry) :
    ∃ p, PreparedFrom d env s p ∧ entry.batch = p.batch := by
  unfold Saves at h
  rcases runRound_durable d env s with ⟨_,hs⟩ | ⟨p,s₁,weights,ready,_,hs⟩
  · have hlen := congrArg List.length (hs.symm.trans h)
    simp at hlen
  · have hlast := List.append_cancel_left (hs.symm.trans h)
    cases hlast
    exact ⟨p,prepareBatch_ok ready,rfl⟩

theorem length_batch {p : Prepared} (h : PreparedFrom d env s p) :
    p.batch.length = keptCount d env s := by
  rw [(aggregationBatch_ok_iff.mp h.batch).2, length_entriesByClient]
  rfl

/-- A checkpoint lies within its method's citation exactly when the submissions that are kept
satisfy the citation's inequality at their own number; when nothing is dropped they do. -/
theorem saved_withinCitation_iff (d : Deployment κ) (env : RoundEnv) (s : Server κ)
    (entry : SavedCheckpoint) (h : Saves d env s entry) :
    (meetsRequirement d.config.aggregator.value d.config.robustByzantineFraction.value
        entry.batch.length = true ↔
      Cited d.config.aggregator.value d.config.robustByzantineFraction.value
        (keptCount d env s)) ∧
    (keptCount d env s = (env.flushed s.round).length → keptCount d env s < 2^32 →
      Cited d.config.aggregator.value d.config.robustByzantineFraction.value
        (keptCount d env s)) := by
  obtain ⟨p,hp,hbatch⟩ := h.prepared
  constructor
  · rw [hbatch, length_batch hp, meetsRequirement_iff]
  · intro hkept hlt
    have hreq := hp.requirement
    rw [← hkept, Nat.mod_eq_of_lt hlt] at hreq
    exact meetsRequirement_iff.mp hreq

section Runs

/-- Krum for a Byzantine fraction of 0.3. -/
def krumProcess : Deployment Unit :=
  { Deployment.noiseless (krum ⟨0x3e99999a⟩) with
    config := { ResolvedConfig.noiseless with
      aggregator := ⟨"krum",.cli⟩
      robustByzantineFraction := ⟨⟨0x3e99999a⟩,.cli⟩ } }

def krumServer : Server Unit :=
  (Run.after World.step seededWorld [.connect krumProcess []]).server

/-- Five submissions; the last one is the given value. -/
def fiveSubmissions (last : F32) : RoundEnv :=
  .clean [.plain "a" 1 [F32.one] 10,.plain "b" 1 [F32.one] 10,.plain "c" 1 [F32.one] 10,
    .plain "d" 1 [F32.one] 10,.plain "e" 1 [last] 10]

/-- An attempt on the fresh server that ends with one checkpoint of `n` updates. -/
theorem exists_saves {env : RoundEnv} {n : ℕ}
    (h : (stateOf (runRound krumProcess env krumServer)).history.map
      (fun entry => entry.batch.length) = [n]) :
    ∃ entry, Saves krumProcess env krumServer entry ∧ entry.batch.length = n := by
  obtain ⟨entry,hentry,hn⟩ := List.map_eq_singleton_iff.mp h
  exact ⟨entry,hentry,hn⟩

theorem saved_withinCitation_five : ∃ entry,
    Saves krumProcess (fiveSubmissions F32.one) krumServer entry ∧
      meetsRequirement "krum" ⟨0x3e99999a⟩ entry.batch.length = true := by
  have hrun : (stateOf (runRound krumProcess (fiveSubmissions F32.one) krumServer)).history.map
      (fun entry => entry.batch.length) = [5] := by decide +kernel
  obtain ⟨entry,hsaves,_⟩ := exists_saves hrun
  have hiff := saved_withinCitation_iff krumProcess (fiveSubmissions F32.one) krumServer entry hsaves
  exact ⟨entry,hsaves,hiff.1.mpr (hiff.2 (by decide +kernel) (by decide +kernel))⟩

/-- Four of five finite updates are left of a batch that just met the requirement. -/
theorem not_withinCitation_afterNaN : krumProcess.config.accepted = true ∧
    ∃ entry, Saves krumProcess (fiveSubmissions ⟨0x7fc00000⟩) krumServer entry ∧
      meetsRequirement "krum" ⟨0x3e99999a⟩ entry.batch.length = false := by
  have hrun : (stateOf (runRound krumProcess (fiveSubmissions ⟨0x7fc00000⟩)
      krumServer)).history.map (fun entry => entry.batch.length) = [4] := by decide +kernel
  obtain ⟨entry,hsaves,hn⟩ := exists_saves hrun
  refine ⟨by decide,entry,hsaves,?_⟩
  rw [hn]
  decide

end Runs
end ConfluxFL
