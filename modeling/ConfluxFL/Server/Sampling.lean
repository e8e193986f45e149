import Mathlib.Algebra.Order.Field.Rat
import Mathlib.Data.Finset.Card
import ConfluxFL.Server.Guarantee

/-! Whether the sampling rate the accountant is charged with covers the clients a round exposes.
The rate is the share selected when the round opens; who submits afterwards is up to the
clients. -/
namespace ConfluxFL
open Fallible RoundM
variable {κ : Type} {d : Deployment κ} {env : RoundEnv} {s t : Server κ}

/-- The clients an attempt selects among the active ones. -/
def selectedClients (d : Deployment κ) (env : RoundEnv) (s : Server κ) (active : List String) :
    List String :=
  d.selector.select env.entropy active ((quorumOverride d).getD active.length) s.round

/-- The distinct clients whose updates a batch exposes. -/
def exposed (batch : List ClientDelta) : Finset String :=
  (batch.map ClientDelta.clientId).toFinset

/-- A completed round from `s` to `t` is charged with a rate that covers it: the rate is the
selected share, every client in the aggregated batch was selected, there are no more of them,
and so they are at most that share of the active clients. -/
structure SamplingCovered (d : Deployment κ) (env : RoundEnv) (s t : Server κ)
    (active : List String) : Prop where
  recorded : t.accountant.rounds = s.accountant.rounds++[⟨d.config.noiseMultiplier.value,
    F32.ofNat (selectedClients d env s active).length/F32.ofNat active.length⟩]
  selected : ∀ entry, t.history = s.history++[entry] →
    ∀ c ∈ exposed entry.batch, c ∈ selectedClients d env s active
  count : ∀ entry, t.history = s.history++[entry] →
    (exposed entry.batch).card ≤ (selectedClients d env s active).length
  share : ∀ entry, t.history = s.history++[entry] →
    ((exposed entry.batch).card : ℚ)/active.length ≤
      ((selectedClients d env s active).length : ℚ)/active.length

/-- Whoever has a submission in the flush that passes the checks was selected. -/
def SubmittersSelected (d : Deployment κ) (env : RoundEnv) (s : Server κ)
    (active : List String) : Prop :=
  ∀ u ∈ env.flushed s.round,
    clientPasses d.config d.budgetExhausted s.accountant (env.flushed s.round) u.clientId = true →
      u.clientId ∈ selectedClients d env s active

theorem mem_entriesByClient_ids {config : ResolvedConfig} {exhausted : List RoundCost → Bool}
    {accountant : RdpAccountant} {flushed : List Submission} {c : String} :
    c ∈ (entriesByClient config exhausted accountant flushed).map ClientDelta.clientId ↔
      ∃ u ∈ flushed, u.clientId = c ∧
        clientPasses config exhausted accountant flushed u.clientId = true := by
  simp only [entriesByClient, List.mem_map, List.mem_filterMap, sortByClientId,
    StableSort.mem_sortBy]
  constructor
  · rintro ⟨delta,⟨u,hu,hentry⟩,rfl⟩
    split_ifs at hentry with hpass
    obtain ⟨last,_,rfl⟩ := Option.map_eq_some_iff.mp hentry
    exact ⟨u,hu,rfl,hpass⟩
  · rintro ⟨u,hu,rfl,hpass⟩
    obtain ⟨last,hlast,-⟩ := exists_lastUpdate hpass
    exact ⟨reencoded u (transformed config last),⟨u,hu,by rw [if_pos hpass, hlast]; rfl⟩,rfl⟩

/-- The clients of a prepared batch are the flushed ones that pass. -/
theorem mem_exposed {p : Prepared} (h : PreparedFrom d env s p) {c : String} :
    c ∈ exposed p.batch ↔ ∃ u ∈ env.flushed s.round, u.clientId = c ∧
      clientPasses d.config d.budgetExhausted s.accountant (env.flushed s.round) u.clientId =
        true := by
  rw [exposed, List.mem_toFinset, (aggregationBatch_ok_iff.mp h.batch).2, mem_entriesByClient_ids]

/-- Clients that were all selected are not more than were selected. -/
theorem card_exposed_le {batch : List ClientDelta} {selected : List String}
    (h : ∀ c ∈ exposed batch, c ∈ selected) : (exposed batch).card ≤ selected.length := by
  have hsub : exposed batch ⊆ selected.toFinset := fun c hc => List.mem_toFinset.mpr (h c hc)
  exact (Finset.card_le_card hsub).trans selected.toFinset_card_le

/-- What a completed attempt leaves behind: one entry, one charge. -/
theorem runRound_completed {summary : RoundSummary} (h : runRound d env s = .ok summary t) :
    ∃ p weights, PreparedFrom d env s p ∧ t.history = s.history++[⟨s.round,weights,p.batch⟩] ∧
      t.accountant.rounds = s.accountant.rounds++[p.cost d] := by
  have hattempt := runRound_attempt d env s
  rw [h] at hattempt
  cases hattempt with
  | @completed p s₁ t' weights ready answer save rows =>
    have hkeeps := keeps_appendRows.ok rows
    have hacc : s₁.accountant = s.accountant :=
      congrArg Core.accountant (keeps_prepareBatch.ok ready)
    have hcharged : t'.accountant = (committed d s₁ p weights).accountant :=
      congrArg Core.accountant hkeeps
    refine ⟨p,weights,prepareBatch_ok ready,(checkpointed_durable ready hkeeps).2,?_⟩
    change t'.accountant.rounds = _
    rw [hcharged, ← hacc]
    simp [committed, Server.charged, Server.checkpointed, aggregated]

/-- A completed round is covered exactly when all who submit to it were selected. -/
theorem samplingCovered_iff {summary : RoundSummary} {active : List String}
    (h : runRound d env s = .ok summary t) (hactive : env.active = .value active)
    (hne : active ≠ []) : SamplingCovered d env s t active ↔ SubmittersSelected d env s active := by
  obtain ⟨p,weights,hp,hhistory,hrounds⟩ := runRound_completed h
  constructor
  · intro hcovered u hu hpass
    exact hcovered.selected _ hhistory _ ((mem_exposed hp).mpr ⟨u,hu,rfl,hpass⟩)
  · intro hsubmit
    obtain ⟨active',hactive',hnumActive,hnumSelected⟩ := hp.selection
    rw [hactive] at hactive'
    cases hactive'
    have hbatch : ∀ entry, t.history = s.history++[entry] → entry.batch = p.batch := by
      intro entry hentry
      have heq := List.append_cancel_left (hhistory.symm.trans hentry)
      cases heq
      rfl
    have hselected : ∀ c ∈ exposed p.batch, c ∈ selectedClients d env s active := by
      intro c hc
      obtain ⟨u,hu,rfl,hpass⟩ := (mem_exposed hp).mp hc
      exact hsubmit u hu hpass
    refine ⟨?_,?_,?_,?_⟩
    · have hlen : active.length ≠ 0 := fun hzero => hne (List.length_eq_zero_iff.mp hzero)
      rw [hrounds, Prepared.cost, roundCost, hnumActive, hnumSelected, if_neg hlen]
      rfl
    · intro entry hentry
      rwa [hbatch entry hentry]
    · intro entry hentry
      rw [hbatch entry hentry]
      exact card_exposed_le hselected
    · intro entry hentry
      rw [hbatch entry hentry]
      have hcount : ((exposed p.batch).card : ℚ) ≤ (selectedClients d env s active).length :=
        Nat.cast_le.mpr (card_exposed_le hselected)
      exact div_le_div_of_nonneg_right hcount (Nat.cast_nonneg _)

section Runs

/-- The event completes a round that had active clients. -/
def Completes (w : World κ) (e : Event κ) (d : Deployment κ) (env : RoundEnv) (t : Server κ)
    (active : List String) : Prop :=
  w.Attempts e d env ∧ (∃ summary, runRound d env w.server = .ok summary t) ∧
    env.active = .value active ∧ active ≠ []

/-- The accountant does not under-report the sampling rate. -/
def ReportsSampling (w : World κ) (e : Event κ) : Prop :=
  ∀ d env t active, Completes w e d env t active → SamplingCovered d env w.server t active

/-- To every round that completes, only selected clients have submitted what passes. -/
def SelectedSubmit (w : World κ) (e : Event κ) : Prop :=
  ∀ d env t active, Completes w e d env t active → SubmittersSelected d env w.server active

/-- Over every run, the rate charged covers the clients exposed exactly when only selected
clients submit; the server hands tasks to anybody and takes anybody's update. -/
theorem reportsSampling_iff_selectedSubmit (w : World κ) (events : List (Event κ)) :
    Run.Always World.step ReportsSampling w events ↔
      Run.Always World.step SelectedSubmit w events := by
  apply Run.always_congr
  intro w e
  refine forall₅_congr fun d env t active hcompletes => ?_
  obtain ⟨_,⟨summary,hrun⟩,hactive,hne⟩ := hcompletes
  exact samplingCovered_iff hrun hactive hne

/-- One client of two is enough for a round. -/
def quorumOfOne : Deployment Unit :=
  { Deployment.noiseless fedAvg with
    config := { ResolvedConfig.noiseless with quorum := some ⟨1,.cli⟩ } }

/-- Both clients submit before the round flushes. -/
def bothSubmit : RoundEnv := .clean [.plain "a" 1 [F32.one] 10,.plain "b" 1 [F32.one] 10]

/-- The round exposes two clients and is charged for one of two. -/
theorem not_reportsSampling_bothSubmit : quorumOfOne.config.accepted = true ∧
    ¬Run.Always World.step ReportsSampling seededWorld
      [.connect quorumOfOne [],.round bothSubmit] := by
  refine ⟨by decide,fun h => ?_⟩
  have hround := Run.always_iff_forall_split.mp h [_] _ [] rfl
  have hrun : completesWith (fun _ => true) (runRound quorumOfOne bothSubmit
      (Run.after World.step seededWorld [.connect quorumOfOne []]).server) = true := by
    decide +kernel
  obtain ⟨summary,t,hresult,_⟩ := exists_ok_of_completesWith hrun
  have hcovered := hround quorumOfOne bothSubmit t ["a","b"]
    ⟨⟨rfl,rfl⟩,⟨summary,hresult⟩,rfl,nofun⟩
  have hb := (samplingCovered_iff hresult rfl nofun).mp hcovered (.plain "b" 1 [F32.one] 10)
    (List.mem_cons_of_mem _ List.mem_cons_self) (by decide +kernel)
  exact absurd hb (by decide)

end Runs
end ConfluxFL
