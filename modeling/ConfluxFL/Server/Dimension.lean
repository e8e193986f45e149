import ConfluxFL.Core.Build
import ConfluxFL.Server.Guarantee

/-! How many weights a checkpoint has. Lengths are compared within a batch and, by the methods
that are given the dispatched weights, with these; for every other method a checkpoint is as long
as whatever updates its round was left with, and the next round dispatches that. -/
namespace ConfluxFL
open Fallible RoundM
variable {κ : Type}

/-- The process runs the method its configuration names. -/
def Deployment.FromCatalog (d : Deployment κ) : Prop :=
  buildAggregator d.config.aggregator.value (.ofConfig d.config) = .ok ⟨κ,d.aggregator⟩

/-- Every process that is started runs the method its configuration names. -/
def Event.FromCatalog : Event κ → Prop
  | .connect d _ => d.FromCatalog
  | .round _ => True

/-- The method is given the weights the round dispatched. -/
def Deployment.SeesDispatched (d : Deployment κ) : Prop :=
  d.aggregator.requiresTrustedReference = true ∨ d.aggregator.requiresCandidateScores = true

/-- What decides the length of a checkpoint: the updates of its batch, which are there and are
all of one length. It is that of the dispatched weights exactly when the updates' is, and always
when the method is given these. -/
structure SizedByBatch (d : Deployment κ) (s : Server κ) (entry : SavedCheckpoint) : Prop where
  batch : HasDimension entry.batch entry.weights.length
  dispatched : ∃ dispatched, s.store.loadLatestWeights = .ok dispatched ∧
    (entry.weights.length = dispatched.length ↔ HasDimension entry.batch dispatched.length) ∧
    (d.SeesDispatched → entry.weights.length = dispatched.length)

/-- The law at one event: it is about every checkpoint an attempt saves. -/
def DimensionLaw (w : World κ) (e : Event κ) : Prop :=
  ∀ d env entry, w.Attempts e d env → Saves d env w.server entry → SizedByBatch d w.server entry

section Step
variable {d : Deployment κ} {env : RoundEnv} {s : Server κ} {entry : SavedCheckpoint}

/-- A saved checkpoint is the answer of the one call the attempt made. -/
theorem Saves.answer (h : Saves d env s entry) : ∃ p s₁, prepareBatch d env s = .ok p s₁ ∧
    entry.batch = p.batch ∧
    (d.aggregator.aggregate s.aggregatorState s₁.injected p.batch).1 = .ok entry.weights := by
  unfold Saves at h
  have hlength {l : List SavedCheckpoint} (hl : l = s.history) (h : l = s.history++[entry]) :
      False := by
    have hlen := congrArg List.length (hl.symm.trans h)
    simp at hlen
  rcases runRound_aggregator d env s with core | ⟨p,s₁,hcall⟩
  · exact (hlength (congrArg Core.history core) h).elim
  · rcases hcall.durable with ⟨_,hs⟩ | ⟨weights,hw,_,hs⟩
    · exact (hlength hs h).elim
    · cases List.append_cancel_left (hs.symm.trans h)
      exact ⟨p,s₁,hcall.ready,rfl,hw⟩

theorem sizedByBatch_of_saves (hd : d.FromCatalog) (h : Saves d env s entry) :
    SizedByBatch d s entry := by
  have hkeeps := keepsDimension_of_build hd
  obtain ⟨p,s₁,ready,hbatch,hanswer⟩ := h.answer
  have hdim : HasDimension entry.batch entry.weights.length := hbatch ▸ hkeeps.batch hanswer
  refine ⟨hdim,p.opened.weights,(prepareBatch_ok ready).loaded,?_,?_⟩
  · constructor
    · intro heq
      rwa [← heq]
    · exact fun h' => h'.subset hdim fun _ hu => hu
  · have hsignals := prepareBatch_signals ready
    rintro (hr | hr)
    · obtain ⟨reference,href⟩ := hsignals.1 hr
      obtain ⟨r,hr',hlen⟩ := hkeeps.reference hanswer hr
      cases href.symm.trans hr'
      exact hlen.symm
    · obtain ⟨scores,hscores⟩ := hsignals.2 hr
      obtain ⟨c,hc,hlen⟩ := hkeeps.scores hanswer hr
      cases hscores.symm.trans hc
      exact hlen.symm

end Step

/-- Over any number of process lifetimes and whatever is submitted, every checkpoint is as long
as the updates it was aggregated from. -/
theorem dimensionLaw_of_fromCatalog (w : World κ) (events : List (Event κ))
    (hidle : w.running = none) (hcatalog : ∀ e ∈ events, e.FromCatalog) :
    Run.Always World.step DimensionLaw w events := by
  refine Run.Always.of_invariant (fun w => ∀ d, w.running = some d → d.FromCatalog) ?_
    (Run.always_of_forall_mem hcatalog) ?_
  · intro d hd
    rw [hidle] at hd
    cases hd
  · intro w e hI hQ
    constructor
    · rintro d env entry ⟨hr,_⟩ h
      exact sizedByBatch_of_saves (hI d hr) h
    · refine World.step_invariant (fun w => ∀ d, w.running = some d → d.FromCatalog) e hI ?_ ?_
      · rintro d initialWeights rfl d' hd'
        cases hd'
        exact hQ
      · rintro d env ⟨hr,rfl⟩ d' hd'
        obtain rfl := World.step_round_running hr hd'
        exact hI d' hr

section Runs

/-- The law the dispatched weights would set: no checkpoint is of another length. -/
def SameDimensionLaw (w : World κ) (e : Event κ) : Prop :=
  ∀ d env entry, w.Attempts e d env → Saves d env w.server entry →
    ∃ dispatched, w.server.store.loadLatestWeights = .ok dispatched ∧
      entry.weights.length = dispatched.length

/-- One client submits two values for a model of one. -/
def twoWeights : RoundEnv := .clean [.plain "a" 1 [F32.one,F32.one] 10]

theorem start_fromCatalog : start.FromCatalog := rfl

theorem dimensionLaw_twoWeights :
    Run.Always World.step DimensionLaw seededWorld [start,.round twoWeights] := by
  refine dimensionLaw_of_fromCatalog _ _ rfl ?_
  intro e he
  rcases List.mem_pair.mp he with rfl | rfl
  · exact start_fromCatalog
  · trivial

/-- FedAvg checkpoints the two values, though one was dispatched. -/
theorem not_sameDimensionLaw_twoWeights :
    ¬Run.Always World.step SameDimensionLaw seededWorld [start,.round twoWeights] := by
  intro h
  have hlast := Run.always_iff_forall_split.mp h [start] (.round twoWeights) [] rfl
  have hrun : (stateOf (runRound (.noiseless fedAvg) twoWeights
      (Run.after World.step seededWorld [start]).server)).history.map
        (fun entry => entry.weights.length) = [2] := by decide +kernel
  obtain ⟨entry,hentry,hlen⟩ := List.map_eq_singleton_iff.mp hrun
  obtain ⟨dispatched,hload,heq⟩ := hlast _ _ entry ⟨rfl,rfl⟩ hentry
  have hone : (Run.after World.step seededWorld [start]).server.store.loadLatestWeights =
      .ok [F32.zero] := by decide +kernel
  cases hone.symm.trans hload
  rw [hlen] at heq
  cases heq

end Runs
end ConfluxFL
