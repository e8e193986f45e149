import ConfluxFL.Config.Types
import ConfluxFL.Core.Flanders
import ConfluxFL.Core.Optimization
import ConfluxFL.Core.Scaffold
import ConfluxFL.Core.Temporal
import ConfluxFL.Core.Trusted

/-! The catalog: from the name of a method and its parameters to an aggregator in machine
arithmetic. Whatever is built answers with a vector as long as the updates of its batch, from any
state; the two methods that are given the dispatched weights compare the batch with them. -/
namespace ConfluxFL

inductive AggregatorBuildError where
  | unknown (name : String)
  | clientSideOnly (name : String)
  deriving DecidableEq, Repr

structure AggregatorParams where
  byzantineFraction : F32
  clipRadius : F32
  serverLearningRate : Option F32
  serverTau : Option F32
  serverMomentum : Option F32
  fairnessQ : Option F32
  serverLipschitz : Option F32
  scaffoldNumClients : Option ℕ
  zenoRho : Option F32

/-- What `assemble` passes on from the configuration. -/
def AggregatorParams.ofConfig (config : ResolvedConfig) : AggregatorParams where
  byzantineFraction := config.robustByzantineFraction.value
  clipRadius := config.clipRadius.value
  serverLearningRate := some config.serverLearningRate.value
  serverTau := some config.serverTau.value
  serverMomentum := some config.serverMomentum.value
  fairnessQ := some config.fairnessQ.value
  serverLipschitz := some config.serverLipschitz.value
  scaffoldNumClients := some config.scaffoldNumClients.value
  zenoRho := some config.zenoRho.value

namespace Aggregator
variable {κ : Type}

/-- A method with a memory that takes nothing from a sidecar. -/
def stateful (init : κ)
    (f : κ → List ClientDelta → Except AggregatorError (List F32) × κ) : Aggregator κ where
  init := init
  aggregate state injected updates := ((f state updates).1,(f state updates).2,injected)
  requiresTrustedReference := false
  requiresCandidateScores := false
  controlVariate _ := none

/-- A server-side optimizer, which starts without a model. -/
def ofOptimizer (o : Optimizer F32 κ) : Aggregator (Option κ) := stateful none o.aggregate

end Aggregator

def flTrust : Aggregator Unit where
  init := ()
  aggregate _ injected updates := (Trusted.flTrust injected updates,(),injected)
  requiresTrustedReference := true
  requiresCandidateScores := false
  controlVariate _ := none

def zeno (byzantineFraction rho : F32) : Aggregator Unit where
  init := ()
  aggregate _ injected updates :=
    let result := Trusted.zeno byzantineFraction rho injected updates
    (result.1,(),result.2)
  requiresTrustedReference := false
  requiresCandidateScores := true
  controlVariate _ := none

/-- A variant's own parameters, with what is set taking their place. -/
def fedOptParams (variant : FedOptVariant) (params : AggregatorParams) : FedOptParams :=
  { variant.params with
    serverLearningRate := params.serverLearningRate.getD variant.params.serverLearningRate
    tau := params.serverTau.getD variant.params.tau }

/-- An aggregator with whatever state it keeps. -/
abbrev AnyAggregator := (κ : Type) × Aggregator κ

def buildAggregator (name : String) (params : AggregatorParams) :
    Except AggregatorBuildError AnyAggregator :=
  let f := params.byzantineFraction
  match name with
  | "fedavg" => .ok ⟨_,fedAvg⟩
  | "krum" => .ok ⟨_,krum f⟩
  | "multi_krum" => .ok ⟨_,.stateless (Robust.filtered (Robust.multiKrumFilter F32 f)
      fedAvgAggregate)⟩
  | "trimmed_mean" => .ok ⟨_,.stateless (Robust.coordinateWise (Robust.trimmedMean f))⟩
  | "median" => .ok ⟨_,.stateless (Robust.coordinateWise Robust.median)⟩
  | "faba" => .ok ⟨_,.stateless (Robust.filtered (Robust.fabaFilter F32 f) fedAvgAggregate)⟩
  | "bulyan" => .ok ⟨_,.stateless (Robust.filtered (Robust.bulyanFilter F32 f)
      (Robust.coordinateWise (Robust.trimmedMean f)))⟩
  | "geometric_median" => .ok ⟨_,.stateless Robust.geometricMedianAggregate⟩
  | "median_of_means" => .ok ⟨_,.stateless (Robust.coordinateWise Robust.medianOfMeans)⟩
  | "divide_and_conquer" => .ok ⟨_,(Aggregator.stateless (Robust.filtered
      (Robust.divideAndConquerFilter F32 f) fedAvgAggregate)).withPanics fun _ _ updates =>
        Robust.panicOf (Robust.divideAndConquerFilterChecked F32 f updates 30)⟩
  | "foolsgold" => .ok ⟨_,.stateful .empty Temporal.foolsGold⟩
  | "centered_clipping" => .ok ⟨_,.stateful none (Temporal.centeredClipping params.clipRadius)⟩
  | "fltrust" => .ok ⟨_,flTrust⟩
  | "flanders" => .ok ⟨_,(Aggregator.stateful ⟨[],none⟩ (Flanders.aggregate
      (filteredAggregate (krumFilter f) fedAvgAggregate))).withPanics fun state _ updates =>
        Flanders.panics F64 state updates⟩
  | "qfedavg" => .ok ⟨_,.ofOptimizer (QFedAvg.optimizer (params.fairnessQ.getD F32.zero)
      (params.serverLipschitz.getD F32.one))⟩
  | "fednova" => .ok ⟨_,.ofOptimizer FedNova.optimizer⟩
  | "scaffold" => .ok ⟨_,scaffold (params.serverLearningRate.getD F32.one)
      (params.scaffoldNumClients.getD 1)⟩
  | "zeno" => .ok ⟨_,zeno f (params.zenoRho.getD ⟨0x3a03126f⟩)⟩
  | "fedavgm" => .ok ⟨_,.ofOptimizer (FedAvgM.optimizer (params.serverMomentum.getD ⟨0x3f666666⟩)
      (params.serverLearningRate.getD F32.one))⟩
  | "fedadagrad" => .ok ⟨_,.ofOptimizer (FedOpt.optimizer .adagrad (fedOptParams .adagrad params))⟩
  | "fedadam" => .ok ⟨_,.ofOptimizer (FedOpt.optimizer .adam (fedOptParams .adam params))⟩
  | "fedyogi" => .ok ⟨_,.ofOptimizer (FedOpt.optimizer .yogi (fedOptParams .yogi params))⟩
  | "fedprox" => .error (.clientSideOnly "fedprox")
  | other => .error (.unknown other)

/-- Every answer has the dimension of its batch, and, where the method is given the dispatched
weights, of these. -/
structure Aggregator.KeepsDimension {κ : Type} (a : Aggregator κ) : Prop where
  batch {state : κ} {injected : Injected} {updates : List ClientDelta} {w : List F32}
    (h : (a.aggregate state injected updates).1 = .ok w) : HasDimension updates w.length
  reference {state : κ} {injected : Injected} {updates : List ClientDelta} {w : List F32}
    (h : (a.aggregate state injected updates).1 = .ok w) (hr : a.requiresTrustedReference = true) :
    ∃ r, injected.reference = some r ∧ r.globalWeights.length = w.length
  scores {state : κ} {injected : Injected} {updates : List ClientDelta} {w : List F32}
    (h : (a.aggregate state injected updates).1 = .ok w) (hr : a.requiresCandidateScores = true) :
    ∃ c, injected.scores = some c ∧ c.globalWeights.length = w.length

section Dimension

theorem keepsDimension_stateless {f : List ClientDelta → Except AggregatorError (List F32)}
    (hf : ∀ us w, f us = .ok w → HasDimension us w.length) :
    (Aggregator.stateless f).KeepsDimension where
  batch h := hf _ _ h
  reference _ hr := by cases hr
  scores _ hr := by cases hr

/-- A call that panics answers nothing. -/
theorem Aggregator.KeepsDimension.withPanics {κ : Type} {a : Aggregator κ} (h : a.KeepsDimension)
    (panics : κ → Injected → List ClientDelta → Option String) :
    (a.withPanics panics).KeepsDimension := ⟨h.batch,h.reference,h.scores⟩

theorem keepsDimension_stateful {κ : Type} {init : κ}
    {f : κ → List ClientDelta → Except AggregatorError (List F32) × κ}
    (hf : ∀ s us w, (f s us).1 = .ok w → HasDimension us w.length) :
    (Aggregator.stateful init f).KeepsDimension where
  batch h := hf _ _ _ h
  reference _ hr := by cases hr
  scores _ hr := by cases hr

theorem keepsDimension_ofOptimizer {κ : Type} {o : Optimizer F32 κ} (ho : o.Lawful) :
    (Aggregator.ofOptimizer o).KeepsDimension :=
  keepsDimension_stateful fun _ _ _ h => Optimizer.hasDimension_aggregate ho h

theorem hasDimension_fedAvg (us : List ClientDelta) (w : List F32)
    (h : fedAvgAggregate us = .ok w) : HasDimension us w.length :=
  hasDimension_fedAvgIn ((fedAvgIn_f32 us).trans h)

/-- A filter of the catalog in front of FedAvg. -/
theorem hasDimension_filteredFedAvg
    {select : List ClientDelta → Except AggregatorError (List ℕ)} (hselect : Robust.Validates select)
    (us : List ClientDelta) (w : List F32)
    (h : Robust.filtered select fedAvgAggregate us = .ok w) : HasDimension us w.length :=
  Robust.hasDimension_filtered hselect hasDimension_fedAvg h

theorem hasDimension_krum (byzantineFraction : F32) (us : List ClientDelta) (w : List F32)
    (h : filteredAggregate (krumFilter byzantineFraction) fedAvgAggregate us = .ok w) :
    HasDimension us w.length := by
  have hvalidates := Robust.validates_krumFilter F32 byzantineFraction
  rw [funext (Robust.krumFilter_f32 byzantineFraction)] at hvalidates
  exact hasDimension_filteredFedAvg hvalidates us w h

theorem keepsDimension_flTrust : flTrust.KeepsDimension where
  batch h := (Trusted.hasDimension_flTrust h).1
  reference h _ := (Trusted.hasDimension_flTrust h).2
  scores _ hr := by cases hr

theorem keepsDimension_zeno (byzantineFraction rho : F32) :
    (zeno byzantineFraction rho).KeepsDimension where
  batch h := (Trusted.hasDimension_zeno h).1
  reference _ hr := by cases hr
  scores h _ := (Trusted.hasDimension_zeno h).2

theorem keepsDimension_scaffold (serverLearningRate : F32) (numClients : ℕ) :
    (scaffold serverLearningRate numClients).KeepsDimension where
  batch {state injected updates w} h := by
    rcases Scaffold.aggregate_cases serverLearningRate numClients state updates with
      ⟨e,he⟩ | ⟨w',s',heq,hdim,_⟩
    · simp only [scaffold, he] at h
      cases h
    · simp only [scaffold, heq] at h
      cases h
      exact hdim
  reference _ hr := by cases hr
  scores _ hr := by cases hr

/-- Whatever the catalog builds keeps the dimension of its batch. -/
theorem keepsDimension_of_build {name : String} {params : AggregatorParams} {κ : Type}
    {a : Aggregator κ} (h : buildAggregator name params = .ok ⟨κ,a⟩) : a.KeepsDimension := by
  unfold buildAggregator at h
  dsimp only at h
  split at h
  · cases h
    exact keepsDimension_stateless hasDimension_fedAvg
  · cases h
    exact keepsDimension_stateless (hasDimension_krum _)
  · cases h
    exact keepsDimension_stateless
      (hasDimension_filteredFedAvg (Robust.validates_multiKrumFilter F32 _))
  · cases h
    exact keepsDimension_stateless fun _ _ => Robust.hasDimension_coordinateWise
  · cases h
    exact keepsDimension_stateless fun _ _ => Robust.hasDimension_coordinateWise
  · cases h
    exact keepsDimension_stateless (hasDimension_filteredFedAvg (Robust.validates_fabaFilter F32 _))
  · cases h
    exact keepsDimension_stateless fun _ _ => Robust.hasDimension_filtered
      (Robust.validates_bulyanFilter F32 _) fun _ _ => Robust.hasDimension_coordinateWise
  · cases h
    exact keepsDimension_stateless fun _ _ => Robust.hasDimension_geometricMedian
  · cases h
    exact keepsDimension_stateless fun _ _ => Robust.hasDimension_coordinateWise
  · cases h
    exact (keepsDimension_stateless (hasDimension_filteredFedAvg
      (Robust.validates_divideAndConquerFilter F32 _))).withPanics _
  · cases h
    exact keepsDimension_stateful fun _ _ _ => Temporal.hasDimension_foolsGold
  · cases h
    exact keepsDimension_stateful fun _ _ _ => Temporal.hasDimension_centeredClipping
  · cases h
    exact keepsDimension_flTrust
  · cases h
    exact (keepsDimension_stateful fun _ _ _ =>
      Flanders.hasDimension_flanders (hasDimension_krum _)).withPanics _
  · cases h
    exact keepsDimension_ofOptimizer (QFedAvg.lawful _ _)
  · cases h
    exact keepsDimension_ofOptimizer FedNova.lawful
  · cases h
    exact keepsDimension_scaffold _ _
  · cases h
    exact keepsDimension_zeno _ _
  · cases h
    exact keepsDimension_ofOptimizer (FedAvgM.lawful _ _)
  · cases h
    exact keepsDimension_ofOptimizer (FedOpt.lawful _ _)
  · cases h
    exact keepsDimension_ofOptimizer (FedOpt.lawful _ _)
  · cases h
    exact keepsDimension_ofOptimizer (FedOpt.lawful _ _)
  · cases h
  · cases h

end Dimension
end ConfluxFL
