import ConfluxFL.Core.KrumCounts
import ConfluxFL.Lib.Calls

/-! The methods with a memory, in any arithmetic and so for any notion of a finite output. Whatever
is checked is checked before anything is kept: a refused call leaves no trace. -/
namespace ConfluxFL

/-- What the round pipeline sees of a method with a memory. `panics` is what a call that never
returns panics with. -/
structure Remembering (ν : Type) where
  State : Type
  init : State
  aggregate : State → List ClientDelta → Except AggregatorError (List ν) × State
  controlVariate : State → Option (List ν)
  panics : State → List ClientDelta → Option String

namespace Remembering
variable {ν : Type} (m : Remembering ν)

/-- How a call ends: it panics, or it returns its result. -/
def result (state : m.State) (updates : List ClientDelta) :
    Except String (Except AggregatorError (List ν)) :=
  match m.panics state updates with
  | some text => .error text
  | none => .ok (m.aggregate state updates).1

/-- A call with what can be read afterwards: how it ended, and the control variate. -/
def call (state : m.State) (updates : List ClientDelta) :
    (Except String (Except AggregatorError (List ν)) × Option (List ν)) × m.State :=
  let next := (m.aggregate state updates).2
  ((m.result state updates,m.controlVariate next),next)

/-- The state after some calls from the start. -/
def after (calls : List (List ClientDelta)) : m.State := Calls.after m.call m.init calls

/-- What is seen of some calls from the start. -/
def observed (calls : List (List ClientDelta)) :
    List (Except String (Except AggregatorError (List ν)) × Option (List ν)) := Calls.answers m.call m.init calls

/-- What a refused call leaves behind is what it found. -/
def Atomic : Prop := ∀ state updates e,
  (m.aggregate state updates).1 = .error e → (m.aggregate state updates).2 = state

/-- A call that returns does not panic. -/
theorem aggregate_of_result {m : Remembering ν} {state : m.State} {updates : List ClientDelta}
    {r : Except AggregatorError (List ν)} (h : m.result state updates = .ok r) :
    (m.aggregate state updates).1 = r := by
  unfold result at h
  split at h
  · cases h
  · exact Except.ok.inj h

def ofOptimizer {σ : Type} [Floating ν] (o : Optimizer ν σ) : Remembering ν where
  State := Option σ
  init := none
  aggregate := o.aggregate
  controlVariate _ := none
  panics _ _ := none

end Remembering

/-- In machine arithmetic, as the catalog builds it. -/
def Remembering.toAggregator (m : Remembering F32) : Aggregator m.State where
  init := m.init
  aggregate state injected updates :=
    ((m.aggregate state updates).1,(m.aggregate state updates).2,injected)
  requiresTrustedReference := false
  requiresCandidateScores := false
  controlVariate := m.controlVariate
  panics state _ updates := m.panics state updates

/-- The methods of the catalog that keep something between rounds. -/
inductive StatefulMethod where
  | fedOpt (variant : FedOptVariant)
  | fedAvgM
  | qFedAvg
  | fedNova
  | scaffold
  | flanders
  | centeredClipping
  | foolsGold
  deriving DecidableEq, Repr

namespace StatefulMethod

def name : StatefulMethod → String
  | fedOpt variant => variant.name
  | fedAvgM => "fedavgm"
  | qFedAvg => "qfedavg"
  | fedNova => "fednova"
  | scaffold => "scaffold"
  | flanders => "flanders"
  | centeredClipping => "centered_clipping"
  | foolsGold => "foolsgold"

variable (ν : Type) {ω : Type} [Floating ν] [Floating ω] [Precision ν ω] (params : AggregatorParams)

/-- The catalog's choice of parameters for each of them. -/
def build : StatefulMethod → Remembering ν
  | fedOpt variant => .ofOptimizer (FedOpt.optimizer variant (fedOptParams variant params))
  | fedAvgM => .ofOptimizer (FedAvgM.optimizer (params.serverMomentum.getD ⟨0x3f666666⟩)
      (params.serverLearningRate.getD F32.one))
  | qFedAvg => .ofOptimizer (QFedAvg.optimizer (params.fairnessQ.getD F32.zero)
      (params.serverLipschitz.getD F32.one))
  | fedNova => .ofOptimizer FedNova.optimizer
  | scaffold => ⟨_,none,Scaffold.aggregate (params.serverLearningRate.getD F32.one)
      (params.scaffoldNumClients.getD 1),Option.map ScaffoldState.control,fun _ _ => none⟩
  | flanders => ⟨_,⟨[],none⟩,Flanders.aggregate (Robust.filtered
      (Robust.krumFilter ν params.byzantineFraction) fedAvgIn),fun _ => none,Flanders.panics ω⟩
  | centeredClipping => ⟨_,none,Temporal.centeredClipping params.clipRadius,fun _ => none,
      fun _ _ => none⟩
  | foolsGold => ⟨_,.empty,Temporal.foolsGold,fun _ => none,fun _ _ => none⟩

/-- What the catalog builds under these names. -/
theorem buildAggregator_eq (method : StatefulMethod) : buildAggregator method.name params =
    .ok ⟨_,(method.build F32 params).toAggregator⟩ := by
  cases method with
  | fedOpt variant => cases variant <;> rfl
  | flanders =>
    have hbase : Robust.filtered (Robust.krumFilter F32 params.byzantineFraction) fedAvgIn =
        filteredAggregate (krumFilter params.byzantineFraction) fedAvgAggregate := by
      rw [funext (Robust.krumFilter_f32 params.byzantineFraction), funext fedAvgIn_f32]
      rfl
    change _ = Except.ok (⟨_,(Aggregator.stateful _ (Flanders.aggregate (Robust.filtered
      (Robust.krumFilter F32 params.byzantineFraction) fedAvgIn))).withPanics
        fun state _ updates => Flanders.panics F64 state updates⟩ : AnyAggregator)
    rw [hbase]
    rfl
  | _ => rfl

end StatefulMethod

section Atomic
variable {ν ω : Type} [Floating ν] [Floating ω] [Precision ν ω]

/-- A method that keeps nothing when it refuses a valid batch keeps nothing when it refuses. -/
theorem onBatch_kept {α σ : Type} {state : σ} {updates : List ClientDelta}
    {f : List (List F32) → Except AggregatorError α × σ} {e : AggregatorError}
    (hf : ∀ decoded, (f decoded).1 = .error e → (f decoded).2 = state)
    (h : (onBatch (fun e => (.error e,state)) updates f).1 = .error e) :
    (onBatch (fun e => (.error e,state)) updates f).2 = state := by
  rcases onBatch_cases (fun e => (.error e,state)) updates f with ⟨e',he⟩ | ⟨decoded,-,-,heq⟩
  · rw [he]
  · rw [heq] at h ⊢
    exact hf decoded h

/-- A call that either leaves its state or succeeds keeps nothing when it refuses. -/
theorem kept_of_cases {α σ : Type} {state : σ} {result : Except AggregatorError α × σ}
    {e : AggregatorError} (h : (∃ e', result = (.error e',state)) ∨ ∃ a s, result = (.ok a,s))
    (he : result.1 = .error e) : result.2 = state := by
  rcases h with ⟨e',rfl⟩ | ⟨a,s,rfl⟩
  · rfl
  · cases he

theorem atomic_ofOptimizer {σ : Type} (o : Optimizer ν σ) (state : Option σ)
    (updates : List ClientDelta) (e : AggregatorError)
    (h : (o.aggregate state updates).1 = .error e) : (o.aggregate state updates).2 = state := by
  refine kept_of_cases ((o.aggregate_cases state updates).imp_right ?_) h
  rintro ⟨_,s,-,-,heq,-⟩
  exact ⟨_,_,heq⟩

theorem atomic_scaffold (serverLearningRate : F32) (numClients : ℕ)
    (state : Option (ScaffoldState ν)) (updates : List ClientDelta) (e : AggregatorError)
    (h : (Scaffold.aggregate serverLearningRate numClients state updates).1 = .error e) :
    (Scaffold.aggregate serverLearningRate numClients state updates).2 = state := by
  refine kept_of_cases
    ((Scaffold.aggregate_cases serverLearningRate numClients state updates).imp_right ?_) h
  rintro ⟨w,s,heq,-⟩
  exact ⟨w,_,heq⟩

theorem atomic_flanders (base : List ClientDelta → Except AggregatorError (List ν))
    (state : Flanders.State ν) (updates : List ClientDelta) (e : AggregatorError)
    (h : (Flanders.aggregate base state updates).1 = .error e) :
    (Flanders.aggregate base state updates).2 = state := by
  refine kept_of_cases ((Flanders.aggregate_cases base state updates).imp_right ?_) h
  rintro ⟨w,history,heq⟩
  exact ⟨w,_,heq⟩

theorem atomic_centeredClipping (clipRadius : F32) (reference : Option (List ν))
    (updates : List ClientDelta) (e : AggregatorError)
    (h : (Temporal.centeredClipping clipRadius reference updates).1 = .error e) :
    (Temporal.centeredClipping clipRadius reference updates).2 = reference := by
  refine onBatch_kept (fun decoded hdecoded => ?_) h
  cases hdecoded

theorem atomic_foolsGold (history : Temporal.History ν) (updates : List ClientDelta)
    (e : AggregatorError) (h : (Temporal.foolsGold history updates).1 = .error e) :
    (Temporal.foolsGold history updates).2 = history := by
  refine onBatch_kept (fun decoded hdecoded => ?_) h
  dsimp only at hdecoded
  split at hdecoded <;> cases hdecoded

/-- Every check stands before what is kept. -/
theorem StatefulMethod.atomic (method : StatefulMethod) (params : AggregatorParams) :
    (method.build ν params).Atomic := by
  cases method with
  | fedOpt variant => exact atomic_ofOptimizer _
  | fedAvgM => exact atomic_ofOptimizer _
  | qFedAvg => exact atomic_ofOptimizer _
  | fedNova => exact atomic_ofOptimizer _
  | scaffold => exact atomic_scaffold _ _
  | flanders => exact atomic_flanders _
  | centeredClipping => exact atomic_centeredClipping _
  | foolsGold => exact atomic_foolsGold

variable (ν) in
/-- A refused call can be put anywhere among the others: nothing any of them answers changes, and
neither does the control variate at any time. -/
theorem refused_leaves_no_trace (method : StatefulMethod) (params : AggregatorParams)
    (pre post : List (List ClientDelta)) (refused : List ClientDelta) (e : AggregatorError)
    (h : (method.build ν params).result ((method.build ν params).after pre) refused =
      .ok (.error e)) :
    buildAggregator method.name params = .ok ⟨_,(method.build F32 params).toAggregator⟩ ∧
      (method.build ν params).observed (pre++refused::post) =
        ((method.build ν params).observed (pre++post)).insertIdx pre.length
          (.ok (.error e),
            (method.build ν params).controlVariate ((method.build ν params).after pre)) := by
  have hkept := method.atomic params _ refused e (Remembering.aggregate_of_result h)
  have hcall : (method.build ν params).call ((method.build ν params).after pre) refused =
      ((.ok (.error e),(method.build ν params).controlVariate ((method.build ν params).after pre)),
        (method.build ν params).after pre) := by
    rw [Remembering.call, h, hkept]
  refine ⟨method.buildAggregator_eq params,?_⟩
  unfold Remembering.observed
  rw [Calls.answers_insert (congrArg Prod.snd hcall)]
  exact congrArg _ (congrArg Prod.fst hcall)

/-- A server whose steps overflow as soon as a round moves the model by two. -/
def wideSteps : AggregatorParams :=
  { fifthByzantine with serverLearningRate := some ⟨0x7f000000⟩ }

/-- One client's weight and control variate. -/
def controlled (weight control : F32) : List ClientDelta :=
  [{ reportedWeight "a" weight 1 with controlVariate := some (encodeWeights [control]) }]

/-- A round is refused for the model it would have left, when its control variate is computed. -/
theorem refused_leaves_no_trace_wideSteps :
    buildAggregator "scaffold" wideSteps =
        .ok ⟨_,(StatefulMethod.scaffold.build F32 wideSteps).toAggregator⟩ ∧
      (StatefulMethod.scaffold.build F32 wideSteps).observed
          ([controlled F32.one F32.one]++
            controlled ⟨0x41100000⟩ ⟨0x40000000⟩::[controlled F32.one ⟨0x40000000⟩]) =
        ((StatefulMethod.scaffold.build F32 wideSteps).observed
          ([controlled F32.one F32.one]++[controlled F32.one ⟨0x40000000⟩])).insertIdx 1
          (.ok (.error (.nonFiniteWeights "<scaffold server optimizer>" 0)),
            (StatefulMethod.scaffold.build F32 wideSteps).controlVariate
              ((StatefulMethod.scaffold.build F32 wideSteps).after [controlled F32.one F32.one])) :=
  refused_leaves_no_trace F32 .scaffold wideSteps [controlled F32.one F32.one]
    [controlled F32.one ⟨0x40000000⟩] (controlled ⟨0x41100000⟩ ⟨0x40000000⟩)
    (.nonFiniteWeights "<scaffold server optimizer>" 0) (by decide +kernel)

end Atomic
end ConfluxFL
