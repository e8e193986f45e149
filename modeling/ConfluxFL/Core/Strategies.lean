import ConfluxFL.Config.ProfileDir
import ConfluxFL.Config.Validate
import ConfluxFL.Core.Build

/-! The names that the linked crates register, one list for each kind of strategy, and what a
registered name is good for: an aggregator is built from it, whatever its parameters are. -/
namespace ConfluxFL

inductive StrategyKind | aggregator | privacyMechanism | selector
  deriving DecidableEq, Repr

/-- Every name registered under a kind, sorted. -/
def registeredNames : StrategyKind → List String
  | .aggregator => ["bulyan","centered_clipping","divide_and_conquer","faba","fedadagrad",
      "fedadam","fedavg","fedavgm","fednova","fedyogi","flanders","fltrust","foolsgold",
      "geometric_median","krum","median","median_of_means","multi_krum","qfedavg","scaffold",
      "trimmed_mean","zeno"]
  | .privacyMechanism => ["gaussian_clipping"]
  | .selector => ["uniform_random"]

/-- A finding for a name that nothing registers, with the closest one that is. -/
def unregistered (kind : StrategyKind) (parameter noun : String) (name : Resolved String) :
    List Finding :=
  let names := registeredNames kind
  if name.value ∈ names then []
  else
    let guess := match closest name.value names with
      | some near => " — did you mean \""++near++"\"?"
      | none => "."
    [⟨.error,parameter,.text name.value,name.source,[.text ("nothing registers "++noun++
      " by this name"++guess++" Registered: "++", ".intercalate names)]⟩]

def unregisteredStrategies (config : ResolvedConfig) : List Finding :=
  unregistered .aggregator "aggregator" "an aggregator" config.aggregator ++
  unregistered .selector "selector" "a selector" config.selector ++
  unregistered .privacyMechanism "privacy_mechanism" "a privacy mechanism" config.privacyMechanism

/-- Validation with the names merged in, as the server and the command both run it. -/
def ResolvedConfig.validateWithNames (config : ResolvedConfig) : Validation :=
  ⟨config.validate.errors++unregisteredStrategies config,config.validate.warnings⟩

theorem unregistered_eq_nil_iff {kind : StrategyKind} {parameter noun : String}
    {name : Resolved String} :
    unregistered kind parameter noun name = [] ↔ name.value ∈ registeredNames kind := by
  by_cases h : name.value ∈ registeredNames kind
  · exact iff_of_true (if_pos h) h
  · refine iff_of_false ?_ h
    dsimp only [unregistered]
    rw [if_neg h]
    exact List.cons_ne_nil _ _

/-- Nothing is wrong exactly when the configuration is accepted and its three names are known. -/
theorem ResolvedConfig.validateWithNames_errors_iff {config : ResolvedConfig} :
    config.validateWithNames.errors = [] ↔ config.accepted = true ∧
      config.aggregator.value ∈ registeredNames .aggregator ∧
      config.selector.value ∈ registeredNames .selector ∧
      config.privacyMechanism.value ∈ registeredNames .privacyMechanism := by
  simp only [validateWithNames, unregisteredStrategies, List.append_eq_nil_iff,
    unregistered_eq_nil_iff, accepted, List.isEmpty_iff, and_assoc]

/-- What an aggregator asks of a sidecar: reference updates, scores. -/
def AnyAggregator.needs (a : AnyAggregator) : Bool × Bool :=
  (a.2.requiresTrustedReference,a.2.requiresCandidateScores)

/-- Every registered name has an arm in the catalog. -/
theorem buildAggregator_of_registered {name : String}
    (h : name ∈ registeredNames .aggregator) (params : AggregatorParams) :
    ∃ a, buildAggregator name params = .ok a := by
  simp only [registeredNames, List.mem_cons, List.not_mem_nil, or_false] at h
  rcases h with rfl | rfl | rfl | rfl | rfl | rfl | rfl | rfl | rfl | rfl | rfl | rfl | rfl |
    rfl | rfl | rfl | rfl | rfl | rfl | rfl | rfl | rfl
  all_goals exact ⟨_,rfl⟩

/-- Only FLTrust asks for reference updates and only Zeno for scores, whatever their parameters
are. -/
theorem needs_of_buildAggregator {name : String} {params : AggregatorParams} {a : AnyAggregator}
    (h : buildAggregator name params = .ok a) :
    a.needs = (decide (name = "fltrust"),decide (name = "zeno")) := by
  unfold buildAggregator at h
  dsimp only at h
  split at h <;> cases h <;> rfl

end ConfluxFL
