import ConfluxFL.Config.Types
import Mathlib.Data.List.Nodup

/-! The parameters as data: which axis owns each, under which name a file, a profile or the
environment sets it, and one tier's worth of overrides. -/
namespace ConfluxFL

inductive TopologyKey
  | connectionMode | auth | roundTimeoutSecs | minReputationScore | clientRegistryTtl
  deriving DecidableEq, Repr
inductive ModeKey
  | seedMode | seedValue | budgetExhaustedAction | accountingScope | allowStubClient
  | requireNodeAuth | configLogFormat
  deriving DecidableEq, Repr
/-- The parameters neither axis owns. -/
inductive FreeKey
  | quorum | maxUpdateBytes | selector | aggregator | robustByzantineFraction | clipRadius
  | serverLearningRate | serverTau | serverMomentum | fairnessQ | scaffoldNumClients | zenoRho
  | serverLipschitz | reputationFilterEnabled | clientSidePrivacyTransform | privacyMechanism
  | clipNorm | noiseMultiplier | targetEpsilon | delta | roundLogDetail | roundHistoryLen
  deriving DecidableEq, Repr

inductive Param
  | topology (k : TopologyKey)
  | mode (k : ModeKey)
  | free (k : FreeKey)
  deriving DecidableEq, Repr

namespace TopologyKey

/-- In the order of `TOPOLOGY_KEYS`. -/
def all : List TopologyKey :=
  [.connectionMode,.auth,.roundTimeoutSecs,.minReputationScore,.clientRegistryTtl]

theorem mem_all (k : TopologyKey) : k ∈ all := by cases k <;> decide

def name : TopologyKey → String
  | connectionMode => "connection_mode"
  | auth => "auth"
  | roundTimeoutSecs => "round_timeout_secs"
  | minReputationScore => "min_reputation_score"
  | clientRegistryTtl => "client_registry_ttl"

abbrev Value : TopologyKey → Type
  | connectionMode => ConnectionMode
  | auth => AuthMode
  | roundTimeoutSecs => ℕ
  | minReputationScore => F32
  | clientRegistryTtl => ℕ

end TopologyKey

namespace ModeKey

/-- In the order of `MODE_KEYS`. -/
def all : List ModeKey :=
  [.seedMode,.seedValue,.budgetExhaustedAction,.accountingScope,.allowStubClient,
    .requireNodeAuth,.configLogFormat]

theorem mem_all (k : ModeKey) : k ∈ all := by cases k <;> decide

def name : ModeKey → String
  | seedMode => "seed_mode"
  | seedValue => "seed_value"
  | budgetExhaustedAction => "budget_exhausted_action"
  | accountingScope => "accounting_scope"
  | allowStubClient => "allow_stub_client"
  | requireNodeAuth => "require_node_auth"
  | configLogFormat => "config_log_format"

/-- What a tier sets the parameter to. -/
abbrev Value : ModeKey → Type
  | seedMode => SeedMode
  | seedValue => ℕ
  | budgetExhaustedAction => BudgetExhaustedAction
  | accountingScope => AccountingScope
  | allowStubClient => Bool
  | requireNodeAuth => Bool
  | configLogFormat => LogFormat

/-- What the parameter resolves to: a mode may have no seed, a tier cannot say so. -/
abbrev Result : ModeKey → Type
  | seedValue => Option ℕ
  | k => k.Value

def lift : (k : ModeKey) → k.Value → k.Result
  | seedValue => some
  | seedMode => id
  | budgetExhaustedAction => id
  | accountingScope => id
  | allowStubClient => id
  | requireNodeAuth => id
  | configLogFormat => id

end ModeKey

namespace FreeKey

def all : List FreeKey :=
  [.quorum,.maxUpdateBytes,.selector,.aggregator,.robustByzantineFraction,.clipRadius,
    .serverLearningRate,.serverTau,.serverMomentum,.fairnessQ,.scaffoldNumClients,.zenoRho,
    .serverLipschitz,.reputationFilterEnabled,.clientSidePrivacyTransform,.privacyMechanism,
    .clipNorm,.noiseMultiplier,.targetEpsilon,.delta,.roundLogDetail,.roundHistoryLen]

theorem mem_all (k : FreeKey) : k ∈ all := by cases k <;> decide

def name : FreeKey → String
  | quorum => "quorum"
  | maxUpdateBytes => "max_update_bytes"
  | selector => "selector"
  | aggregator => "aggregator"
  | robustByzantineFraction => "robust_byzantine_fraction"
  | clipRadius => "clip_radius"
  | serverLearningRate => "server_learning_rate"
  | serverTau => "server_tau"
  | serverMomentum => "server_momentum"
  | fairnessQ => "fairness_q"
  | scaffoldNumClients => "scaffold_num_clients"
  | zenoRho => "zeno_rho"
  | serverLipschitz => "server_lipschitz"
  | reputationFilterEnabled => "reputation_filter_enabled"
  | clientSidePrivacyTransform => "client_side_privacy_transform"
  | privacyMechanism => "privacy_mechanism"
  | clipNorm => "clip_norm"
  | noiseMultiplier => "noise_multiplier"
  | targetEpsilon => "target_epsilon"
  | delta => "delta"
  | roundLogDetail => "round_log_detail"
  | roundHistoryLen => "round_history_len"

abbrev Value : FreeKey → Type
  | quorum | maxUpdateBytes | scaffoldNumClients | roundHistoryLen => ℕ
  | selector | aggregator | privacyMechanism => String
  | robustByzantineFraction | clipRadius | serverLearningRate | serverTau | serverMomentum
  | fairnessQ | zenoRho | serverLipschitz | clipNorm | noiseMultiplier => F32
  | targetEpsilon | delta => F64
  | reputationFilterEnabled | clientSidePrivacyTransform => Bool
  | roundLogDetail => RoundLogDetail

end FreeKey

namespace Param

def name : Param → String
  | topology k => k.name
  | mode k => k.name
  | free k => k.name

/-- `CONFLUX_<NAME>`, the name in upper case. -/
def envVar (p : Param) : String := "CONFLUX_"++String.ofList (p.name.toList.map Char.toUpper)

def all : List Param :=
  TopologyKey.all.map .topology++ModeKey.all.map .mode++FreeKey.all.map .free

theorem mem_all (p : Param) : p ∈ all := by
  cases p with
  | topology k => simp [all, TopologyKey.mem_all]
  | mode k => simp [all, ModeKey.mem_all]
  | free k => simp [all, FreeKey.mem_all]

theorem nodup_map_name : (all.map name).Nodup := by decide +kernel

theorem name_injective : Function.Injective name := fun p q h =>
  List.inj_on_of_nodup_map nodup_map_name (mem_all p) (mem_all q) h

theorem map_toLower_toUpper (p : Param) :
    (p.name.toList.map Char.toUpper).map Char.toLower = p.name.toList := by
  rcases p with k | k | k <;> cases k <;> decide +kernel

/-- No variable sets two parameters. -/
theorem envVar_injective : Function.Injective envVar := by
  intro p q h
  have hl := String.ofList_injective ((String.append_right_inj _).mp h)
  apply name_injective
  apply String.toList_injective
  rw [← map_toLower_toUpper p, hl, map_toLower_toUpper q]

abbrev Value : Param → Type
  | topology k => k.Value
  | mode k => k.Value
  | free k => k.Value

abbrev Result : Param → Type
  | topology k => k.Value
  | mode k => k.Result
  | free k => k.Value

def lift : (p : Param) → p.Value → p.Result
  | topology _ => id
  | mode k => k.lift
  | free _ => id

end Param

/-- One tier's opinions; `none` is no opinion. -/
structure Overrides where
  connectionMode : Option ConnectionMode := none
  auth : Option AuthMode := none
  roundTimeoutSecs : Option ℕ := none
  minReputationScore : Option F32 := none
  clientRegistryTtl : Option ℕ := none
  quorum : Option ℕ := none
  maxUpdateBytes : Option ℕ := none
  selector : Option String := none
  seedMode : Option SeedMode := none
  seedValue : Option ℕ := none
  aggregator : Option String := none
  robustByzantineFraction : Option F32 := none
  clipRadius : Option F32 := none
  serverLearningRate : Option F32 := none
  serverTau : Option F32 := none
  serverMomentum : Option F32 := none
  fairnessQ : Option F32 := none
  scaffoldNumClients : Option ℕ := none
  zenoRho : Option F32 := none
  serverLipschitz : Option F32 := none
  reputationFilterEnabled : Option Bool := none
  clientSidePrivacyTransform : Option Bool := none
  privacyMechanism : Option String := none
  clipNorm : Option F32 := none
  noiseMultiplier : Option F32 := none
  targetEpsilon : Option F64 := none
  delta : Option F64 := none
  budgetExhaustedAction : Option BudgetExhaustedAction := none
  accountingScope : Option AccountingScope := none
  allowStubClient : Option Bool := none
  requireNodeAuth : Option Bool := none
  configLogFormat : Option LogFormat := none
  roundLogDetail : Option RoundLogDetail := none
  roundHistoryLen : Option ℕ := none

def Overrides.get (o : Overrides) : (p : Param) → Option p.Value
  | .topology .connectionMode => o.connectionMode
  | .topology .auth => o.auth
  | .topology .roundTimeoutSecs => o.roundTimeoutSecs
  | .topology .minReputationScore => o.minReputationScore
  | .topology .clientRegistryTtl => o.clientRegistryTtl
  | .mode .seedMode => o.seedMode
  | .mode .seedValue => o.seedValue
  | .mode .budgetExhaustedAction => o.budgetExhaustedAction
  | .mode .accountingScope => o.accountingScope
  | .mode .allowStubClient => o.allowStubClient
  | .mode .requireNodeAuth => o.requireNodeAuth
  | .mode .configLogFormat => o.configLogFormat
  | .free .quorum => o.quorum
  | .free .maxUpdateBytes => o.maxUpdateBytes
  | .free .selector => o.selector
  | .free .aggregator => o.aggregator
  | .free .robustByzantineFraction => o.robustByzantineFraction
  | .free .clipRadius => o.clipRadius
  | .free .serverLearningRate => o.serverLearningRate
  | .free .serverTau => o.serverTau
  | .free .serverMomentum => o.serverMomentum
  | .free .fairnessQ => o.fairnessQ
  | .free .scaffoldNumClients => o.scaffoldNumClients
  | .free .zenoRho => o.zenoRho
  | .free .serverLipschitz => o.serverLipschitz
  | .free .reputationFilterEnabled => o.reputationFilterEnabled
  | .free .clientSidePrivacyTransform => o.clientSidePrivacyTransform
  | .free .privacyMechanism => o.privacyMechanism
  | .free .clipNorm => o.clipNorm
  | .free .noiseMultiplier => o.noiseMultiplier
  | .free .targetEpsilon => o.targetEpsilon
  | .free .delta => o.delta
  | .free .roundLogDetail => o.roundLogDetail
  | .free .roundHistoryLen => o.roundHistoryLen

/-- A tier given parameter by parameter. -/
def Overrides.ofGet (f : (p : Param) → Option p.Value) : Overrides where
  connectionMode := f (.topology .connectionMode)
  auth := f (.topology .auth)
  roundTimeoutSecs := f (.topology .roundTimeoutSecs)
  minReputationScore := f (.topology .minReputationScore)
  clientRegistryTtl := f (.topology .clientRegistryTtl)
  seedMode := f (.mode .seedMode)
  seedValue := f (.mode .seedValue)
  budgetExhaustedAction := f (.mode .budgetExhaustedAction)
  accountingScope := f (.mode .accountingScope)
  allowStubClient := f (.mode .allowStubClient)
  requireNodeAuth := f (.mode .requireNodeAuth)
  configLogFormat := f (.mode .configLogFormat)
  quorum := f (.free .quorum)
  maxUpdateBytes := f (.free .maxUpdateBytes)
  selector := f (.free .selector)
  aggregator := f (.free .aggregator)
  robustByzantineFraction := f (.free .robustByzantineFraction)
  clipRadius := f (.free .clipRadius)
  serverLearningRate := f (.free .serverLearningRate)
  serverTau := f (.free .serverTau)
  serverMomentum := f (.free .serverMomentum)
  fairnessQ := f (.free .fairnessQ)
  scaffoldNumClients := f (.free .scaffoldNumClients)
  zenoRho := f (.free .zenoRho)
  serverLipschitz := f (.free .serverLipschitz)
  reputationFilterEnabled := f (.free .reputationFilterEnabled)
  clientSidePrivacyTransform := f (.free .clientSidePrivacyTransform)
  privacyMechanism := f (.free .privacyMechanism)
  clipNorm := f (.free .clipNorm)
  noiseMultiplier := f (.free .noiseMultiplier)
  targetEpsilon := f (.free .targetEpsilon)
  delta := f (.free .delta)
  roundLogDetail := f (.free .roundLogDetail)
  roundHistoryLen := f (.free .roundHistoryLen)

@[simp] theorem Overrides.get_ofGet (f : (p : Param) → Option p.Value) (p : Param) :
    (ofGet f).get p = f p := by
  rcases p with k | k | k <;> cases k <;> rfl

/-- Every field is a parameter's, so two tiers that agree on every parameter are one. -/
theorem Overrides.ext_get {o o' : Overrides} (h : ∀ p, o.get p = o'.get p) : o = o' := by
  have ho : ∀ o : Overrides, ofGet o.get = o := fun _ => rfl
  rw [← ho o, ← ho o', funext h]

def TopologyDefaults.get (d : TopologyDefaults) : (k : TopologyKey) → k.Value
  | .connectionMode => d.connectionMode
  | .auth => d.auth
  | .roundTimeoutSecs => d.roundTimeoutSecs
  | .minReputationScore => d.minReputationScore
  | .clientRegistryTtl => d.clientRegistryTtl

def ModeDefaults.get (d : ModeDefaults) : (k : ModeKey) → k.Result
  | .seedMode => d.seedMode
  | .seedValue => d.seedValue
  | .budgetExhaustedAction => d.budgetExhaustedAction
  | .accountingScope => d.accountingScope
  | .allowStubClient => d.allowStubClient
  | .requireNodeAuth => d.requireNodeAuth
  | .configLogFormat => d.configLogFormat

/-- What a resolved configuration says of a parameter; only the quorum can be absent. -/
def ResolvedConfig.at (c : ResolvedConfig) : (p : Param) → Option (Resolved p.Result)
  | .topology .connectionMode => some c.connectionMode
  | .topology .auth => some c.auth
  | .topology .roundTimeoutSecs => some c.roundTimeoutSecs
  | .topology .minReputationScore => some c.minReputationScore
  | .topology .clientRegistryTtl => some c.clientRegistryTtl
  | .mode .seedMode => some c.seedMode
  | .mode .seedValue => some c.seedValue
  | .mode .budgetExhaustedAction => some c.budgetExhaustedAction
  | .mode .accountingScope => some c.accountingScope
  | .mode .allowStubClient => some c.allowStubClient
  | .mode .requireNodeAuth => some c.requireNodeAuth
  | .mode .configLogFormat => some c.configLogFormat
  | .free .quorum => c.quorum
  | .free .maxUpdateBytes => some c.maxUpdateBytes
  | .free .selector => some c.selector
  | .free .aggregator => some c.aggregator
  | .free .robustByzantineFraction => some c.robustByzantineFraction
  | .free .clipRadius => some c.clipRadius
  | .free .serverLearningRate => some c.serverLearningRate
  | .free .serverTau => some c.serverTau
  | .free .serverMomentum => some c.serverMomentum
  | .free .fairnessQ => some c.fairnessQ
  | .free .scaffoldNumClients => some c.scaffoldNumClients
  | .free .zenoRho => some c.zenoRho
  | .free .serverLipschitz => some c.serverLipschitz
  | .free .reputationFilterEnabled => some c.reputationFilterEnabled
  | .free .clientSidePrivacyTransform => some c.clientSidePrivacyTransform
  | .free .privacyMechanism => some c.privacyMechanism
  | .free .clipNorm => some c.clipNorm
  | .free .noiseMultiplier => some c.noiseMultiplier
  | .free .targetEpsilon => some c.targetEpsilon
  | .free .delta => some c.delta
  | .free .roundLogDetail => some c.roundLogDetail
  | .free .roundHistoryLen => some c.roundHistoryLen

/-- What the record says of a parameter, whoever said it. -/
def ResolvedConfig.valueAt (c : ResolvedConfig) (p : Param) : Option p.Result :=
  (c.at p).map Resolved.value

/-- Two records that agree on the axes and on every parameter are one. -/
theorem ResolvedConfig.ext_at {c c' : ResolvedConfig} (ht : c.topology = c'.topology)
    (hm : c.mode = c'.mode) (h : ∀ p, c.at p = c'.at p) : c = c' := by
  have hs : ∀ p {r r' : Resolved p.Result}, c.at p = some r → c'.at p = some r' → r = r' :=
    fun p _ _ hr hr' => Option.some.inj (hr.symm.trans ((h p).trans hr'))
  obtain ⟨⟩ := c
  obtain ⟨⟩ := c'
  simp only [ResolvedConfig.mk.injEq]
  exact ⟨ht,hm,hs (.topology .connectionMode) rfl rfl,hs (.topology .auth) rfl rfl,
    hs (.topology .roundTimeoutSecs) rfl rfl,hs (.topology .minReputationScore) rfl rfl,
    hs (.topology .clientRegistryTtl) rfl rfl,h (.free .quorum),
    hs (.free .maxUpdateBytes) rfl rfl,hs (.free .selector) rfl rfl,hs (.mode .seedMode) rfl rfl,
    hs (.mode .seedValue) rfl rfl,hs (.free .aggregator) rfl rfl,
    hs (.free .robustByzantineFraction) rfl rfl,hs (.free .clipRadius) rfl rfl,
    hs (.free .serverLearningRate) rfl rfl,hs (.free .serverTau) rfl rfl,
    hs (.free .serverMomentum) rfl rfl,hs (.free .fairnessQ) rfl rfl,
    hs (.free .scaffoldNumClients) rfl rfl,hs (.free .zenoRho) rfl rfl,
    hs (.free .serverLipschitz) rfl rfl,hs (.free .reputationFilterEnabled) rfl rfl,
    hs (.free .clientSidePrivacyTransform) rfl rfl,hs (.free .privacyMechanism) rfl rfl,
    hs (.free .clipNorm) rfl rfl,hs (.free .noiseMultiplier) rfl rfl,
    hs (.free .targetEpsilon) rfl rfl,hs (.free .delta) rfl rfl,
    hs (.mode .budgetExhaustedAction) rfl rfl,hs (.mode .accountingScope) rfl rfl,
    hs (.mode .allowStubClient) rfl rfl,hs (.mode .requireNodeAuth) rfl rfl,
    hs (.mode .configLogFormat) rfl rfl,hs (.free .roundLogDetail) rfl rfl,
    hs (.free .roundHistoryLen) rfl rfl⟩

end ConfluxFL
