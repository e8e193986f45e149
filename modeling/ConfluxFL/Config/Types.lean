import ConfluxFL.Lib.F32

/-! The resolved configuration: every parameter with the tier that supplied it, and what the
topology and mode profiles default their own parameters to. -/
namespace ConfluxFL

inductive ConnectionMode | push | pull
  deriving DecidableEq, Repr
inductive AuthMode | mtls | jwt
  deriving DecidableEq, Repr
inductive SeedMode | fixed | osRandom
  deriving DecidableEq, Repr
/-- What a spent budget does: stop, or go on and say so. -/
inductive BudgetExhaustedAction | halt | continueWithoutGuarantee
  deriving DecidableEq, Repr
/-- One budget for the experiment, or one for each client. -/
inductive AccountingScope | global | perClient
  deriving DecidableEq, Repr
inductive LogFormat | json | text
  deriving DecidableEq, Repr
inductive RoundLogDetail | quiet | changes | every
  deriving DecidableEq, Repr
inductive Topology | crossSilo | crossDevice | crowdsource | edge
  deriving DecidableEq, Repr
inductive Mode | research | production
  deriving DecidableEq, Repr

def Topology.label : Topology → String
  | .crossSilo => "cross_silo"
  | .crossDevice => "cross_device"
  | .crowdsource => "crowdsource"
  | .edge => "edge"

def Mode.label : Mode → String
  | .research => "research"
  | .production => "production"

/-- Which tier of the precedence chain produced a value. -/
inductive ConfigSource where
  | cli
  | envVar (name : String)
  | experimentFile (path : String)
  | modeProfile (name : String)
  | topologyProfile (name : String)
  | builtinFallback
  deriving DecidableEq, Repr

/-- A value with its provenance. -/
structure Resolved (α : Type) where
  value : α
  source : ConfigSource
  deriving DecidableEq, Repr

structure TopologyDefaults where
  connectionMode : ConnectionMode
  auth : AuthMode
  roundTimeoutSecs : ℕ
  minReputationScore : F32
  clientRegistryTtl : ℕ

structure ModeDefaults where
  seedMode : SeedMode
  seedValue : Option ℕ
  budgetExhaustedAction : BudgetExhaustedAction
  accountingScope : AccountingScope
  allowStubClient : Bool
  requireNodeAuth : Bool
  configLogFormat : LogFormat

def Topology.defaults : Topology → TopologyDefaults
  | .crossSilo => ⟨.push,.mtls,600,⟨0⟩,3600⟩
  | .crossDevice => ⟨.pull,.jwt,300,⟨0x3e99999a⟩,900⟩
  | .crowdsource => ⟨.pull,.jwt,300,⟨0x3f19999a⟩,900⟩
  | .edge => ⟨.pull,.mtls,900,⟨0⟩,3600⟩

def Mode.defaults : Mode → ModeDefaults
  | .research => ⟨.fixed,some 42,.continueWithoutGuarantee,.global,true,false,.text⟩
  | .production => ⟨.osRandom,none,.halt,.global,false,true,.json⟩

structure ResolvedConfig where
  topology : Topology
  mode : Mode
  connectionMode : Resolved ConnectionMode
  auth : Resolved AuthMode
  roundTimeoutSecs : Resolved ℕ
  minReputationScore : Resolved F32
  clientRegistryTtl : Resolved ℕ
  quorum : Option (Resolved ℕ)
  maxUpdateBytes : Resolved ℕ
  selector : Resolved String
  seedMode : Resolved SeedMode
  seedValue : Resolved (Option ℕ)
  aggregator : Resolved String
  robustByzantineFraction : Resolved F32
  clipRadius : Resolved F32
  serverLearningRate : Resolved F32
  serverTau : Resolved F32
  serverMomentum : Resolved F32
  fairnessQ : Resolved F32
  scaffoldNumClients : Resolved ℕ
  zenoRho : Resolved F32
  serverLipschitz : Resolved F32
  reputationFilterEnabled : Resolved Bool
  clientSidePrivacyTransform : Resolved Bool
  privacyMechanism : Resolved String
  clipNorm : Resolved F32
  noiseMultiplier : Resolved F32
  targetEpsilon : Resolved F64
  delta : Resolved F64
  budgetExhaustedAction : Resolved BudgetExhaustedAction
  accountingScope : Resolved AccountingScope
  allowStubClient : Resolved Bool
  requireNodeAuth : Resolved Bool
  configLogFormat : Resolved LogFormat
  roundLogDetail : Resolved RoundLogDetail
  roundHistoryLen : Resolved ℕ

namespace ResolvedConfig

/-- What resolution gives when no file, environment variable or flag sets anything: the two
builtin profiles over the fallbacks. -/
def ofDefaults (t : Topology) (m : Mode) : ResolvedConfig :=
  let topo {α : Type} (v : α) : Resolved α := ⟨v,.topologyProfile t.label⟩
  let mode {α : Type} (v : α) : Resolved α := ⟨v,.modeProfile m.label⟩
  let builtin {α : Type} (v : α) : Resolved α := ⟨v,.builtinFallback⟩
  { topology := t
    mode := m
    connectionMode := topo t.defaults.connectionMode
    auth := topo t.defaults.auth
    roundTimeoutSecs := topo t.defaults.roundTimeoutSecs
    minReputationScore := topo t.defaults.minReputationScore
    clientRegistryTtl := topo t.defaults.clientRegistryTtl
    quorum := none
    maxUpdateBytes := builtin (256*1024*1024)
    selector := builtin "uniform_random"
    seedMode := mode m.defaults.seedMode
    seedValue := mode m.defaults.seedValue
    aggregator := builtin "fedavg"
    robustByzantineFraction := builtin ⟨0x3e4ccccd⟩
    clipRadius := builtin F32.one
    serverLearningRate := builtin F32.one
    serverTau := builtin ⟨0x3a83126f⟩
    serverMomentum := builtin ⟨0x3f666666⟩
    fairnessQ := builtin F32.zero
    scaffoldNumClients := builtin 1
    zenoRho := builtin ⟨0x3a03126f⟩
    serverLipschitz := builtin F32.one
    reputationFilterEnabled := builtin false
    clientSidePrivacyTransform := builtin false
    privacyMechanism := builtin "gaussian_clipping"
    clipNorm := builtin F32.one
    noiseMultiplier := builtin F32.one
    targetEpsilon := builtin ⟨0x4020000000000000⟩
    delta := builtin ⟨0x3ee4f8b588e368f1⟩
    budgetExhaustedAction := mode m.defaults.budgetExhaustedAction
    accountingScope := mode m.defaults.accountingScope
    allowStubClient := mode m.defaults.allowStubClient
    requireNodeAuth := mode m.defaults.requireNodeAuth
    configLogFormat := mode m.defaults.configLogFormat
    roundLogDetail := builtin .changes
    roundHistoryLen := builtin 128 }

/-- A research deployment with clipping and no noise. -/
def noiseless : ResolvedConfig :=
  { ofDefaults .crossSilo .research with noiseMultiplier := ⟨F32.zero,.cli⟩ }

end ResolvedConfig
end ConfluxFL
