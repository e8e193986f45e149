import ConfluxFL.Config.Profile

/-! Resolution: every parameter takes the value of the highest tier that sets it, and says which
tier that was. -/
namespace ConfluxFL

def layer {α : Type} (builtin : α) (topology mode file env cli : Option α)
    (topologySource modeSource fileSource envSource : ConfigSource) : Resolved α :=
  match cli with
  | some value => ⟨value,.cli⟩
  | none =>
    match env with
    | some value => ⟨value,envSource⟩
    | none =>
      match file with
      | some value => ⟨value,fileSource⟩
      | none =>
        match mode with
        | some value => ⟨value,modeSource⟩
        | none =>
          match topology with
          | some value => ⟨value,topologySource⟩
          | none => ⟨builtin,.builtinFallback⟩

/-- The quorum has no builtin fallback, so it does not go through `layer`. -/
def resolveQuorum (cli env file : Option ℕ) (fileSource envSource : ConfigSource) :
    Option (Resolved ℕ) :=
  match cli, env, file with
  | some value, _, _ => some ⟨value,.cli⟩
  | none, some value, _ => some ⟨value,envSource⟩
  | none, none, some value => some ⟨value,fileSource⟩
  | none, none, none => none

/-- The placeholder is never read: without a file nothing is the file's. -/
def fileSource : Option (String × Overrides) → ConfigSource
  | some (path,_) => .experimentFile path
  | none => .experimentFile ""

def resolveWithProfiles (topology : TopologyProfile) (mode : ModeProfile)
    (file : Option (String × Overrides)) (env cli : Overrides) : ResolvedConfig :=
  let topologyDefaults := topology.defaults
  let modeDefaults := mode.defaults
  let topologySource := ConfigSource.topologyProfile topology.name
  let modeSource := ConfigSource.modeProfile mode.name
  let topoSrc (key : String) := ConfigSource.topologyProfile (topology.sourceLabel key)
  let modeSrc (key : String) := ConfigSource.modeProfile (mode.sourceLabel key)
  let fileOverrides := file.map Prod.snd
  let fileSource := fileSource file
  let envVar (name : String) := ConfigSource.envVar ("CONFLUX_"++name)
  { topology := topology.base
    mode := mode.base
    connectionMode :=
      layer topologyDefaults.connectionMode (some topologyDefaults.connectionMode) none
        (fileOverrides.bind fun o => o.connectionMode) env.connectionMode cli.connectionMode
        (topoSrc "connection_mode") modeSource fileSource (envVar "CONNECTION_MODE")
    auth :=
      layer topologyDefaults.auth (some topologyDefaults.auth) none
        (fileOverrides.bind fun o => o.auth) env.auth cli.auth
        (topoSrc "auth") modeSource fileSource (envVar "AUTH")
    roundTimeoutSecs :=
      layer topologyDefaults.roundTimeoutSecs (some topologyDefaults.roundTimeoutSecs) none
        (fileOverrides.bind fun o => o.roundTimeoutSecs) env.roundTimeoutSecs cli.roundTimeoutSecs
        (topoSrc "round_timeout_secs") modeSource fileSource (envVar "ROUND_TIMEOUT_SECS")
    minReputationScore :=
      layer topologyDefaults.minReputationScore (some topologyDefaults.minReputationScore) none
        (fileOverrides.bind fun o => o.minReputationScore)
        env.minReputationScore cli.minReputationScore
        (topoSrc "min_reputation_score") modeSource fileSource (envVar "MIN_REPUTATION_SCORE")
    clientRegistryTtl :=
      layer topologyDefaults.clientRegistryTtl (some topologyDefaults.clientRegistryTtl) none
        (fileOverrides.bind fun o => o.clientRegistryTtl)
        env.clientRegistryTtl cli.clientRegistryTtl
        (topoSrc "client_registry_ttl") modeSource fileSource (envVar "CLIENT_REGISTRY_TTL")
    quorum :=
      resolveQuorum cli.quorum env.quorum (fileOverrides.bind fun o => o.quorum) fileSource
        (envVar "QUORUM")
    maxUpdateBytes :=
      layer (256*1024*1024) none none
        (fileOverrides.bind fun o => o.maxUpdateBytes) env.maxUpdateBytes cli.maxUpdateBytes
        topologySource modeSource fileSource (envVar "MAX_UPDATE_BYTES")
    selector :=
      layer "uniform_random" none none
        (fileOverrides.bind fun o => o.selector) env.selector cli.selector
        topologySource modeSource fileSource (envVar "SELECTOR")
    seedMode :=
      layer modeDefaults.seedMode none (some modeDefaults.seedMode)
        (fileOverrides.bind fun o => o.seedMode) env.seedMode cli.seedMode
        topologySource (modeSrc "seed_mode") fileSource (envVar "SEED_MODE")
    seedValue :=
      layer modeDefaults.seedValue none (some modeDefaults.seedValue)
        ((fileOverrides.bind fun o => o.seedValue).map some) (env.seedValue.map some)
        (cli.seedValue.map some)
        topologySource (modeSrc "seed_value") fileSource (envVar "SEED_VALUE")
    aggregator :=
      layer "fedavg" none none
        (fileOverrides.bind fun o => o.aggregator) env.aggregator cli.aggregator
        topologySource modeSource fileSource (envVar "AGGREGATOR")
    robustByzantineFraction :=
      layer ⟨0x3e4ccccd⟩ none none
        (fileOverrides.bind fun o => o.robustByzantineFraction)
        env.robustByzantineFraction cli.robustByzantineFraction
        topologySource modeSource fileSource (envVar "ROBUST_BYZANTINE_FRACTION")
    clipRadius :=
      layer F32.one none none
        (fileOverrides.bind fun o => o.clipRadius) env.clipRadius cli.clipRadius
        topologySource modeSource fileSource (envVar "CLIP_RADIUS")
    serverLearningRate :=
      layer F32.one none none
        (fileOverrides.bind fun o => o.serverLearningRate)
        env.serverLearningRate cli.serverLearningRate
        topologySource modeSource fileSource (envVar "SERVER_LEARNING_RATE")
    serverTau :=
      layer ⟨0x3a83126f⟩ none none
        (fileOverrides.bind fun o => o.serverTau) env.serverTau cli.serverTau
        topologySource modeSource fileSource (envVar "SERVER_TAU")
    serverMomentum :=
      layer ⟨0x3f666666⟩ none none
        (fileOverrides.bind fun o => o.serverMomentum) env.serverMomentum cli.serverMomentum
        topologySource modeSource fileSource (envVar "SERVER_MOMENTUM")
    fairnessQ :=
      layer F32.zero none none
        (fileOverrides.bind fun o => o.fairnessQ) env.fairnessQ cli.fairnessQ
        topologySource modeSource fileSource (envVar "FAIRNESS_Q")
    scaffoldNumClients :=
      layer 1 none none
        (fileOverrides.bind fun o => o.scaffoldNumClients)
        env.scaffoldNumClients cli.scaffoldNumClients
        topologySource modeSource fileSource (envVar "SCAFFOLD_NUM_CLIENTS")
    zenoRho :=
      layer ⟨0x3a03126f⟩ none none
        (fileOverrides.bind fun o => o.zenoRho) env.zenoRho cli.zenoRho
        topologySource modeSource fileSource (envVar "ZENO_RHO")
    serverLipschitz :=
      layer F32.one none none
        (fileOverrides.bind fun o => o.serverLipschitz) env.serverLipschitz cli.serverLipschitz
        topologySource modeSource fileSource (envVar "SERVER_LIPSCHITZ")
    reputationFilterEnabled :=
      layer false none none
        (fileOverrides.bind fun o => o.reputationFilterEnabled)
        env.reputationFilterEnabled cli.reputationFilterEnabled
        topologySource modeSource fileSource (envVar "REPUTATION_FILTER_ENABLED")
    privacyMechanism :=
      layer "gaussian_clipping" none none
        (fileOverrides.bind fun o => o.privacyMechanism) env.privacyMechanism cli.privacyMechanism
        topologySource modeSource fileSource (envVar "PRIVACY_MECHANISM")
    clientSidePrivacyTransform :=
      layer false none none
        (fileOverrides.bind fun o => o.clientSidePrivacyTransform)
        env.clientSidePrivacyTransform cli.clientSidePrivacyTransform
        topologySource modeSource fileSource (envVar "CLIENT_SIDE_PRIVACY_TRANSFORM")
    clipNorm :=
      layer F32.one none none
        (fileOverrides.bind fun o => o.clipNorm) env.clipNorm cli.clipNorm
        topologySource modeSource fileSource (envVar "CLIP_NORM")
    noiseMultiplier :=
      layer F32.one none none
        (fileOverrides.bind fun o => o.noiseMultiplier) env.noiseMultiplier cli.noiseMultiplier
        topologySource modeSource fileSource (envVar "NOISE_MULTIPLIER")
    targetEpsilon :=
      layer ⟨0x4020000000000000⟩ none none
        (fileOverrides.bind fun o => o.targetEpsilon) env.targetEpsilon cli.targetEpsilon
        topologySource modeSource fileSource (envVar "TARGET_EPSILON")
    delta :=
      layer ⟨0x3ee4f8b588e368f1⟩ none none
        (fileOverrides.bind fun o => o.delta) env.delta cli.delta
        topologySource modeSource fileSource (envVar "DELTA")
    budgetExhaustedAction :=
      layer modeDefaults.budgetExhaustedAction none (some modeDefaults.budgetExhaustedAction)
        (fileOverrides.bind fun o => o.budgetExhaustedAction)
        env.budgetExhaustedAction cli.budgetExhaustedAction
        topologySource (modeSrc "budget_exhausted_action") fileSource
        (envVar "BUDGET_EXHAUSTED_ACTION")
    accountingScope :=
      layer modeDefaults.accountingScope none (some modeDefaults.accountingScope)
        (fileOverrides.bind fun o => o.accountingScope) env.accountingScope cli.accountingScope
        topologySource (modeSrc "accounting_scope") fileSource (envVar "ACCOUNTING_SCOPE")
    allowStubClient :=
      layer modeDefaults.allowStubClient none (some modeDefaults.allowStubClient)
        (fileOverrides.bind fun o => o.allowStubClient) env.allowStubClient cli.allowStubClient
        topologySource (modeSrc "allow_stub_client") fileSource (envVar "ALLOW_STUB_CLIENT")
    requireNodeAuth :=
      layer modeDefaults.requireNodeAuth none (some modeDefaults.requireNodeAuth)
        (fileOverrides.bind fun o => o.requireNodeAuth) env.requireNodeAuth cli.requireNodeAuth
        topologySource (modeSrc "require_node_auth") fileSource (envVar "REQUIRE_NODE_AUTH")
    configLogFormat :=
      layer modeDefaults.configLogFormat none (some modeDefaults.configLogFormat)
        (fileOverrides.bind fun o => o.configLogFormat) env.configLogFormat cli.configLogFormat
        topologySource (modeSrc "config_log_format") fileSource (envVar "CONFIG_LOG_FORMAT")
    roundLogDetail :=
      layer .changes none none
        (fileOverrides.bind fun o => o.roundLogDetail) env.roundLogDetail cli.roundLogDetail
        topologySource modeSource fileSource (envVar "ROUND_LOG_DETAIL")
    roundHistoryLen :=
      layer 128 none none
        (fileOverrides.bind fun o => o.roundHistoryLen) env.roundHistoryLen cli.roundHistoryLen
        topologySource modeSource fileSource (envVar "ROUND_HISTORY_LEN") }

def resolve (topology : Topology) (mode : Mode) (file : Option (String × Overrides))
    (env cli : Overrides) : ResolvedConfig :=
  resolveWithProfiles (.builtin topology) (.builtin mode) file env cli

/-- The fallback of a parameter that no axis owns; the quorum has none. -/
def FreeKey.builtin : (k : FreeKey) → Option k.Value
  | .quorum => none
  | .maxUpdateBytes => some (256*1024*1024 : ℕ)
  | .selector => some "uniform_random"
  | .aggregator => some "fedavg"
  | .robustByzantineFraction => some (⟨0x3e4ccccd⟩ : F32)
  | .clipRadius => some F32.one
  | .serverLearningRate => some F32.one
  | .serverTau => some (⟨0x3a83126f⟩ : F32)
  | .serverMomentum => some (⟨0x3f666666⟩ : F32)
  | .fairnessQ => some F32.zero
  | .scaffoldNumClients => some (1 : ℕ)
  | .zenoRho => some (⟨0x3a03126f⟩ : F32)
  | .serverLipschitz => some F32.one
  | .reputationFilterEnabled => some false
  | .clientSidePrivacyTransform => some false
  | .privacyMechanism => some "gaussian_clipping"
  | .clipNorm => some F32.one
  | .noiseMultiplier => some F32.one
  | .targetEpsilon => some (⟨0x4020000000000000⟩ : F64)
  | .delta => some (⟨0x3ee4f8b588e368f1⟩ : F64)
  | .roundLogDetail => some RoundLogDetail.changes
  | .roundHistoryLen => some (128 : ℕ)

/-- Everything a resolution reads. -/
structure Tiers where
  topology : TopologyProfile
  mode : ModeProfile
  file : Option (String × Overrides)
  env : Overrides
  cli : Overrides

namespace Tiers

def resolve (T : Tiers) : ResolvedConfig :=
  resolveWithProfiles T.topology T.mode T.file T.env T.cli

/-! What one tier says of a parameter, with the source that names the tier. -/

def cliSays (T : Tiers) (p : Param) : Option (Resolved p.Result) :=
  (T.cli.get p).map fun v => ⟨p.lift v,.cli⟩
def envSays (T : Tiers) (p : Param) : Option (Resolved p.Result) :=
  (T.env.get p).map fun v => ⟨p.lift v,.envVar p.envVar⟩
def fileSays (T : Tiers) (p : Param) : Option (Resolved p.Result) :=
  T.file.bind fun f => (f.2.get p).map fun v => ⟨p.lift v,.experimentFile f.1⟩
/-- The profile of the axis that owns the parameter, naming the link that set the key. -/
def profileSays (T : Tiers) : (p : Param) → Option (Resolved p.Result)
  | .topology k => some ⟨T.topology.defaults.get k,.topologyProfile
      (linkLabel T.topology.name (linkOf T.topology.name T.topology.origins k.name))⟩
  | .mode k => some ⟨T.mode.defaults.get k,.modeProfile
      (linkLabel T.mode.name (linkOf T.mode.name T.mode.origins k.name))⟩
  | .free _ => none
def builtinSays : (p : Param) → Option (Resolved p.Result)
  | .free k => k.builtin.map fun v => ⟨v,.builtinFallback⟩
  | _ => none

/-- The opinion of the highest tier that has one. -/
def highest (T : Tiers) (p : Param) : Option (Resolved p.Result) :=
  T.cliSays p <|> T.envSays p <|> T.fileSays p <|> T.profileSays p <|> builtinSays p

/-- A tier above the profiles sets the parameter. -/
def Overridden (T : Tiers) (p : Param) : Prop :=
  T.cli.get p ≠ none ∨ T.env.get p ≠ none ∨ ∃ f, T.file = some f ∧ f.2.get p ≠ none

/-- What the tiers above the profiles set the parameter to. -/
def given (T : Tiers) (p : Param) : Option p.Value :=
  T.cli.get p <|> T.env.get p <|> T.file.bind fun f => f.2.get p

/-- What the parameter is where no tier above the profiles sets it. -/
def defaultAt (T : Tiers) : (p : Param) → Option p.Result
  | .topology k => some (T.topology.defaults.get k)
  | .mode k => some (T.mode.defaults.get k)
  | .free k => k.builtin

/-- At most one tier differs, and there in the opinion on `p` alone. -/
inductive Changed (p : Param) : Tiers → Tiers → Prop
  | cli (T : Tiers) (o : Overrides) (h : ∀ q ≠ p, o.get q = T.cli.get q) :
      Changed p T { T with cli := o }
  | env (T : Tiers) (o : Overrides) (h : ∀ q ≠ p, o.get q = T.env.get q) :
      Changed p T { T with env := o }
  | file (T : Tiers) (f : Option (String × Overrides))
      (h : ∀ q ≠ p, fileSays { T with file := f } q = T.fileSays q) :
      Changed p T { T with file := f }
  | topology (T : Tiers) (t : TopologyProfile)
      (h : ∀ q ≠ p, profileSays { T with topology := t } q = T.profileSays q) :
      Changed p T { T with topology := t }
  | mode (T : Tiers) (m : ModeProfile)
      (h : ∀ q ≠ p, profileSays { T with mode := m } q = T.profileSays q) :
      Changed p T { T with mode := m }

/-- A call of `layer` picks the highest opinion, whatever the tiers' values are wrapped in. -/
theorem some_layer_map {α β : Type} (g : α → β) (builtin : β) (topology mode : Option β)
    (file : Option (String × Overrides)) (get : Overrides → Option α) (env cli : Option α)
    (topologySource modeSource envSource : ConfigSource) :
    some (layer builtin topology mode (((file.map Prod.snd).bind get).map g) (env.map g)
      (cli.map g) topologySource modeSource (fileSource file) envSource) =
    ((cli.map fun v => (⟨g v,.cli⟩ : Resolved β)) <|> (env.map fun v => ⟨g v,envSource⟩) <|>
      (file.bind fun f => (get f.2).map fun v => ⟨g v,.experimentFile f.1⟩) <|>
      (mode.map fun v => ⟨v,modeSource⟩) <|> (topology.map fun v => ⟨v,topologySource⟩) <|>
      some ⟨builtin,.builtinFallback⟩) := by
  cases cli with
  | some v => rfl
  | none =>
    cases env with
    | some v => rfl
    | none =>
      have hf : ((file.map Prod.snd).bind get).map g =
          (file.bind fun f => get f.2).map g := by cases file <;> rfl
      rw [hf]
      cases file with
      | none => cases mode <;> cases topology <;> rfl
      | some f =>
        obtain ⟨path,o⟩ := f
        cases hg : get o <;> cases mode <;> cases topology <;> simp [hg, layer, fileSource]

theorem some_layer {α : Type} (builtin : α) (topology mode : Option α)
    (file : Option (String × Overrides)) (get : Overrides → Option α) (env cli : Option α)
    (topologySource modeSource envSource : ConfigSource) :
    some (layer builtin topology mode ((file.map Prod.snd).bind get) env cli topologySource
      modeSource (fileSource file) envSource) =
    ((cli.map fun v => (⟨v,.cli⟩ : Resolved α)) <|> (env.map fun v => ⟨v,envSource⟩) <|>
      (file.bind fun f => (get f.2).map fun v => ⟨v,.experimentFile f.1⟩) <|>
      (mode.map fun v => ⟨v,modeSource⟩) <|> (topology.map fun v => ⟨v,topologySource⟩) <|>
      some ⟨builtin,.builtinFallback⟩) := by
  simpa only [Option.map_id_fun, id_eq] using some_layer_map id builtin topology mode file get
    env cli topologySource modeSource envSource

variable (T : Tiers)

theorem layer_topology (k : TopologyKey) (modeSource : ConfigSource) :
    some (layer (T.topology.defaults.get k) (some (T.topology.defaults.get k)) none
      ((T.file.map Prod.snd).bind fun o => o.get (.topology k)) (T.env.get (.topology k))
      (T.cli.get (.topology k)) (.topologyProfile (T.topology.sourceLabel k.name)) modeSource
      (fileSource T.file) (.envVar (Param.topology k).envVar)) = T.highest (.topology k) := by
  rw [Profile.sourceLabel, sourceLabel_eq, some_layer]
  rfl

theorem layer_mode (k : ModeKey) (topologySource : ConfigSource) :
    some (layer (T.mode.defaults.get k) none (some (T.mode.defaults.get k))
      (((T.file.map Prod.snd).bind fun o => o.get (.mode k)).map k.lift)
      ((T.env.get (.mode k)).map k.lift) ((T.cli.get (.mode k)).map k.lift) topologySource
      (.modeProfile (T.mode.sourceLabel k.name)) (fileSource T.file)
      (.envVar (Param.mode k).envVar)) = T.highest (.mode k) := by
  rw [Profile.sourceLabel, sourceLabel_eq, some_layer_map]
  rfl

theorem layer_free (k : FreeKey) {builtin : k.Value} (h : k.builtin = some builtin)
    (topologySource modeSource : ConfigSource) :
    some (layer builtin none none ((T.file.map Prod.snd).bind fun o => o.get (.free k))
      (T.env.get (.free k)) (T.cli.get (.free k)) topologySource modeSource
      (fileSource T.file) (.envVar (Param.free k).envVar)) = T.highest (.free k) := by
  have hb : builtinSays (.free k) = some ⟨builtin,.builtinFallback⟩ := by simp [builtinSays, h]
  rw [highest, hb, some_layer]
  rfl

theorem resolveQuorum_eq (envSource : ConfigSource) :
    resolveQuorum T.cli.quorum T.env.quorum ((T.file.map Prod.snd).bind fun o => o.quorum)
      (fileSource T.file) envSource =
    ((T.cli.quorum.map fun v => ⟨v,.cli⟩) <|> (T.env.quorum.map fun v => ⟨v,envSource⟩) <|>
      T.file.bind fun f => f.2.quorum.map fun v => ⟨v,.experimentFile f.1⟩) := by
  generalize T.cli.quorum = cli, T.env.quorum = env, T.file = file
  cases cli with
  | some v => rfl
  | none =>
    cases env with
    | some v => rfl
    | none =>
      cases file with
      | none => rfl
      | some f =>
        obtain ⟨path,o⟩ := f
        cases hq : o.quorum <;> simp [hq, resolveQuorum, fileSource]

theorem highest_quorum : T.highest (.free .quorum) =
    (T.cliSays (.free .quorum) <|> T.envSays (.free .quorum) <|> T.fileSays (.free .quorum)) := by
  simp [highest, profileSays, builtinSays, FreeKey.builtin]

/-- What resolution gives a parameter is what the highest tier that sets it says. -/
theorem resolve_at (p : Param) : T.resolve.at p = T.highest p := by
  cases p with
  | topology k =>
    have h := T.layer_topology k (.modeProfile T.mode.name)
    cases k <;> exact h
  | mode k =>
    have h := T.layer_mode k (.topologyProfile T.topology.name)
    cases k <;> simp only [ModeKey.lift, Option.map_id_fun, id_eq] at h <;> exact h
  | free k =>
    have h := fun b (hb : k.builtin = some b) => T.layer_free k hb
      (.topologyProfile T.topology.name) (.modeProfile T.mode.name)
    cases k
    case quorum => exact (T.resolveQuorum_eq _).trans T.highest_quorum.symm
    all_goals exact h _ rfl

/-- The value of a parameter, without its source. -/
theorem valueAt_resolve (p : Param) :
    T.resolve.valueAt p = ((T.given p).map p.lift <|> T.defaultAt p) := by
  have hdefault : (T.profileSays p <|> builtinSays p).map Resolved.value = T.defaultAt p := by
    cases p with
    | topology k | mode k => rfl
    | free k => cases hk : k.builtin <;> simp [profileSays, builtinSays, defaultAt, hk]
  rw [ResolvedConfig.valueAt, resolve_at, highest, cliSays, envSays, fileSays, given, ← hdefault]
  cases T.cli.get p with
  | some v => rfl
  | none =>
    cases T.env.get p with
    | some v => rfl
    | none =>
      cases T.file with
      | none => rfl
      | some f => cases hf : f.2.get p <;> simp [hf]

variable {T}

/-- Where nothing above the profiles sets a parameter, it is the profile's or the builtin's. -/
theorem highest_of_not_overridden {p : Param} (h : ¬T.Overridden p) :
    T.highest p = (T.profileSays p <|> builtinSays p) := by
  simp only [Overridden, not_or, not_not, not_exists, not_and] at h
  obtain ⟨hcli,henv,hfile⟩ := h
  have hf : T.fileSays p = none := by
    cases hT : T.file with
    | none => rw [fileSays, hT, Option.bind_none]
    | some f => rw [fileSays, hT, Option.bind_some, hfile f hT, Option.map_none]
  rw [highest, cliSays, envSays, hf, hcli, henv]
  rfl

/-- Where a higher tier sets it, the profiles are not asked. -/
theorem highest_of_overridden {p : Param} (h : T.Overridden p) (topology : TopologyProfile)
    (mode : ModeProfile) :
    T.highest p = highest { T with topology := topology, mode := mode } p := by
  unfold highest
  change (T.cliSays p <|> T.envSays p <|> T.fileSays p <|> _) =
    (T.cliSays p <|> T.envSays p <|> T.fileSays p <|> _)
  rcases h with h | h | ⟨f,hf,h⟩
  · obtain ⟨v,hv⟩ := Option.ne_none_iff_exists'.mp h
    have hs : T.cliSays p = some ⟨p.lift v,.cli⟩ := by rw [cliSays, hv, Option.map_some]
    rw [hs]
    rfl
  · obtain ⟨v,hv⟩ := Option.ne_none_iff_exists'.mp h
    have hs : T.envSays p = some ⟨p.lift v,.envVar p.envVar⟩ := by
      rw [envSays, hv, Option.map_some]
    rw [hs]
    cases T.cliSays p <;> rfl
  · obtain ⟨v,hv⟩ := Option.ne_none_iff_exists'.mp h
    have hs : T.fileSays p = some ⟨p.lift v,.experimentFile f.1⟩ := by
      rw [fileSays, hf, Option.bind_some, hv, Option.map_some]
    rw [hs]
    cases T.cliSays p <;> cases T.envSays p <;> rfl

variable (T)

theorem Changed.highest_eq {p q : Param} {T T' : Tiers} (h : Changed p T T') (hq : q ≠ p) :
    T'.highest q = T.highest q := by
  cases h with
  | cli _ h => simp only [highest, cliSays, h q hq]; rfl
  | env _ h => simp only [highest, envSays, h q hq]; rfl
  | file _ h | topology _ h | mode _ h =>
    unfold highest
    rw [h q hq]
    rfl

theorem quorum_eq_none_iff : T.resolve.quorum = none ↔
    T.cli.quorum = none ∧ T.env.quorum = none ∧ ∀ f ∈ T.file, f.2.quorum = none := by
  have h : T.resolve.quorum = T.highest (.free .quorum) := T.resolve_at (.free .quorum)
  rw [h, highest_quorum]
  cases hf : T.file <;> simp [cliSays, envSays, fileSays, hf, Overrides.get]

/-- Precedence and provenance: every parameter has the value of the highest tier that sets it
under that tier's own name, a change of one opinion in one tier reaches one parameter, and the
quorum is absent only when no tier sets it. -/
theorem resolve_precedence (T : Tiers) :
    (∀ p, T.resolve.at p = T.highest p) ∧
    (∀ p T', Changed p T T' → ∀ q ≠ p, T'.resolve.at q = T.resolve.at q) ∧
    (T.resolve.quorum = none ↔
      T.cli.quorum = none ∧ T.env.quorum = none ∧ ∀ f ∈ T.file, f.2.quorum = none) := by
  refine ⟨T.resolve_at,fun p T' h q hq => ?_,T.quorum_eq_none_iff⟩
  rw [resolve_at, resolve_at, h.highest_eq hq]

end Tiers

example : (resolve .edge .research (some ("e.toml",{ quorum := some 3 })) { quorum := some 4 }
    {}).quorum = some ⟨4,.envVar "CONFLUX_QUORUM"⟩ := rfl

/-- With builtin profiles and no overrides only the defaults are left. -/
theorem resolve_ofDefaults (t : Topology) (m : Mode) :
    resolve t m none {} {} = .ofDefaults t m := rfl

end ConfluxFL
