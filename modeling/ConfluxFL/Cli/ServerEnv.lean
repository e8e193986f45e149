import ConfluxFL.Cli.FedRun
import ConfluxFL.Server.FromEnv
import ConfluxFL.Lib.FloatPrint

/-! The two isolation tiers of `cflux fed run`. As tasks, the server is handed the resolved
record; as processes, a child server resolves again, from six variables and its own defaults. -/
namespace ConfluxFL

/-- The variables the child server is started with. -/
def serverEnv (resolved : ResolvedConfig) (mode : Mode) (weightsDim : UInt64) :
    List (String × String) :=
  [("CONFLUX_MODE",mode.label),
    ("CONFLUX_AGGREGATOR",resolved.aggregator.value),
    ("CONFLUX_SELECTOR",resolved.selector.value),
    ("CONFLUX_CLIP_NORM",resolved.clipNorm.value.display),
    ("CONFLUX_NOISE_MULTIPLIER",resolved.noiseMultiplier.value.display),
    ("CONFLUX_INITIAL_WEIGHTS_DIM",toString weightsDim.toNat)]

/-- The parameters among them. -/
def passed : List Param :=
  [.free .aggregator,.free .selector,.free .clipNorm,.free .noiseMultiplier]

/-- A variable in a clean environment: nothing is set but what the command passes. -/
def childVar (resolved : ResolvedConfig) (mode : Mode) (weightsDim : UInt64) (name : String) :
    Option String := (serverEnv resolved mode weightsDim).lookup name

section Child
variable {τ : Type} (profileDir : String → ProfileDir τ)
  (experimentFile : String → Except String Overrides) (resolved : ResolvedConfig) (mode : Mode)
  (weightsDim : UInt64)

def childHost : Host τ := ⟨childVar resolved mode weightsDim,profileDir,experimentFile⟩

theorem childVar_envVar_eq_none {p : Param} (hp : p ∉ passed) :
    childVar resolved mode weightsDim p.envVar = none := by
  have hmode : p.envVar ≠ "CONFLUX_MODE" := by rcases p with k | k | k <;> cases k <;> decide
  have hdim : p.envVar ≠ "CONFLUX_INITIAL_WEIGHTS_DIM" := by
    rcases p with k | k | k <;> cases k <;> decide
  have hpassed : ∀ q ∈ passed, p.envVar ≠ q.envVar :=
    fun q hq h => hp (Param.envVar_injective h ▸ hq)
  have haggregator : p.envVar ≠ "CONFLUX_AGGREGATOR" := hpassed (.free .aggregator) (by decide)
  have hselector : p.envVar ≠ "CONFLUX_SELECTOR" := hpassed (.free .selector) (by decide)
  have hclip : p.envVar ≠ "CONFLUX_CLIP_NORM" := hpassed (.free .clipNorm) (by decide)
  have hnoise : p.envVar ≠ "CONFLUX_NOISE_MULTIPLIER" :=
    hpassed (.free .noiseMultiplier) (by decide)
  simp only [childVar, serverEnv, List.lookup_cons, List.lookup_nil, beq_false_of_ne hmode,
    beq_false_of_ne hdim, beq_false_of_ne haggregator, beq_false_of_ne hselector,
    beq_false_of_ne hclip, beq_false_of_ne hnoise]

/-- What the child's environment says of a parameter that is not passed. -/
theorem heard_childVar_eq_none {p : Param} (hp : p ∉ passed) :
    heard (childVar resolved mode weightsDim) p = none := by
  rw [heard, childVar_envVar_eq_none resolved mode weightsDim hp]
  cases p.fromStr <;> rfl

theorem heard_childVar_clipNorm : heard (childVar resolved mode weightsDim) (.free .clipNorm) =
    F32.parse resolved.clipNorm.value.display := rfl

theorem heard_childVar_noiseMultiplier :
    heard (childVar resolved mode weightsDim) (.free .noiseMultiplier) =
      F32.parse resolved.noiseMultiplier.value.display := rfl

/-- The child never refuses what it is passed. -/
theorem firstMalformed_childVar :
    firstMalformed (childVar resolved mode weightsDim) = none := by
  have hclip : malformed (childVar resolved mode weightsDim) (.free .clipNorm) = false :=
    congrArg Option.isNone (F32.parse_display resolved.clipNorm.value)
  have hnoise : malformed (childVar resolved mode weightsDim) (.free .noiseMultiplier) = false :=
    congrArg Option.isNone (F32.parse_display resolved.noiseMultiplier.value)
  rw [firstMalformed, List.find?_eq_none]
  intro p _
  by_cases hp : p ∈ passed
  · simp only [passed, List.mem_cons, List.not_mem_nil, or_false] at hp
    rcases hp with rfl | rfl | rfl | rfl
    · exact Bool.false_ne_true
    · exact Bool.false_ne_true
    · rw [hclip]
      exact Bool.false_ne_true
    · rw [hnoise]
      exact Bool.false_ne_true
  · rw [malformed, childVar_envVar_eq_none resolved mode weightsDim hp]
    cases p.fromStr <;> exact Bool.false_ne_true

variable [TomlValue τ]

/-- The tiers of the child. -/
def childTiers : Tiers :=
  ⟨.builtin .crossDevice,.builtin mode,none,.ofGet (heard (childVar resolved mode weightsDim)),{}⟩

/-- The child resolves what it was passed over the builtin `cross_device` and its mode. -/
theorem fromEnv_childHost :
    ServerConfig.fromEnv (childHost profileDir experimentFile resolved mode weightsDim) =
      .ok ⟨(childTiers resolved mode weightsDim).resolve,mode,weightsDim.toNat⟩ := by
  have hdim : Decimal.parseU64 (toString weightsDim.toNat) = some weightsDim.toNat :=
    Decimal.parseU64_toString weightsDim.toNat_lt
  have hnone : ∀ name ∈ ["CONFLUX_TOPOLOGY","CONFLUX_EXPERIMENT_CONFIG_PATH"],
      childVar resolved mode weightsDim name = none := by
    simp [childVar, serverEnv, List.lookup_cons]
  have htopology := hnone _ List.mem_cons_self
  have hfile := hnone _ (List.mem_cons_of_mem _ List.mem_cons_self)
  have hweights : childVar resolved mode weightsDim "CONFLUX_INITIAL_WEIGHTS_DIM" =
      some (toString weightsDim.toNat) := rfl
  have hmodeVar : childVar resolved mode weightsDim "CONFLUX_MODE" = some mode.label := rfl
  have hmode : ∀ dir : ProfileDir τ, modeProfileNamed dir (some mode.label) =
      .ok (.builtin mode) := by
    intro dir
    cases mode <;> rfl
  simp only [ServerConfig.fromEnv, Host.fileTier, Host.initialWeightsDim, childHost, htopology,
    hfile, hweights, hmodeVar, hmode, hdim,
    overridesFromVars_ok (firstMalformed_childVar resolved mode weightsDim)]
  rfl

end Child

/-- What the command is given comes through to a child server: the topology's keys have the
defaults of `cross_device`, the mode's keys those of the mode, the parameters that are not passed
their builtin value, and the two numbers that are passed are read back from their text. -/
structure RunArgs.Transmits (args : RunArgs) (t : Topology) (m : Mode) : Prop where
  topology : ∀ k, (args.given (.topology k)).getD (t.defaults.get k) =
    Topology.crossDevice.defaults.get k
  mode : ∀ k v, args.given (.mode k) = some v → k.lift v = m.defaults.get k
  free : ∀ k, .free k ∉ passed → ∀ v, args.given (.free k) = some v → k.builtin = some v
  clipNorm : ((args.given (.free .clipNorm)).getD F32.one).Prints
  noiseMultiplier : ((args.given (.free .noiseMultiplier)).getD F32.one).Prints

section Agreement
variable {args : RunArgs} {t : Topology} {m : Mode} {weightsDim : UInt64}

/-- The record the command resolves over the two builtins. -/
def RunArgs.resolved (args : RunArgs) (t : Topology) (m : Mode) : ResolvedConfig :=
  (args.tiers (.builtin t) (.builtin m)).resolve

theorem RunArgs.valueAt_resolved (p : Param) : (args.resolved t m).valueAt p =
    ((args.given p).map p.lift <|> (args.tiers (.builtin t) (.builtin m)).defaultAt p) := by
  rw [resolved, Tiers.valueAt_resolve, given_tiers]

theorem valueAt_childTiers (resolved : ResolvedConfig) (p : Param) :
    (childTiers resolved m weightsDim).resolve.valueAt p =
      ((heard (childVar resolved m weightsDim) p).map p.lift <|>
        (childTiers resolved m weightsDim).defaultAt p) := by
  have hcli : (childTiers resolved m weightsDim).cli.get p = none := by
    rcases p with k | k | k <;> cases k <;> rfl
  rw [Tiers.valueAt_resolve, Tiers.given, hcli]
  simp [childTiers]

theorem agree_topology_iff (resolved : ResolvedConfig) (k : TopologyKey) :
    (childTiers resolved m weightsDim).resolve.valueAt (.topology k) =
      (args.resolved t m).valueAt (.topology k) ↔
    (args.given (.topology k)).getD (t.defaults.get k) =
      Topology.crossDevice.defaults.get k := by
  rw [valueAt_childTiers, RunArgs.valueAt_resolved,
    heard_childVar_eq_none resolved m weightsDim (by simp [passed])]
  cases args.given (.topology k) with
  | none | some v => exact ⟨fun h => (Option.some.inj h).symm,fun h => congrArg some h.symm⟩

theorem agree_mode_iff (resolved : ResolvedConfig) (k : ModeKey) :
    (childTiers resolved m weightsDim).resolve.valueAt (.mode k) =
      (args.resolved t m).valueAt (.mode k) ↔
    ∀ v, args.given (.mode k) = some v → k.lift v = m.defaults.get k := by
  rw [valueAt_childTiers, RunArgs.valueAt_resolved,
    heard_childVar_eq_none resolved m weightsDim (by simp [passed])]
  cases args.given (.mode k) with
  | none => exact iff_of_true rfl fun v h => by cases h
  | some v =>
    constructor
    · rintro h _ ⟨⟩
      exact (Option.some.inj h).symm
    · exact fun h => congrArg some (h v rfl).symm

theorem agree_free_iff (resolved : ResolvedConfig) {k : FreeKey} (hk : .free k ∉ passed) :
    (childTiers resolved m weightsDim).resolve.valueAt (.free k) =
      (args.resolved t m).valueAt (.free k) ↔
    ∀ v, args.given (.free k) = some v → k.builtin = some v := by
  rw [valueAt_childTiers, RunArgs.valueAt_resolved,
    heard_childVar_eq_none resolved m weightsDim hk]
  cases args.given (.free k) with
  | none => exact iff_of_true rfl fun v h => by cases h
  | some v =>
    constructor
    · rintro h _ ⟨⟩
      exact h
    · exact fun h => h v rfl

/-- The two numbers are what the command was given, or one. -/
theorem RunArgs.clipNorm_resolved :
    (args.resolved t m).clipNorm.value = (args.given (.free .clipNorm)).getD F32.one := by
  have h : some (args.resolved t m).clipNorm.value = _ :=
    args.valueAt_resolved (t := t) (m := m) (.free .clipNorm)
  cases hg : args.given (.free .clipNorm) <;> rw [hg] at h <;> exact Option.some.inj h

theorem RunArgs.noiseMultiplier_resolved : (args.resolved t m).noiseMultiplier.value =
    (args.given (.free .noiseMultiplier)).getD F32.one := by
  have h : some (args.resolved t m).noiseMultiplier.value = _ :=
    args.valueAt_resolved (t := t) (m := m) (.free .noiseMultiplier)
  cases hg : args.given (.free .noiseMultiplier) <;> rw [hg] at h <;> exact Option.some.inj h

/-- A number that is passed is heard as it was passed exactly when its text is read back. -/
theorem agree_clipNorm_iff : (childTiers (args.resolved t m) m weightsDim).resolve.valueAt
      (.free .clipNorm) = (args.resolved t m).valueAt (.free .clipNorm) ↔
    ((args.given (.free .clipNorm)).getD F32.one).Prints := by
  have hheard := heard_childVar_clipNorm (args.resolved t m) m weightsDim
  rw [valueAt_childTiers, hheard, ← RunArgs.clipNorm_resolved (t := t) (m := m), F32.Prints,
    F32.parse_display]
  exact Iff.rfl

theorem agree_noiseMultiplier_iff : (childTiers (args.resolved t m) m weightsDim).resolve.valueAt
      (.free .noiseMultiplier) = (args.resolved t m).valueAt (.free .noiseMultiplier) ↔
    ((args.given (.free .noiseMultiplier)).getD F32.one).Prints := by
  have hheard := heard_childVar_noiseMultiplier (args.resolved t m) m weightsDim
  rw [valueAt_childTiers, hheard, ← RunArgs.noiseMultiplier_resolved (t := t) (m := m), F32.Prints,
    F32.parse_display]
  exact Iff.rfl

theorem agree_iff_transmits :
    (∀ p, (childTiers (args.resolved t m) m weightsDim).resolve.valueAt p =
      (args.resolved t m).valueAt p) ↔ args.Transmits t m := by
  constructor
  · intro h
    exact ⟨fun k => (agree_topology_iff _ k).mp (h _),fun k => (agree_mode_iff _ k).mp (h _),
      fun k hk => (agree_free_iff _ hk).mp (h _),agree_clipNorm_iff.mp (h _),
      agree_noiseMultiplier_iff.mp (h _)⟩
  · intro h p
    by_cases hp : p ∈ passed
    · simp only [passed, List.mem_cons, List.not_mem_nil, or_false] at hp
      rcases hp with rfl | rfl | rfl | rfl
      · exact valueAt_childTiers ..
      · exact valueAt_childTiers ..
      · exact agree_clipNorm_iff.mpr h.clipNorm
      · exact agree_noiseMultiplier_iff.mpr h.noiseMultiplier
    · cases p with
      | topology k => exact (agree_topology_iff _ k).mpr (h.topology k)
      | mode k => exact (agree_mode_iff _ k).mpr (h.mode k)
      | free k => exact (agree_free_iff _ hp).mpr (h.free k hp)

/-- For every profile directory, manifest and flags that select some configuration: the child
server starts up with the values that the task tier hands its server exactly when what the
command was given comes through. -/
theorem isolationTiers_agree_iff {τ : Type} [TomlValue τ] (dir : ProfileDir τ) (args : RunArgs)
    (weightsDim : UInt64) (profileDir : String → ProfileDir τ)
    (experimentFile : String → Except String Overrides) :
    ∀ t m, topologyProfileNamed dir args.topologyName = .ok t →
      modeProfileNamed dir args.modeName = .ok m →
      ∃ c, resolveFederation dir args = .ok c ∧
        ((∃ s, ServerConfig.fromEnv (childHost profileDir experimentFile c m.base weightsDim) =
            .ok s ∧ s.mode = m.base ∧ s.initialWeightsDim = weightsDim.toNat ∧
            ∀ p, s.resolved.valueAt p = c.valueAt p) ↔
          args.Transmits t.base m.base) := by
  intro t m ht hm
  refine ⟨args.resolved t.base m.base,resolveFederation_ok ht hm,?_⟩
  rw [fromEnv_childHost, ← agree_iff_transmits]
  constructor
  · rintro ⟨s,hs,-,-,hvalues⟩
    obtain rfl := Except.ok.inj hs
    exact hvalues
  · exact fun hvalues => ⟨_,rfl,rfl,rfl,hvalues⟩

/-- A manifest that halves the clipping bound, under a flag that chooses the method: both come
through. -/
theorem isolationTiers_agree_iff_halfClip :
    let args : RunArgs :=
      { manifest := some ("fed.toml",{ experiment := { clipNorm := some ⟨0x3f000000⟩ } })
        aggregator := some "krum" }
    ∃ c, resolveFederation hospitalSilo args = .ok c ∧
      ∃ s, ServerConfig.fromEnv (childHost (fun _ => hospitalSilo) (fun _ => .ok {}) c
            .research 4) = .ok s ∧ s.mode = .research ∧ s.initialWeightsDim = 4 ∧
          ∀ p, s.resolved.valueAt p = c.valueAt p := by
  intro args
  have hargs : args.Transmits .crossDevice .research := by
    refine ⟨fun k => ?_,fun k v hk => ?_,fun k hk v hv => ?_,?_,?_⟩
    · cases k <;> rfl
    · cases k <;> cases hk
    · cases k <;> first | exact absurd (by decide) hk | cases hv
    · exact (F32.parse_display _).trans (congrArg some (if_neg (by decide)))
    · exact (F32.parse_display _).trans (congrArg some (if_neg (by decide)))
  obtain ⟨c,hc,hiff⟩ := isolationTiers_agree_iff hospitalSilo args 4 (fun _ => hospitalSilo)
    (fun _ => .ok {}) (.builtin .crossDevice) (.builtin .research) rfl rfl
  exact ⟨c,hc,hiff.mpr hargs⟩

/-- A quorum in the manifest reaches the server that is a task and no child server. -/
theorem not_isolationTiers_agree_quorum :
    let args : RunArgs :=
      { manifest := some ("fed.toml",{ experiment := { quorum := some 2 } }) }
    ∃ c, resolveFederation hospitalSilo args = .ok c ∧
      c.quorum = some ⟨2,.experimentFile "fed.toml"⟩ ∧
      ∀ profileDir : String → ProfileDir TomlScalar, ∀ experimentFile s,
        ServerConfig.fromEnv (childHost profileDir experimentFile c .research 4) = .ok s →
          s.resolved.quorum = none := by
  refine ⟨_,rfl,rfl,fun profileDir experimentFile s hs => ?_⟩
  rw [fromEnv_childHost] at hs
  obtain rfl := Except.ok.inj hs
  refine (Tiers.quorum_eq_none_iff (childTiers _ .research 4)).mpr ⟨rfl,?_,by rintro f ⟨⟩⟩
  exact (Overrides.get_ofGet _ (.free .quorum)).trans
    (heard_childVar_eq_none _ _ _ (by simp [passed]))

end Agreement
end ConfluxFL
