import ConfluxFL.Config.Named

/-! What `cflux fed run` resolves its configuration from: a manifest, the flags, and the profiles
that the topology and mode names select. It keeps the builtin each profile ends at and resolves
over that, where the server resolves over the profiles themselves. -/
namespace ConfluxFL

structure FederationSection where
  topology : Option String := none
  mode : Option String := none

structure MethodSection where
  aggregator : Option String := none
  selector : Option String := none

/-- A `fed.toml`; the `[experiment]` table is what its parser made of it. -/
structure Manifest where
  federation : FederationSection := {}
  method : MethodSection := {}
  experiment : Overrides := {}

/-- The flags; the manifest comes with its path. -/
structure RunArgs where
  manifest : Option (String × Manifest) := none
  aggregator : Option String := none
  selector : Option String := none
  topology : Option String := none
  mode : Option String := none

namespace RunArgs
variable (args : RunArgs)

def contents : Manifest := (args.manifest.map Prod.snd).getD {}

def topologyName : Option String := args.topology <|> args.contents.federation.topology
def modeName : Option String := args.mode <|> args.contents.federation.mode

def fromFile : Overrides :=
  { args.contents.experiment with
    aggregator := args.contents.method.aggregator <|> args.contents.experiment.aggregator
    selector := args.contents.method.selector <|> args.contents.experiment.selector }

def flags : Overrides := { aggregator := args.aggregator, selector := args.selector }

/-- Nobody asked for a value of either privacy parameter. -/
def privacyOff : Bool :=
  args.fromFile.clipNorm.isNone && args.flags.clipNorm.isNone &&
    args.fromFile.noiseMultiplier.isNone && args.flags.noiseMultiplier.isNone

/-- A clip norm of 1000 and no noise, unless someone asked for a value. -/
def fromFlags : Overrides :=
  if args.privacyOff then
    { args.flags with clipNorm := some ⟨0x447a0000⟩, noiseMultiplier := some F32.zero }
  else args.flags

def fileTier : Option (String × Overrides) := args.manifest.map fun m => (m.1,args.fromFile)

/-- The tiers of the command over a pair of profiles. -/
def tiers (topology : TopologyProfile) (mode : ModeProfile) : Tiers :=
  ⟨topology,mode,args.fileTier,{},args.fromFlags⟩

/-- What a flag or else the manifest sets the parameter to. -/
def given (p : Param) : Option p.Value :=
  args.fromFlags.get p <|> args.fileTier.bind fun f => f.2.get p

/-- The manifest or a flag sets the parameter. -/
def Sets (p : Param) : Prop :=
  args.fromFlags.get p ≠ none ∨ ∃ f, args.fileTier = some f ∧ f.2.get p ≠ none

end RunArgs

section Resolution
variable {τ : Type} [TomlValue τ]

/-- The configuration the command runs. -/
def resolveFederation (dir : ProfileDir τ) (args : RunArgs) :
    Except ProfileError ResolvedConfig := do
  let topology := (← topologyProfileNamed dir args.topologyName).base
  let mode := (← modeProfileNamed dir args.modeName).base
  return resolve topology mode args.fileTier {} args.fromFlags

/-- What the same names, manifest and flags resolve to where the profiles count. -/
def resolveFederationWithProfiles (dir : ProfileDir τ) (args : RunArgs) :
    Except ProfileError ResolvedConfig := do
  let topology ← topologyProfileNamed dir args.topologyName
  let mode ← modeProfileNamed dir args.modeName
  return resolveWithProfiles topology mode args.fileTier {} args.fromFlags

variable {dir : ProfileDir τ} {args : RunArgs} {t : TopologyProfile} {m : ModeProfile}

/-- Both refuse the same names with the same error. -/
theorem resolveFederation_error_iff (e : ProfileError) :
    resolveFederation dir args = .error e ↔ resolveFederationWithProfiles dir args = .error e := by
  unfold resolveFederation resolveFederationWithProfiles
  cases topologyProfileNamed dir args.topologyName with
  | error e' => exact Iff.rfl
  | ok t =>
    cases modeProfileNamed dir args.modeName with
    | error e' => exact Iff.rfl
    | ok m => exact iff_of_false nofun nofun

theorem resolveFederation_ok (ht : topologyProfileNamed dir args.topologyName = .ok t)
    (hm : modeProfileNamed dir args.modeName = .ok m) :
    resolveFederation dir args = .ok (args.tiers (.builtin t.base) (.builtin m.base)).resolve := by
  rw [resolveFederation, ht, hm]
  rfl

theorem resolveFederationWithProfiles_ok
    (ht : topologyProfileNamed dir args.topologyName = .ok t)
    (hm : modeProfileNamed dir args.modeName = .ok m) :
    resolveFederationWithProfiles dir args = .ok (args.tiers t m).resolve := by
  rw [resolveFederationWithProfiles, ht, hm]
  rfl

end Resolution

namespace RunArgs
variable {args : RunArgs} {t t' : TopologyProfile} {m m' : ModeProfile}

/-- The environment says nothing here. -/
theorem env_tiers (p : Param) : (args.tiers t m).env.get p = none := by
  rcases p with k | k | k <;> cases k <;> rfl

theorem overridden_iff {p : Param} : (args.tiers t m).Overridden p ↔ args.Sets p := by
  rw [Tiers.Overridden, Sets]
  simp only [env_tiers, ne_eq, not_true_eq_false, false_or]
  exact Iff.rfl

theorem given_tiers (p : Param) : (args.tiers t m).given p = args.given p := by
  rw [Tiers.given, env_tiers]
  cases h : (args.tiers t m).cli.get p <;> exact (congrArg (· <|> _) h.symm).trans rfl

theorem at_eq_of_sets {p : Param} (h : args.Sets p) :
    (args.tiers t m).resolve.at p = (args.tiers t' m').resolve.at p := by
  rw [Tiers.resolve_at, Tiers.resolve_at]
  exact Tiers.highest_of_overridden (overridden_iff.mpr h) t' m'

theorem at_of_not_sets {p : Param} (h : ¬args.Sets p) : (args.tiers t m).resolve.at p =
    ((args.tiers t m).profileSays p <|> Tiers.builtinSays p) := by
  rw [Tiers.resolve_at]
  exact Tiers.highest_of_not_overridden fun ho => h (overridden_iff.mp ho)

/-- A topology key that nothing else sets is the profile's. -/
theorem at_topology {k : TopologyKey} (h : ¬args.Sets (.topology k)) :
    (args.tiers t m).resolve.at (.topology k) =
      some ⟨t.defaults.get k,.topologyProfile (t.sourceLabel k.name)⟩ := by
  rw [at_of_not_sets h, Profile.sourceLabel, sourceLabel_eq]
  rfl

theorem at_mode {k : ModeKey} (h : ¬args.Sets (.mode k)) :
    (args.tiers t m).resolve.at (.mode k) =
      some ⟨m.defaults.get k,.modeProfile (m.sourceLabel k.name)⟩ := by
  rw [at_of_not_sets h, Profile.sourceLabel, sourceLabel_eq]
  rfl

/-- The profiles have no say about the other parameters. -/
theorem at_free (k : FreeKey) : (args.tiers t m).resolve.at (.free k) =
    (args.tiers t' m').resolve.at (.free k) := by
  rw [Tiers.resolve_at, Tiers.resolve_at]
  rfl

/-- Every parameter has the value the profiles give it exactly when, for every key of an axis, a
higher tier sets it or the profile leaves it at the default of its base. -/
theorem valueAt_eq_iff : (∀ p, (args.tiers (.builtin t.base) (.builtin m.base)).resolve.valueAt p =
      (args.tiers t m).resolve.valueAt p) ↔
    (∀ k, args.Sets (.topology k) ∨ t.base.defaults.get k = t.defaults.get k) ∧
    ∀ k, args.Sets (.mode k) ∨ m.base.defaults.get k = m.defaults.get k := by
  constructor
  · intro h
    refine ⟨fun k => or_iff_not_imp_left.mpr fun hk => ?_,
      fun k => or_iff_not_imp_left.mpr fun hk => ?_⟩
    · have hp := h (.topology k)
      rw [ResolvedConfig.valueAt, ResolvedConfig.valueAt, at_topology hk, at_topology hk] at hp
      exact Option.some.inj hp
    · have hp := h (.mode k)
      rw [ResolvedConfig.valueAt, ResolvedConfig.valueAt, at_mode hk, at_mode hk] at hp
      exact Option.some.inj hp
  · rintro ⟨ht,hm⟩ p
    rw [ResolvedConfig.valueAt, ResolvedConfig.valueAt]
    by_cases hp : args.Sets p
    · rw [at_eq_of_sets hp]
    · cases p with
      | topology k =>
        rw [at_topology hp, at_topology hp]
        exact congrArg some ((ht k).resolve_left hp)
      | mode k =>
        rw [at_mode hp, at_mode hp]
        exact congrArg some ((hm k).resolve_left hp)
      | free k => rw [at_free k]

/-- The whole record, with what it says of its sources, is that of the profiles exactly when on
each axis the profile is a builtin's or a higher tier sets every key. -/
theorem resolve_eq_iff
    (ht : t = .builtin t.base ∨ ∀ key, t.sourceLabel key ≠ t.base.label)
    (hm : m = .builtin m.base ∨ ∀ key, m.sourceLabel key ≠ m.base.label) :
    (args.tiers (.builtin t.base) (.builtin m.base)).resolve = (args.tiers t m).resolve ↔
      (t = .builtin t.base ∨ ∀ k, args.Sets (.topology k)) ∧
      (m = .builtin m.base ∨ ∀ k, args.Sets (.mode k)) := by
  constructor
  · intro h
    refine ⟨ht.imp_right fun hlabel k => ?_,hm.imp_right fun hlabel k => ?_⟩
    · by_contra hk
      have hp := congrArg (fun c => c.at (.topology k)) h
      simp only [at_topology hk, Option.some.injEq, Resolved.mk.injEq,
        ConfigSource.topologyProfile.injEq] at hp
      exact hlabel k.name hp.2.symm
    · by_contra hk
      have hp := congrArg (fun c => c.at (.mode k)) h
      simp only [at_mode hk, Option.some.injEq, Resolved.mk.injEq,
        ConfigSource.modeProfile.injEq] at hp
      exact hlabel k.name hp.2.symm
  · rintro ⟨ht,hm⟩
    refine ResolvedConfig.ext_at rfl rfl fun p => ?_
    by_cases hp : args.Sets p
    · exact at_eq_of_sets hp
    · cases p with
      | topology k =>
        rw [at_topology hp, at_topology hp, ← ht.resolve_right fun hall => hp (hall k)]
      | mode k =>
        rw [at_mode hp, at_mode hp, ← hm.resolve_right fun hall => hp (hall k)]
      | free k => exact at_free k

end RunArgs

section Agreement
variable {τ : Type} [TomlValue τ]

/-- The command and a resolution over the selected profiles refuse the same names. Otherwise they
give one record exactly when each axis has a builtin's profile or every key set by the manifest
or a flag, and equal values exactly when every key is so set or left at the default of the base. -/
theorem resolveFederation_agrees_iff (dir : ProfileDir τ) (args : RunArgs) :
    (∀ e, resolveFederation dir args = .error e ↔
      resolveFederationWithProfiles dir args = .error e) ∧
    ∀ t m, topologyProfileNamed dir args.topologyName = .ok t →
      modeProfileNamed dir args.modeName = .ok m →
      ∃ c c', resolveFederation dir args = .ok c ∧
        resolveFederationWithProfiles dir args = .ok c' ∧
        (c = c' ↔ (t = .builtin t.base ∨ ∀ k, args.Sets (.topology k)) ∧
          (m = .builtin m.base ∨ ∀ k, args.Sets (.mode k))) ∧
        ((∀ p, c.valueAt p = c'.valueAt p) ↔
          (∀ k, args.Sets (.topology k) ∨ t.base.defaults.get k = t.defaults.get k) ∧
          ∀ k, args.Sets (.mode k) ∨ m.base.defaults.get k = m.defaults.get k) := by
  refine ⟨resolveFederation_error_iff,fun t m ht hm => ?_⟩
  exact ⟨_,_,resolveFederation_ok ht hm,resolveFederationWithProfiles_ok ht hm,
    RunArgs.resolve_eq_iff
      (Axis.builtin_or_sourceLabel_ne Topology.mem_all Topology.space_notMem_label ht)
      (Axis.builtin_or_sourceLabel_ne Mode.mem_all Mode.space_notMem_label hm),
    RunArgs.valueAt_eq_iff⟩

/-- A deployment that is `cross_silo`, but slower. -/
def hospitalSilo : ProfileDir TomlScalar :=
  .single "hospital_silo" "cross_silo" "round_timeout_secs" (.int 1800) (by decide)

/-- The timeout of the selected profile does not take effect. -/
theorem resolveFederation_ne_hospitalSilo :
    let args : RunArgs := { topology := some "hospital_silo" }
    resolveFederation hospitalSilo args ≠ resolveFederationWithProfiles hospitalSilo args ∧
    ((resolveFederation hospitalSilo args).toOption.map fun c => c.roundTimeoutSecs.value) =
      some 600 ∧
    ((resolveFederationWithProfiles hospitalSilo args).toOption.map
      fun c => c.roundTimeoutSecs.value) = some 1800 := by
  have hvalues : ((resolveFederation hospitalSilo { topology := some "hospital_silo" }).toOption.map
      fun c => c.roundTimeoutSecs.value) = some 600 ∧
      ((resolveFederationWithProfiles hospitalSilo
        { topology := some "hospital_silo" }).toOption.map fun c => c.roundTimeoutSecs.value) =
        some 1800 := by
    decide +kernel
  refine ⟨fun h => ?_,hvalues⟩
  rw [h, hvalues.2] at hvalues
  exact absurd hvalues.1 (by decide)

end Agreement
end ConfluxFL
