import ConfluxFL.Config.Env
import ConfluxFL.Config.Named

/-! What a server process reads its configuration from: its variables, and the profile directory
and experiment file that they name. -/
namespace ConfluxFL

/-- What a process finds where it starts. -/
structure Host (τ : Type) where
  var : String → Option String
  profileDir : String → ProfileDir τ
  /-- `load_experiment_file`, with the text of its error. -/
  experimentFile : String → Except String Overrides

inductive ServeError where
  | profile (e : ProfileError)
  | configFile (message : String)
  | overrides (e : EnvError)
  | invalidVar (var value : String)

structure ServerConfig where
  resolved : ResolvedConfig
  mode : Mode
  initialWeightsDim : ℕ

section FromEnv
variable {τ : Type} (host : Host τ)

def Host.profiles : ProfileDir τ :=
  host.profileDir ((host.var "CONFLUX_PROFILE_DIR").getD "profiles")

def Host.fileTier : Except ServeError (Option (String × Overrides)) :=
  match host.var "CONFLUX_EXPERIMENT_CONFIG_PATH" with
  | none => .ok none
  | some path => ((host.experimentFile path).map fun o => some (path,o)).mapError .configFile

def Host.initialWeightsDim : Except ServeError ℕ :=
  match host.var "CONFLUX_INITIAL_WEIGHTS_DIM" with
  | none => .ok 4
  | some value =>
    match Decimal.parseU64 value with
    | some dim => .ok dim
    | none => .error (.invalidVar "CONFLUX_INITIAL_WEIGHTS_DIM" value)

def ServerConfig.fromEnv [TomlValue τ] : Except ServeError ServerConfig := do
  let topology ← (topologyProfileNamed host.profiles (host.var "CONFLUX_TOPOLOGY")).mapError
    .profile
  let mode ← (modeProfileNamed host.profiles (host.var "CONFLUX_MODE")).mapError .profile
  let file ← host.fileTier
  let env ← (overridesFromVars host.var).mapError .overrides
  let resolved := resolveWithProfiles topology mode file env {}
  let initialWeightsDim ← host.initialWeightsDim
  return ⟨resolved,mode.base,initialWeightsDim⟩

/-- A server that starts runs in the mode its profile's chain ends at. -/
theorem ServerConfig.fromEnv_mode [TomlValue τ] {host : Host τ} {s : ServerConfig}
    (h : fromEnv host = .ok s) {m : ModeProfile}
    (hm : modeProfileNamed host.profiles (host.var "CONFLUX_MODE") = .ok m) : s.mode = m.base := by
  obtain ⟨topology,-,h⟩ := Fallible.except_bind_ok_iff.mp h
  obtain ⟨mode,hmode,h⟩ := Fallible.except_bind_ok_iff.mp h
  obtain ⟨file,-,h⟩ := Fallible.except_bind_ok_iff.mp h
  obtain ⟨env,-,h⟩ := Fallible.except_bind_ok_iff.mp h
  obtain ⟨dim,-,h⟩ := Fallible.except_bind_ok_iff.mp h
  obtain rfl := Except.ok.inj h
  rw [hm] at hmode
  obtain rfl := Except.ok.inj hmode
  rfl

end FromEnv
end ConfluxFL
