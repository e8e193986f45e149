import ConfluxFL.Config.Profile

/-! The profile directory, the errors of loading from it, and what one key of a profile file
does to the values of its axis. -/
namespace ConfluxFL

/-- What the loader asks of a TOML value: whether it is a text, and the conversion to each type
a parameter has, which fails with the deserializer's message. -/
class TomlValue (τ : Type) where
  asStr : τ → Option String
  toConnectionMode : τ → Except String ConnectionMode
  toAuthMode : τ → Except String AuthMode
  toU64 : τ → Except String ℕ
  toF32 : τ → Except String F32
  toSeedMode : τ → Except String SeedMode
  toBudgetExhaustedAction : τ → Except String BudgetExhaustedAction
  toAccountingScope : τ → Except String AccountingScope
  toBool : τ → Except String Bool
  toLogFormat : τ → Except String LogFormat

/-- What reading and parsing a file gives. -/
inductive ProfileFile (τ : Type)
  | unreadable (source : String)
  | malformed (message : String)
  | table (rows : KeyedTable String τ)

/-- A directory of finitely many files. A path is resolved by the system, so two names may
lead to one file. -/
structure ProfileDir (τ : Type) where
  path : String
  files : List (ProfileFile τ)
  /-- The file at a path. -/
  locate : String → Option (Fin files.length)
  /-- The stems of the `.toml` entries, unless the directory cannot be read. -/
  listed : Option (List String)

namespace ProfileDir
variable {τ : Type} (dir : ProfileDir τ)

def join (dir file : String) : String :=
  if file.startsWith "/" ∨ dir = "" then file
  else if dir.endsWith "/" then dir++file
  else dir++"/"++file

def profilePath (name : String) : String := join dir.path (name++".toml")

/-- The file a name selects, if there is one. -/
def find (name : String) : Option (ProfileFile τ) :=
  (dir.locate (dir.profilePath name)).map dir.files.get

theorem mem_files_of_find {name : String} {f : ProfileFile τ} (h : dir.find name = some f) :
    f ∈ dir.files := by
  obtain ⟨i,-,rfl⟩ := Option.map_eq_some_iff.mp h
  exact List.get_mem dir.files i

def availableProfiles : String :=
  match dir.listed with
  | none => "directory "++dir.path++" does not exist"
  | some names =>
    if names = [] then "no .toml files"
    else ", ".intercalate (names.mergeSort fun a b => !(b < a))

end ProfileDir

inductive ProfileError
  | notFound (axis name dir builtins available : String)
  | io (path source : String)
  | parse (path message : String)
  | shadowsBuiltin (axis name : String)
  | missingInherits (name builtins : String)
  | cycle (chain : String)
  | unknownKey (axis key suggestion valid : String)
  | wrongAxis (name axis key owner : String)
  | badValue (name key message : String)
  deriving DecidableEq, Repr

def ProfileError.message : ProfileError → String
  | notFound axis name dir builtins available =>
    "no "++axis++" profile named \""++name++"\": not a builtin ("++builtins++") and no "++
      name++".toml in "++dir++" (found: "++available++")"
  | io path source => "could not read "++path++": "++source
  | parse path message => path++" is not valid TOML: "++message
  | shadowsBuiltin axis name =>
    "profile \""++name++"\" shadows the builtin "++axis++" \""++name++
      "\" — rename the file. A file silently replacing a builtin would make one deployment's \""++
      name++"\" mean something different from every other deployment's"
  | missingInherits name builtins =>
    "profile \""++name++"\" has no `inherits`. Every profile extends a base — ultimately one " ++
      "of the builtins ("++builtins++") — and overrides only what differs; a profile built " ++
      "from nothing would need its own answer for every parameter, which is how " ++
      "configurations drift apart"
  | cycle chain => "profile inheritance cycle: "++chain
  | unknownKey axis key suggestion valid =>
    key++" is not a "++axis++" parameter"++suggestion++" — the "++axis++" profile keys are: "++
      valid
  | wrongAxis name axis key owner =>
    key++" is a "++owner++"-axis parameter, but \""++name++"\" is a "++axis++
      " profile — the two axes own disjoint parameter sets, so put it in your "++owner++
      " profile instead"
  | badValue name key message => key++" in profile \""++name++"\": "++message

/-- The next row of the distance table, from the cell left of its first. -/
def nextRow (ca : Char) : ℕ → List ℕ → List Char → List ℕ
  | left, diagonal::up::prev, cb::b =>
    let cost := if ca = cb then 0 else 1
    left::nextRow ca (min (min (up+1) (left+1)) (diagonal+cost)) (up::prev) b
  | left, _, _ => [left]

def levenshtein (a b : String) : ℕ :=
  let row := a.toList.zipIdx.foldl (fun prev (ca,i) => nextRow ca (i+1) prev b.toList)
    (List.range (b.toList.length+1))
  row.getLastD 0

example : levenshtein "round_timout_secs" "round_timeout_secs" = 1 := by decide +kernel

/-- The first of the closest names that are close enough. -/
def closest (key : String) (keys : List String) : Option String :=
  let near := (keys.map fun k => (k,levenshtein key k)).filter fun (_,d) => d ≤ 2
  (near.minOn? Prod.snd).map Prod.fst

def wrongKey (axis profile key : String) (ownKeys otherKeys : List String) : ProfileError :=
  if key ∈ otherKeys then
    .wrongAxis profile axis key (if axis = "topology" then "mode" else "topology")
  else
    let suggestion := match closest key ownKeys with
      | some k => ", did you mean \""++k++"\"?"
      | none => ""
    .unknownKey axis key suggestion (", ".intercalate ownKeys)

/-- One axis: its builtins with their defaults, the keys a profile may set, and how a TOML
value becomes the value of a key. -/
structure Axis (τ β δ κ : Type) where
  name : String
  builtins : List β
  label : β → String
  defaults : β → δ
  keys : List κ
  keyName : κ → String
  otherKeys : List String
  Value : κ → Type
  get : δ → (k : κ) → Value k
  set : δ → (k : κ) → Value k → δ
  convert : (k : κ) → τ → Except String (Value k)
  mem_keys : ∀ k, k ∈ keys
  keyName_injective : Function.Injective keyName
  keyName_ne : ∀ k, keyName k ≠ "inherits"
  get_set_self : ∀ d k v, get (set d k v) k = v
  get_set_ne : ∀ d k v k', k' ≠ k → get (set d k v) k' = get d k'

namespace Axis
variable {τ β δ κ : Type} (A : Axis τ β δ κ)

def labels : List String := A.builtins.map A.label

/-- The key under a name. -/
def keyOf (key : String) : Option κ := A.keys.find? fun k => A.keyName k = key

theorem keyName_of_keyOf {key : String} {k : κ} (h : A.keyOf key = some k) : A.keyName k = key := by
  simpa using List.find?_some h

/-- Applies one key of the axis and gives back its name, or says why it cannot. -/
def applyKey (defaults : δ) (profile key : String) (value : τ) :
    Except ProfileError (δ × String) :=
  match A.keyOf key with
  | some k =>
    match A.convert k value with
    | .ok v => .ok (A.set defaults k v,A.keyName k)
    | .error message => .error (.badValue profile key message)
  | none => .error (wrongKey A.name profile key (A.keys.map A.keyName) A.otherKeys)

theorem applyKey_ok {defaults : δ} {profile key : String} {value : τ} {r : δ × String}
    (h : A.applyKey defaults profile key value = .ok r) :
    ∃ k v, A.keyName k = key ∧ A.convert k value = .ok v ∧ r = (A.set defaults k v,key) := by
  unfold applyKey at h
  cases hk : A.keyOf key with
  | none => simp [hk] at h
  | some k =>
    obtain rfl := A.keyName_of_keyOf hk
    cases hv : A.convert k value with
    | error message => simp [hk, hv] at h
    | ok v => exact ⟨k,v,rfl,hv,by simpa [hk, hv] using h.symm⟩

theorem keyOf_keyName (k : κ) : A.keyOf (A.keyName k) = some k := by
  have hsome : (A.keyOf (A.keyName k)).isSome :=
    List.find?_isSome.mpr ⟨k,A.mem_keys k,by simp⟩
  obtain ⟨k',hk'⟩ := Option.isSome_iff_exists.mp hsome
  rw [hk', A.keyName_injective (A.keyName_of_keyOf hk')]

/-- A row a profile of the axis may hold: one of its keys, with a value that converts. -/
def Settable (row : String × τ) : Prop :=
  ∃ k v, A.keyName k = row.1 ∧ A.convert k row.2 = .ok v

theorem applyKey_isOk {row : String × τ} (h : A.Settable row) (defaults : δ) (profile : String) :
    ∃ r, A.applyKey defaults profile row.1 row.2 = .ok r := by
  obtain ⟨k,v,hn,hc⟩ := h
  refine ⟨(A.set defaults k v,A.keyName k),?_⟩
  rw [applyKey, ← hn, A.keyOf_keyName]
  simp only [hc]

theorem applyKey_error {defaults : δ} {profile key : String} {value : τ} {e : ProfileError}
    (h : A.applyKey defaults profile key value = .error e) (text : String) : e ≠ .cycle text := by
  unfold applyKey at h
  rintro rfl
  cases hk : A.keyOf key with
  | none =>
    simp only [hk, wrongKey] at h
    split_ifs at h <;> cases Except.error.inj h
  | some k => cases hv : A.convert k value <;> simp [hk, hv] at h

end Axis

def TopologyDefaults.set (d : TopologyDefaults) : (k : TopologyKey) → k.Value → TopologyDefaults
  | .connectionMode, v => { d with connectionMode := v }
  | .auth, v => { d with auth := v }
  | .roundTimeoutSecs, v => { d with roundTimeoutSecs := v }
  | .minReputationScore, v => { d with minReputationScore := v }
  | .clientRegistryTtl, v => { d with clientRegistryTtl := v }

def ModeDefaults.set (d : ModeDefaults) : (k : ModeKey) → k.Result → ModeDefaults
  | .seedMode, v => { d with seedMode := v }
  | .seedValue, v => { d with seedValue := v }
  | .budgetExhaustedAction, v => { d with budgetExhaustedAction := v }
  | .accountingScope, v => { d with accountingScope := v }
  | .allowStubClient, v => { d with allowStubClient := v }
  | .requireNodeAuth, v => { d with requireNodeAuth := v }
  | .configLogFormat, v => { d with configLogFormat := v }

def Topology.all : List Topology := [.crossSilo,.crossDevice,.crowdsource,.edge]
def Mode.all : List Mode := [.research,.production]

section Axes
variable {τ : Type} [TomlValue τ]

def TopologyKey.convert : (k : TopologyKey) → τ → Except String k.Value
  | .connectionMode => TomlValue.toConnectionMode
  | .auth => TomlValue.toAuthMode
  | .roundTimeoutSecs => TomlValue.toU64
  | .minReputationScore => TomlValue.toF32
  | .clientRegistryTtl => TomlValue.toU64

/-- A profile that gives a seed gives some seed. -/
def ModeKey.convert : (k : ModeKey) → τ → Except String k.Result
  | .seedMode => TomlValue.toSeedMode
  | .seedValue => fun value => (TomlValue.toU64 value).map some
  | .budgetExhaustedAction => TomlValue.toBudgetExhaustedAction
  | .accountingScope => TomlValue.toAccountingScope
  | .allowStubClient => TomlValue.toBool
  | .requireNodeAuth => TomlValue.toBool
  | .configLogFormat => TomlValue.toLogFormat

def topologyAxis : Axis τ Topology TopologyDefaults TopologyKey where
  name := "topology"
  builtins := Topology.all
  label := Topology.label
  defaults := Topology.defaults
  keys := TopologyKey.all
  keyName := TopologyKey.name
  otherKeys := ModeKey.all.map ModeKey.name
  Value := TopologyKey.Value
  get := TopologyDefaults.get
  set := TopologyDefaults.set
  convert := TopologyKey.convert
  mem_keys := TopologyKey.mem_all
  keyName_injective := fun k k' h => by
    have hp : Param.topology k = .topology k' := Param.name_injective h
    injection hp
  keyName_ne := fun k => by cases k <;> decide
  get_set_self := fun _ k _ => by cases k <;> rfl
  get_set_ne := fun _ k _ k' h => by cases k <;> cases k' <;> first | rfl | exact absurd rfl h

def modeAxis : Axis τ Mode ModeDefaults ModeKey where
  name := "mode"
  builtins := Mode.all
  label := Mode.label
  defaults := Mode.defaults
  keys := ModeKey.all
  keyName := ModeKey.name
  otherKeys := TopologyKey.all.map TopologyKey.name
  Value := ModeKey.Result
  get := ModeDefaults.get
  set := ModeDefaults.set
  convert := ModeKey.convert
  mem_keys := ModeKey.mem_all
  keyName_injective := fun k k' h => by
    have hp : Param.mode k = .mode k' := Param.name_injective h
    injection hp
  keyName_ne := fun k => by cases k <;> decide
  get_set_self := fun _ k _ => by cases k <;> rfl
  get_set_ne := fun _ k _ k' h => by cases k <;> cases k' <;> first | rfl | exact absurd rfl h

def applyTopologyKey (defaults : TopologyDefaults) (profile key : String) (value : τ) :
    Except ProfileError (TopologyDefaults × String) :=
  topologyAxis.applyKey defaults profile key value

def applyModeKey (defaults : ModeDefaults) (profile key : String) (value : τ) :
    Except ProfileError (ModeDefaults × String) :=
  modeAxis.applyKey defaults profile key value

end Axes
end ConfluxFL
