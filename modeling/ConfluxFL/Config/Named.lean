import ConfluxFL.Config.LoadProfile
import ConfluxFL.Config.Resolve

/-! Selecting a profile by name: no name is a default, a builtin's label is that builtin, and any
other name is a file. -/
namespace ConfluxFL
variable {τ β δ κ : Type}

/-- A builtin as a profile of its axis. -/
def Axis.builtin (A : Axis τ β δ κ) (b : β) : Profile β δ :=
  ⟨A.label b,b,A.defaults b,[A.label b],.empty⟩

def Axis.profileNamed [TomlValue τ] (A : Axis τ β δ κ) (unnamed : β) (dir : ProfileDir τ) :
    Option String → Except ProfileError (Profile β δ)
  | none => .ok (A.builtin unnamed)
  | some name =>
    match A.builtins.find? fun b => A.label b = name with
    | some b => .ok (A.builtin b)
    | none => A.loadProfile dir name

section Named
variable [TomlValue τ]

def topologyProfileNamed (dir : ProfileDir τ) (name : Option String) :
    Except ProfileError TopologyProfile := topologyAxis.profileNamed .crossDevice dir name

def modeProfileNamed (dir : ProfileDir τ) (name : Option String) :
    Except ProfileError ModeProfile := modeAxis.profileNamed .research dir name

variable {A : Axis τ β δ κ} {unnamed : β} {dir : ProfileDir τ} {name : Option String}
  {p : Profile β δ}

/-- A profile that is selected is a builtin's or that of a file under another name. -/
theorem Axis.profileNamed_ok (h : A.profileNamed unnamed dir name = .ok p) :
    p = A.builtin p.base ∨
      ∃ n, name = some n ∧ n ∉ A.labels ∧ A.loadProfile dir n = .ok p := by
  cases name with
  | none =>
    obtain rfl := Except.ok.inj h
    exact .inl rfl
  | some n =>
    rw [profileNamed] at h
    split at h
    · obtain rfl := Except.ok.inj h
      exact .inl rfl
    · rename_i hn
      refine .inr ⟨n,rfl,fun hmem => ?_,h⟩
      obtain ⟨b,hb,hl⟩ := List.mem_map.mp hmem
      exact List.find?_eq_none.mp hn b hb (by simpa using hl)

end Named

/-- No builtin's label is the label of a link in a longer chain. -/
theorem linkLabel_ne {name link label : String} (hname : name ≠ label)
    (hlabel : ' ' ∉ label.toList) : linkLabel name link ≠ label := by
  unfold linkLabel
  split_ifs
  · exact hname
  · rintro rfl
    exact hlabel (by simp)

/-- A selected profile that is no builtin's names none of its keys as its base would. -/
theorem Axis.builtin_or_sourceLabel_ne [TomlValue τ] {A : Axis τ β δ κ} {unnamed : β}
    {dir : ProfileDir τ} {name : Option String} {p : Profile β δ}
    (hbuiltins : ∀ b, b ∈ A.builtins) (hspace : ∀ b, ' ' ∉ (A.label b).toList)
    (h : A.profileNamed unnamed dir name = .ok p) :
    p = A.builtin p.base ∨ ∀ key, p.sourceLabel key ≠ A.label p.base := by
  refine (Axis.profileNamed_ok h).imp_right ?_
  rintro ⟨n,-,hn,hload⟩ key
  obtain ⟨visited,hexact⟩ := loadProfile_ok hload
  rw [Profile.sourceLabel, sourceLabel_eq]
  refine linkLabel_ne ?_ (hspace p.base)
  rw [hexact.named]
  rintro rfl
  exact hn (List.mem_map_of_mem (hbuiltins p.base))

theorem Topology.space_notMem_label (t : Topology) : ' ' ∉ t.label.toList := by
  cases t <;> decide

theorem Mode.space_notMem_label (m : Mode) : ' ' ∉ m.label.toList := by cases m <;> decide

theorem Topology.mem_all (t : Topology) : t ∈ all := by cases t <;> decide

theorem Mode.mem_all (m : Mode) : m ∈ all := by cases m <;> decide

/-- The plain values of a profile file. -/
inductive TomlScalar
  | str (text : String)
  | int (value : ℕ)
  | float (value : F64)
  | bool (value : Bool)

def TomlScalar.variant {α : Type} (variants : List (String × α)) : TomlScalar → Except String α
  | .str text =>
    match variants.lookup text with
    | some v => .ok v
    | none => .error ("unknown variant "++text)
  | _ => .error "invalid type"

instance : TomlValue TomlScalar where
  asStr := fun | .str text => some text | _ => none
  toConnectionMode := TomlScalar.variant [("push",.push),("pull",.pull)]
  toAuthMode := TomlScalar.variant [("mtls",.mtls),("jwt",.jwt)]
  toU64 := fun | .int value => .ok value | _ => .error "invalid type"
  toF32 := fun | .float value => .ok value.toF32 | _ => .error "invalid type"
  toSeedMode := TomlScalar.variant [("fixed",.fixed),("os_random",.osRandom)]
  toBudgetExhaustedAction := TomlScalar.variant
    [("halt",.halt),("continue_without_guarantee",.continueWithoutGuarantee)]
  toAccountingScope := TomlScalar.variant [("global",.global),("per_client",.perClient)]
  toBool := fun | .bool value => .ok value | _ => .error "invalid type"
  toLogFormat := TomlScalar.variant [("json",.json),("text",.text)]

/-- A directory that holds one profile, which sets one key over its parent. -/
def ProfileDir.single (stem parent key : String) (value : TomlScalar)
    (h : "inherits" ≠ key) : ProfileDir TomlScalar where
  path := "profiles"
  files := [.table ⟨[("inherits",.str parent),(key,value)],by simpa using h⟩]
  locate := fun path => if path = "profiles/"++(stem++".toml") then some 0 else none
  listed := some [stem]

end ConfluxFL
