import ConfluxFL.Config.Named

/-! Which file the error of a load names: the walk names the file it stopped at, the merge names
the profile that was selected. -/
namespace ConfluxFL

section Attribution
variable {τ β δ κ : Type} (A : Axis τ β δ κ) (dir : ProfileDir τ)

/-- Why a row cannot be applied, as the profile of some name. -/
def Axis.objection (profile : String) (row : String × τ) : Option ProfileError :=
  match A.keyOf row.1 with
  | some k =>
    match A.convert k row.2 with
    | .ok _ => none
    | .error message => some (.badValue profile row.1 message)
  | none => some (wrongKey A.name profile row.1 (A.keys.map A.keyName) A.otherKeys)

theorem Axis.applyKey_error_iff (defaults : δ) {profile : String} {row : String × τ}
    {e : ProfileError} : A.applyKey defaults profile row.1 row.2 = .error e ↔
      A.objection profile row = some e := by
  unfold applyKey objection
  cases A.keyOf row.1 with
  | none => simp
  | some k =>
    cases hv : A.convert k row.2 with
    | ok v => simp [hv]
    | error message => simp [hv]

/-- A merge stops at the first row that cannot be applied, the base-most file first. -/
theorem Axis.mergeFiles_error_iff {profile : String} {files : List (LoadedFile τ)}
    {acc : Merged δ} {e : ProfileError} : A.mergeFiles profile files acc = .error e ↔
      files.reverse.findSome? (fun f => f.2.rows.findSome? (A.objection profile)) = some e := by
  have hrow : ∀ (file : String) (acc : Merged δ) (row : String × τ) (e : ProfileError),
      A.applyRow profile file acc row = .error e ↔ A.objection profile row = some e := by
    intro file acc row e
    rw [← A.applyKey_error_iff acc.1, applyRow, Fallible.except_bind_error_iff]
    simp [pure, Except.pure]
  exact Fallible.foldlM_error_iff fun acc f e => Fallible.foldlM_error_iff (hrow f.1)

/-- The first row of a chain that is refused, and why. -/
def Axis.firstRefused (profile : String) (visited : List String) :
    Option ((String × τ) × ProfileError) :=
  visited.reverse.findSome? fun n =>
    (dir.keys n).rows.findSome? fun row => (A.objection profile row).map (row,·)

/-- The merge reports the first refused row. -/
theorem Axis.findSome?_objection (name : String) (visited : List String) :
    ((visited.map fun n => (n,dir.keys n)).reverse.findSome? fun f =>
      f.2.rows.findSome? (A.objection name)) =
    (A.firstRefused dir name visited).map Prod.snd := by
  rw [firstRefused, List.map_findSome?, ← List.map_reverse, List.findSome?_map]
  congr 1
  funext n
  rw [Function.comp_apply, Function.comp_apply, List.map_findSome?]
  congr 1
  funext row
  rw [Function.comp_apply, Option.map_map]
  exact (Option.map_id' ..).symm

variable {A dir} {name key : String}

theorem Axis.keyOf_eq_none (h : A.keyOf key = none) : key ∉ A.keys.map A.keyName := by
  intro hmem
  obtain ⟨k,-,rfl⟩ := List.mem_map.mp hmem
  rw [A.keyOf_keyName] at h
  cases h

/-- The two kinds of refused rows. -/
theorem Axis.objection_cases {v : τ} {e : ProfileError} (h : A.objection name (key,v) = some e) :
    (∃ k message, A.keyName k = key ∧ A.convert k v = .error message ∧
      e = .badValue name key message) ∨
    A.keyOf key = none ∧ e = wrongKey A.name name key (A.keys.map A.keyName) A.otherKeys := by
  unfold objection at h
  cases hk : A.keyOf key with
  | none => exact .inr ⟨rfl,by simpa [hk] using h.symm⟩
  | some k =>
    cases hv : A.convert k v with
    | ok v => simp [hk, hv] at h
    | error message =>
      exact .inl ⟨k,message,A.keyName_of_keyOf hk,hv,by simpa [hk, hv] using h.symm⟩

theorem Axis.objection_of_firstRefused {visited : List String} {row : String × τ}
    {e : ProfileError} (h : A.firstRefused dir name visited = some (row,e)) :
    A.objection name row = some e := by
  obtain ⟨n,-,hn⟩ := List.exists_of_findSome?_eq_some h
  obtain ⟨row',-,hrow⟩ := List.exists_of_findSome?_eq_some hn
  obtain ⟨e',he,hpair⟩ := Option.map_eq_some_iff.mp hrow
  cases hpair
  exact he

variable [TomlValue τ] (A dir)

/-- A bad value and a key of the other axis are reported under the name of a file of the chain
that holds them. -/
def Axis.Names (name : String) : ProfileError → Prop
  | .badValue n key message => ∃ visited v, Walk.Path (A.next dir) name visited n ∧
      dir.value n key = some v ∧ (key = "inherits" ∧ TomlValue.asStr v = none ∨
        ∃ k, A.keyName k = key ∧ A.convert k v = .error message)
  | .wrongAxis n _ key _ => ∃ visited v, Walk.Path (A.next dir) name visited n ∧
      dir.value n key = some v ∧ key ∈ A.otherKeys
  | _ => True

/-- The first row that is refused, unless no axis has its key, could be one of the selected file:
that file sets the key too, and what it sets is refused in the same words. -/
def Axis.FaultSelected (name : String) : Prop :=
  ∀ visited b row e, Walk.EndsAt (A.next dir) name visited b → A.Unshadowed dir b →
    A.firstRefused dir name visited = some (row,e) → row.1 ∈ A.keys.map A.keyName++A.otherKeys →
      ∃ v, dir.value name row.1 = some v ∧ A.objection name (row.1,v) = some e

variable {A dir}

/-- What a load fails with: an error of the walk, or the first refused row of the chain. -/
theorem loadProfile_error_iff {e : ProfileError} : A.loadProfile dir name = .error e ↔
    loadChain A dir name = .error e ∨ ∃ visited b row, Walk.EndsAt (A.next dir) name visited b ∧
      A.Unshadowed dir b ∧ A.firstRefused dir name visited = some (row,e) := by
  rw [Axis.loadProfile, Fallible.except_bind_error_iff]
  refine or_congr_right ⟨?_,?_⟩
  · rintro ⟨chain,hchain,h⟩
    obtain ⟨visited,hends,hfiles⟩ := loadChain_ok hchain
    obtain ⟨visited',b,hends',hu⟩ := loadChain_isOk_iff.mp ⟨chain,hchain⟩
    obtain ⟨rfl,rfl⟩ := hends.unique hends'
    rcases Fallible.except_bind_error_iff.mp h with hm | ⟨merged,-,h⟩
    · rw [Axis.mergeFiles_error_iff, hfiles, Axis.findSome?_objection] at hm
      obtain ⟨⟨row,e⟩,hfirst,rfl⟩ := Option.map_eq_some_iff.mp hm
      exact ⟨visited,_,row,hends,hu,hfirst⟩
    · cases h
  · rintro ⟨visited,b,row,hends,hu,hfirst⟩
    obtain ⟨chain,hchain⟩ := loadChain_isOk_iff.mpr ⟨visited,b,hends,hu⟩
    obtain ⟨visited',hends',hfiles⟩ := loadChain_ok hchain
    obtain ⟨rfl,-⟩ := hends.unique hends'
    refine ⟨chain,hchain,Fallible.except_bind_error_iff.mpr (.inl ?_)⟩
    rw [Axis.mergeFiles_error_iff, hfiles, Axis.findSome?_objection, hfirst]
    rfl

/-- The walk names the file it stopped at. -/
theorem names_of_loadChain {e : ProfileError} (h : loadChain A dir name = .error e) :
    A.Names dir name e := by
  obtain ⟨s,hs,ht⟩ := loadChain_last A dir name
  rw [h] at ht
  unfold chainTurn at ht
  split_ifs at ht with hl hf hv
  · obtain rfl := Except.error.inj (Sum.inr.inj ht)
    trivial
  · cases Sum.inr.inj ht
  · obtain rfl := Except.error.inj (Sum.inr.inj ht)
    trivial
  cases hfile : dir.find s.current with
  | none =>
    rw [hfile] at ht
    obtain rfl := Except.error.inj (Sum.inr.inj ht)
    trivial
  | some file =>
    rw [hfile] at ht
    cases file with
    | unreadable source =>
      obtain rfl := Except.error.inj (Sum.inr.inj ht)
      trivial
    | malformed message =>
      obtain rfl := Except.error.inj (Sum.inr.inj ht)
      trivial
    | table rows =>
      cases hi : rows.lookup "inherits" with
      | none =>
        simp only [hi] at ht
        obtain rfl := Except.error.inj (Sum.inr.inj ht)
        trivial
      | some value =>
        cases hp : TomlValue.asStr value with
        | some parent => simp [hi, hp] at ht
        | none =>
          simp only [hi, hp] at ht
          obtain rfl := Except.error.inj (Sum.inr.inj ht)
          refine ⟨s.visited,value,hs.path,?_,.inl ⟨rfl,hp⟩⟩
          rw [ProfileDir.value, hfile]
          exact hi

/-- A row of the selected file itself is refused under the right name. -/
theorem Axis.names_of_objection {v : τ} {e : ProfileError} (hv : dir.value name key = some v)
    (h : A.objection name (key,v) = some e) : A.Names dir name e := by
  rcases A.objection_cases h with ⟨k,message,hk,hc,rfl⟩ | ⟨-,rfl⟩
  · exact ⟨[],v,.nil name,hv,.inr ⟨k,hk,hc⟩⟩
  · by_cases hother : key ∈ A.otherKeys
    · rw [wrongKey, if_pos hother]
      exact ⟨[],v,.nil name,hv,hother⟩
    · rw [wrongKey, if_neg hother]
      trivial

/-- A key of no axis is reported without a file. -/
theorem Axis.names_of_unknown {v : τ} {e : ProfileError} (h : A.objection name (key,v) = some e)
    (hkey : key ∉ A.keys.map A.keyName++A.otherKeys) : A.Names dir name e := by
  rw [List.mem_append, not_or] at hkey
  rcases A.objection_cases h with ⟨k,message,hk,-,-⟩ | ⟨-,rfl⟩
  · exact absurd (hk ▸ List.mem_map_of_mem (A.mem_keys k)) hkey.1
  · rw [wrongKey, if_neg hkey.2]
    trivial

/-- A refusal under the name of the selected profile is right only where its file could have been
refused so. -/
theorem Axis.objection_of_names {v : τ} {e : ProfileError} (h : A.objection name (key,v) = some e)
    (hkey : key ∈ A.keys.map A.keyName++A.otherKeys) (hn : A.Names dir name e) :
    ∃ v', dir.value name key = some v' ∧ A.objection name (key,v') = some e := by
  rcases A.objection_cases h with ⟨k,message,rfl,-,rfl⟩ | ⟨hk,rfl⟩
  · obtain ⟨visited,v',-,hv',⟨hinherits,-⟩ | ⟨k',hk',hc⟩⟩ := hn
    · exact absurd hinherits (A.keyName_ne k)
    · refine ⟨v',hv',?_⟩
      rw [objection, ← hk', A.keyOf_keyName]
      simp [hc]
  · have hother : key ∈ A.otherKeys :=
      (List.mem_append.mp hkey).resolve_left (A.keyOf_eq_none hk)
    rw [wrongKey, if_pos hother] at hn
    obtain ⟨visited,v',-,hv',-⟩ := hn
    refine ⟨v',hv',?_⟩
    rw [objection, hk]

/-- On one axis the errors of a load name the right file exactly when the fault that the merge
stops at could be one of the selected file. -/
theorem Axis.names_iff : (∀ e, A.loadProfile dir name = .error e → A.Names dir name e) ↔
    A.FaultSelected dir name := by
  constructor
  · intro h visited b row e hends hu hfirst hkey
    have hload := loadProfile_error_iff.mpr (.inr ⟨visited,b,row,hends,hu,hfirst⟩)
    exact A.objection_of_names (A.objection_of_firstRefused hfirst) hkey (h e hload)
  · intro h e hload
    rcases loadProfile_error_iff.mp hload with hchain | ⟨visited,b,row,hends,hu,hfirst⟩
    · exact names_of_loadChain hchain
    by_cases hkey : row.1 ∈ A.keys.map A.keyName++A.otherKeys
    · obtain ⟨v,hv,he⟩ := h visited b row e hends hu hfirst hkey
      exact A.names_of_objection hv he
    · exact A.names_of_unknown (A.objection_of_firstRefused hfirst) hkey

variable (dir) (name)

/-- On both axes a bad value and a key of the other axis are reported under the name of a file of
the chain that holds them. -/
def ErrorsNameTheFile : Prop :=
  (∀ e, loadTopologyProfile dir name = .error e → topologyAxis.Names dir name e) ∧
    ∀ e, loadModeProfile dir name = .error e → modeAxis.Names dir name e

theorem errorsNameTheFile_iff : ErrorsNameTheFile dir name ↔
    topologyAxis.FaultSelected dir name ∧ modeAxis.FaultSelected dir name :=
  and_congr Axis.names_iff Axis.names_iff

end Attribution

/-- `child` inherits from `base`, which sets a timeout that is no number. -/
def inheritedFault : ProfileDir TomlScalar where
  path := "profiles"
  files := [.table ⟨[("inherits",.str "base")],by simp⟩,
    .table ⟨[("inherits",.str "cross_silo"),("round_timeout_secs",.str "soon")],by simp⟩]
  locate := fun path =>
    if path = "profiles/child.toml" then some 0
    else if path = "profiles/base.toml" then some 1 else none
  listed := some ["base","child"]

/-- The error names `child`, whose file sets no timeout. -/
theorem not_errorsNameTheFile_inherited : ¬ErrorsNameTheFile inheritedFault "child" := by
  intro h
  have hload : (match loadTopologyProfile inheritedFault "child" with
      | .ok _ => none
      | .error e => some e) = some (.badValue "child" "round_timeout_secs" "invalid type") := by
    decide +kernel
  cases hresult : loadTopologyProfile inheritedFault "child" with
  | ok p =>
    rw [hresult] at hload
    cases hload
  | error e =>
    rw [hresult] at hload
    obtain rfl := Option.some.inj hload
    obtain ⟨visited,v,-,hv,-⟩ := h.1 _ hresult
    have hunset : (inheritedFault.value "child" "round_timeout_secs").isSome = false := by
      decide +kernel
    rw [hv] at hunset
    cases hunset

end ConfluxFL
