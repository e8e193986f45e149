import ConfluxFL.Config.ProfileDir
import ConfluxFL.Lib.Fallible
import ConfluxFL.Lib.Walk

/-! Loading a profile: the walk along `inherits` to a builtin, and the merge of the files on the
way, nearest last. -/
namespace ConfluxFL

/-- A file of a chain: its name, and its keys without `inherits`. -/
abbrev LoadedFile (τ : Type) := String × KeyedTable String τ

structure ChainState (τ : Type) where
  files : List (LoadedFile τ)
  visited : List String
  current : String

/-- A chain that reached a builtin. -/
structure Chain {τ β δ κ : Type} (A : Axis τ β δ κ) where
  files : List (LoadedFile τ)
  base : String
  isBuiltin : base ∈ A.labels

section LoadChain
variable {τ β δ κ : Type} [TomlValue τ] (A : Axis τ β δ κ) (dir : ProfileDir τ)

/-- One turn of the loop. -/
def chainTurn (s : ChainState τ) : ChainState τ ⊕ Except ProfileError (Chain A) :=
  let builtinsList := ", ".intercalate A.labels
  if h : s.current ∈ A.labels then
    -- a builtin file beside the builtin would silently diverge from it
    if (dir.find s.current).isSome then .inr (.error (.shadowsBuiltin A.name s.current))
    else .inr (.ok ⟨s.files,s.current,h⟩)
  else if s.current ∈ s.visited then
    .inr (.error (.cycle (" → ".intercalate (s.visited++[s.current]))))
  else
    match dir.find s.current with
    | none =>
      .inr (.error (.notFound A.name s.current dir.path builtinsList dir.availableProfiles))
    | some (.unreadable source) => .inr (.error (.io (dir.profilePath s.current) source))
    | some (.malformed message) => .inr (.error (.parse (dir.profilePath s.current) message))
    | some (.table rows) =>
      match rows.lookup "inherits" with
      | none => .inr (.error (.missingInherits s.current builtinsList))
      | some value =>
        match TomlValue.asStr value with
        | none => .inr (.error (.badValue s.current "inherits"
            "expected a profile or builtin name as a string"))
        | some parent =>
          .inl ⟨s.files++[(s.current,rows.retain fun r => r.1 ≠ "inherits")],
            s.visited++[s.current],parent⟩

/-- The name a file inherits from. -/
def ProfileFile.parent : ProfileFile τ → Option String
  | .table rows => (rows.lookup "inherits").bind TomlValue.asStr
  | _ => none

/-- What a file sets, without `inherits`. -/
def ProfileFile.keys : ProfileFile τ → KeyedTable String τ
  | .table rows => rows.retain fun r => r.1 ≠ "inherits"
  | _ => .empty

/-- The keys of the file a name selects. -/
def ProfileDir.keys (name : String) : KeyedTable String τ :=
  ((dir.find name).map ProfileFile.keys).getD .empty

/-- Following `inherits` from a name: a builtin, a missing file and a malformed one end it. -/
def Axis.next (name : String) : Option String :=
  if name ∈ A.labels then none else (dir.find name).bind ProfileFile.parent

/-- A builtin with no file beside it. -/
def Axis.Unshadowed (name : String) : Prop := name ∈ A.labels ∧ dir.find name = none

/-- What a turn does: it goes on along `inherits`, or reaches a builtin that no file shadows,
or finds the name visited, or stops with another error where `inherits` leads no further. -/
theorem chainTurn_cases (s : ChainState τ) :
    (∃ parent, A.next dir s.current = some parent ∧ s.current ∉ s.visited ∧
      chainTurn A dir s = .inl ⟨s.files++[(s.current,dir.keys s.current)],
        s.visited++[s.current],parent⟩) ∨
    (∃ h : s.current ∈ A.labels, A.Unshadowed dir s.current ∧
      chainTurn A dir s = .inr (.ok ⟨s.files,s.current,h⟩)) ∨
    (s.current ∈ s.visited ∧
      chainTurn A dir s = .inr (.error (.cycle (" → ".intercalate (s.visited++[s.current]))))) ∨
    ∃ e, A.next dir s.current = none ∧ ¬A.Unshadowed dir s.current ∧
      (∀ text, e ≠ .cycle text) ∧ chainTurn A dir s = .inr (.error e) := by
  unfold chainTurn Axis.next Axis.Unshadowed ProfileDir.keys
  by_cases hl : s.current ∈ A.labels
  · cases hf : dir.find s.current with
    | none => exact .inr (.inl ⟨hl,⟨hl,rfl⟩,by simp [hl]⟩)
    | some f =>
      exact .inr (.inr (.inr ⟨.shadowsBuiltin A.name s.current,by simp [hl],by simp,by simp,
        by simp [hl]⟩))
  by_cases hv : s.current ∈ s.visited
  · exact .inr (.inr (.inl ⟨hv,by simp [hl, hv]⟩))
  simp only [hl, dite_false, if_false]
  rw [if_neg hv]
  cases hf : dir.find s.current with
  | none =>
    exact .inr (.inr (.inr ⟨.notFound A.name s.current dir.path (", ".intercalate A.labels)
      dir.availableProfiles,rfl,by simp,by simp,rfl⟩))
  | some f =>
    cases f with
    | unreadable source =>
      exact .inr (.inr (.inr ⟨.io (dir.profilePath s.current) source,rfl,by simp,by simp,rfl⟩))
    | malformed message =>
      exact .inr (.inr (.inr ⟨.parse (dir.profilePath s.current) message,rfl,by simp,by simp,rfl⟩))
    | table rows =>
      cases hi : rows.lookup "inherits" with
      | none =>
        exact .inr (.inr (.inr ⟨.missingInherits s.current (", ".intercalate A.labels),
          by simp [ProfileFile.parent, hi],by simp,by simp,by simp [hi]⟩))
      | some value =>
        cases hp : TomlValue.asStr value with
        | none =>
          exact .inr (.inr (.inr ⟨.badValue s.current "inherits"
            "expected a profile or builtin name as a string",
            by simp [ProfileFile.parent, hi, hp],by simp,by simp,by simp [hi, hp]⟩))
        | some parent =>
          exact .inl ⟨parent,by simp [ProfileFile.parent, hi, hp],hv,
            by simp [hi, hp, ProfileFile.keys]⟩

/-- The names the loop can come to. -/
def ProfileDir.names (name : String) : List String := name::dir.files.filterMap ProfileFile.parent

theorem mem_names_of_next {x y name : String} (h : A.next dir x = some y) : y ∈ dir.names name := by
  unfold Axis.next at h
  split_ifs at h
  obtain ⟨f,hf,hy⟩ := Option.bind_eq_some_iff.mp h
  exact List.mem_cons_of_mem _ (List.mem_filterMap.mpr ⟨f,dir.mem_files_of_find hf,hy⟩)

/-- Every turn that goes on uses up a name. -/
theorem unvisited_lt {names visited : List String} {current : String} (hc : current ∈ names)
    (hv : current ∉ visited) :
    (names.filter (· ∉ visited++[current])).length < (names.filter (· ∉ visited)).length := by
  have hf : names.filter (· ∉ visited++[current]) =
      (names.filter (· ∉ visited)).filter (· ≠ current) := by
    rw [List.filter_filter]
    apply List.filter_congr
    intro x _
    simp [and_comm]
  rw [hf, List.length_filter_lt_length_iff_exists]
  exact ⟨current,List.mem_filter.mpr ⟨hc,by simpa using hv⟩,by simp⟩

def chainStart (name : String) : ChainState τ := ⟨[],[],name⟩

theorem loadChain_stops (name : String) :
    (Loops.run (chainTurn A dir) (dir.files.length+2) (chainStart name)).isSome := by
  apply Loops.isSome_run (fun s => s.current ∈ dir.names name)
    (fun s => ((dir.names name).filter (· ∉ s.visited)).length)
  · intro s s' hs ht
    rcases chainTurn_cases A dir s with
      ⟨parent,hn,hv,h⟩ | ⟨hl,-,h⟩ | ⟨-,h⟩ | ⟨e,-,-,-,h⟩
    · rw [ht] at h
      obtain rfl := Sum.inl.inj h
      exact ⟨mem_names_of_next A dir hn,unvisited_lt hs hv⟩
    all_goals
      rw [ht] at h
      cases h
  · exact List.mem_cons_self
  · have hle := List.length_filter_le
      (· ∉ (chainStart name : ChainState τ).visited) (dir.names name)
    have hlen : (dir.names name).length ≤ dir.files.length+1 := by
      simpa [ProfileDir.names] using List.length_filterMap_le ProfileFile.parent dir.files
    omega

/-- Walks the chain of a name to a builtin. -/
def loadChain (name : String) : Except ProfileError (Chain A) :=
  (Loops.run (chainTurn A dir) (dir.files.length+2) (chainStart name)).get
    (loadChain_stops A dir name)

theorem loadChain_run (name : String) : Loops.run (chainTurn A dir) (dir.files.length+2)
    (chainStart name) = some (loadChain A dir name) := (Option.some_get _).symm

/-- What the loop has done at the head of a turn. -/
structure Walked (name : String) (s : ChainState τ) : Prop where
  path : Walk.Path (A.next dir) name s.visited s.current
  files : s.files = s.visited.map fun n => (n,dir.keys n)

theorem walked_start (name : String) : Walked A dir name (chainStart name) := ⟨.nil name,rfl⟩

variable {A dir} {name : String}

theorem Walked.turn {s s' : ChainState τ} (h : Walked A dir name s)
    (ht : chainTurn A dir s = .inl s') : Walked A dir name s' := by
  rcases chainTurn_cases A dir s with ⟨parent,hn,-,h'⟩ | ⟨hl,-,h'⟩ | ⟨-,h'⟩ | ⟨e,-,-,-,h'⟩
  · rw [ht] at h'
    obtain rfl := Sum.inl.inj h'
    exact ⟨h.path.concat hn,by simp [h.files]⟩
  all_goals
    rw [ht] at h'
    cases h'

/-- What the result of the walk says about the chain of the name: it is a cycle, or the chain
ends, and it loads when it ends at an unshadowed builtin. -/
def ChainResult (A : Axis τ β δ κ) (dir : ProfileDir τ) (name : String)
    (r : Except ProfileError (Chain A)) : Prop :=
  (∀ chain, r = .ok chain → ∃ visited, Walk.Path (A.next dir) name visited chain.base ∧
    chain.files = visited.map fun n => (n,dir.keys n)) ∧
  ((∃ text, r = .error (.cycle text)) ∧ Walk.Revisits (A.next dir) name ∨
    (∀ text, r ≠ .error (.cycle text)) ∧ ∃ l b, Walk.EndsAt (A.next dir) name l b ∧
      ((∃ chain, r = .ok chain) ↔ A.Unshadowed dir b))

theorem next_of_builtin {b : String} (h : b ∈ A.labels) : A.next dir b = none := if_pos h

theorem Walked.result {s : ChainState τ} {r : Except ProfileError (Chain A)}
    (h : Walked A dir name s) (ht : chainTurn A dir s = .inr r) : ChainResult A dir name r := by
  rcases chainTurn_cases A dir s with
    ⟨parent,-,-,h'⟩ | ⟨hl,hu,h'⟩ | ⟨hv,h'⟩ | ⟨e,hn,hu,he,h'⟩ <;> rw [ht] at h'
  · cases h'
  · obtain rfl := Sum.inr.inj h'
    refine ⟨fun chain hc => ?_,.inr ⟨by simp,_,_,⟨h.path,next_of_builtin hl⟩,?_⟩⟩
    · obtain rfl := Except.ok.inj hc
      exact ⟨_,h.path,h.files⟩
    · exact iff_of_true ⟨_,rfl⟩ hu
  · obtain rfl := Sum.inr.inj h'
    exact ⟨by simp,.inl ⟨⟨_,rfl⟩,_,_,h.path,hv⟩⟩
  · obtain rfl := Sum.inr.inj h'
    refine ⟨by simp,.inr ⟨fun text hc => he text (Except.error.inj hc),_,_,⟨h.path,hn⟩,?_⟩⟩
    exact iff_of_false (by simp) hu

/-- The turn that ends the walk gives its result. -/
theorem loadChain_last (A : Axis τ β δ κ) (dir : ProfileDir τ) (name : String) :
    ∃ s, Walked A dir name s ∧ chainTurn A dir s = .inr (loadChain A dir name) := by
  have hend : ∀ s r, Walked A dir name s → chainTurn A dir s = .inr r →
      ∃ s, Walked A dir name s ∧ chainTurn A dir s = .inr r := fun s _ h ht => ⟨s,h,ht⟩
  have h := Loops.run_of_invariant (fun _ _ h ht => Walked.turn h ht) hend
    (walked_start A dir name) (loadChain_run A dir name)
  exact h

theorem loadChain_result (A : Axis τ β δ κ) (dir : ProfileDir τ) (name : String) :
    ChainResult A dir name (loadChain A dir name) := by
  obtain ⟨s,hs,ht⟩ := loadChain_last A dir name
  exact hs.result ht

/-- Where the chain ends, the last turn looks at its end. -/
theorem loadChain_endsAt {visited : List String} {b : String}
    (h : Walk.EndsAt (A.next dir) name visited b) :
    ∃ s : ChainState τ, s.current = b ∧ b ∉ s.visited ∧
      chainTurn A dir s = .inr (loadChain A dir name) := by
  obtain ⟨s,hs,ht⟩ := loadChain_last A dir name
  have hv : s.current ∉ s.visited := fun hv => Walk.Revisits.not_endsAt ⟨_,_,hs.path,hv⟩ h
  have hend : A.next dir s.current = none := by
    rcases chainTurn_cases A dir s with ⟨parent,-,-,h'⟩ | ⟨hl,-,-⟩ | ⟨hv',-⟩ | ⟨e,hn,-,-,-⟩
    · rw [ht] at h'
      cases h'
    · exact next_of_builtin hl
    · exact absurd hv' hv
    · exact hn
  have hends : Walk.EndsAt (A.next dir) name s.visited s.current := ⟨hs.path,hend⟩
  obtain ⟨-,rfl⟩ := hends.unique h
  exact ⟨s,rfl,hv,ht⟩

/-- A chain that loads ends where following `inherits` ends, and holds the files on the way. -/
theorem loadChain_ok {chain : Chain A} (h : loadChain A dir name = .ok chain) :
    ∃ visited, Walk.EndsAt (A.next dir) name visited chain.base ∧
      chain.files = visited.map fun n => (n,dir.keys n) := by
  obtain ⟨visited,hp,hf⟩ := (loadChain_result A dir name).1 chain h
  exact ⟨visited,⟨hp,next_of_builtin chain.isBuiltin⟩,hf⟩

theorem loadChain_cycle_iff : (∃ text, loadChain A dir name = .error (.cycle text)) ↔
    Walk.Revisits (A.next dir) name := by
  rcases (loadChain_result A dir name).2 with ⟨hc,hr⟩ | ⟨hc,l,b,he,-⟩
  · exact iff_of_true hc hr
  · exact iff_of_false (fun ⟨text,ht⟩ => hc text ht) fun hr => hr.not_endsAt he

/-- A chain loads exactly when it ends at a builtin that no file shadows. -/
theorem loadChain_isOk_iff : (∃ chain, loadChain A dir name = .ok chain) ↔
    ∃ visited b, Walk.EndsAt (A.next dir) name visited b ∧ A.Unshadowed dir b := by
  rcases (loadChain_result A dir name).2 with ⟨⟨text,hc⟩,hr⟩ | ⟨-,l,b,he,hok⟩
  · exact iff_of_false (by simp [hc]) fun ⟨_,_,he,_⟩ => hr.not_endsAt he
  · rw [hok]
    constructor
    · exact fun hu => ⟨l,b,he,hu⟩
    · rintro ⟨l',b',he',hu⟩
      rwa [(he.unique he').2]

end LoadChain

namespace Axis
variable {τ β δ κ : Type} (A : Axis τ β δ κ)

/-- The builtin at which a chain ends. -/
def baseOf (chain : Chain A) : β :=
  (A.builtins.find? fun b => A.label b = chain.base).get (by
    obtain ⟨b,hb,hl⟩ := List.mem_map.mp chain.isBuiltin
    exact List.find?_isSome.mpr ⟨b,hb,by simpa using hl⟩)

theorem label_baseOf (chain : Chain A) : A.label (A.baseOf chain) = chain.base := by
  have h : A.builtins.find? (fun b => A.label b = chain.base) = some (A.baseOf chain) :=
    (Option.some_get _).symm
  simpa using List.find?_some h

/-- The values so far, and the link that set each. -/
abbrev Merged (δ : Type) := δ × KeyedTable String String

def applyRow (profile file : String) (acc : Merged δ) (row : String × τ) :
    Except ProfileError (Merged δ) := do
  let (defaults,key) ← A.applyKey acc.1 profile row.1 row.2
  return (defaults,acc.2.upsert key file)

/-- Base-most file first, so nearer files override farther ones. -/
def mergeFiles (profile : String) (files : List (LoadedFile τ)) (start : Merged δ) :
    Except ProfileError (Merged δ) :=
  files.reverse.foldlM
    (fun acc f => f.2.rows.foldlM (A.applyRow profile f.1) acc) start

/-- Before any file every key is the base's. -/
def origins (baseLabel : String) : KeyedTable String String :=
  A.keys.foldl (fun o k => o.upsert (A.keyName k) baseLabel) .empty

def loadProfile [TomlValue τ] (dir : ProfileDir τ) (name : String) :
    Except ProfileError (Profile β δ) := do
  let chain ← loadChain A dir name
  let base := A.baseOf chain
  let (defaults,origins) ← A.mergeFiles name chain.files (A.defaults base,A.origins chain.base)
  return ⟨name,base,defaults,chain.files.map Prod.fst++[chain.base],origins⟩

variable {A} {profile file : String} {acc acc' : Merged δ}

theorem applyRow_ok {row : String × τ} (h : A.applyRow profile file acc row = .ok acc') :
    ∃ k v, A.keyName k = row.1 ∧ A.convert k row.2 = .ok v ∧
      acc' = (A.set acc.1 k v,acc.2.upsert row.1 file) := by
  obtain ⟨⟨d,key⟩,ha,hr⟩ := Fallible.except_bind_ok_iff.mp h
  obtain ⟨k,v,hn,hc,he⟩ := A.applyKey_ok ha
  cases he
  exact ⟨k,v,hn,hc,(Except.ok.inj hr).symm⟩

/-- What a merge does to a key, given the file and the value that decide it, if any. -/
def Settles (A : Axis τ β δ κ) (acc acc' : Merged δ) (k : κ) : Option (String × τ) → Prop
  | some (file,v) =>
    A.convert k v = .ok (A.get acc'.1 k) ∧ acc'.2.lookup (A.keyName k) = some file
  | none =>
    A.get acc'.1 k = A.get acc.1 k ∧ acc'.2.lookup (A.keyName k) = acc.2.lookup (A.keyName k)

theorem settles_refl (acc : Merged δ) (k : κ) : A.Settles acc acc k none := ⟨rfl,rfl⟩

/-- The later of two merges decides where it has something to say. -/
theorem Settles.trans {acc₁ : Merged δ} {k : κ} {near far : Option (String × τ)}
    (h : A.Settles acc acc₁ k far) (h' : A.Settles acc₁ acc' k near) :
    A.Settles acc acc' k (near <|> far) := by
  cases near with
  | some r => exact h'
  | none =>
    obtain ⟨hget,hlook⟩ := h'
    cases far with
    | none => exact ⟨hget.trans h.1,hlook.trans h.2⟩
    | some r => exact ⟨by rw [hget]; exact h.1,hlook.trans h.2⟩

/-- A row decides its own key. -/
theorem settles_applyRow {row : String × τ} (h : A.applyRow profile file acc row = .ok acc')
    (k : κ) :
    A.Settles acc acc' k (if row.1 = A.keyName k then some (file,row.2) else none) := by
  obtain ⟨k₁,v,hn,hc,rfl⟩ := applyRow_ok h
  by_cases hk : k = k₁
  · subst hk
    rw [if_pos hn.symm, ← hn]
    exact ⟨by rw [A.get_set_self]; exact hc,KeyedTable.lookup_upsert_self _ _ _⟩
  · have hne : A.keyName k ≠ row.1 := fun he => hk (A.keyName_injective (he.trans hn.symm))
    rw [if_neg hne.symm]
    exact ⟨A.get_set_ne _ _ _ _ hk,KeyedTable.lookup_upsert_ne _ hne _⟩

/-- One file decides the keys it holds. -/
theorem settles_rows {rows : List (String × τ)} (hnd : (rows.map Prod.fst).Nodup)
    (h : rows.foldlM (A.applyRow profile file) acc = .ok acc') (k : κ) :
    A.Settles acc acc' k ((rows.find? fun r => r.1 = A.keyName k).map fun r => (file,r.2)) := by
  induction rows generalizing acc with
  | nil =>
    obtain rfl := Except.ok.inj h
    exact settles_refl acc k
  | cons row rows ih =>
    obtain ⟨acc₁,hrow,hrest⟩ := Fallible.except_bind_ok_iff.mp h
    rw [List.map_cons, List.nodup_cons] at hnd
    have hs := (settles_applyRow hrow k).trans (ih hnd.2 hrest)
    by_cases hk : row.1 = A.keyName k
    · -- no later row has the key, so what this one set stays
      have hnone : rows.find? (fun r => r.1 = A.keyName k) = none := by
        rw [List.find?_eq_none]
        intro r hr he
        rw [decide_eq_true_eq, ← hk] at he
        exact hnd.1 (he ▸ List.mem_map_of_mem (f := Prod.fst) hr)
      rw [List.find?_cons_of_pos (by simpa using hk)]
      simpa [hnone, hk] using hs
    · rw [List.find?_cons_of_neg (by simpa using hk)]
      simpa [hk] using hs

/-- The nearest file that holds a key, with its value. -/
def nearest (files : List (LoadedFile τ)) (key : String) : Option (String × τ) :=
  files.findSome? fun f => (f.2.lookup key).map (f.1,·)

theorem nearest_cons (f : LoadedFile τ) (files : List (LoadedFile τ)) (key : String) :
    nearest (f::files) key = ((f.2.lookup key).map (f.1,·) <|> nearest files key) := by
  unfold nearest
  cases hl : f.2.lookup key <;> simp [hl]

/-- Of all files the nearest that holds a key decides it. -/
theorem settles_mergeFiles {files : List (LoadedFile τ)}
    (h : A.mergeFiles profile files acc = .ok acc') (k : κ) :
    A.Settles acc acc' k (nearest files (A.keyName k)) := by
  unfold mergeFiles at h
  induction files generalizing acc' with
  | nil =>
    obtain rfl := Except.ok.inj h
    exact settles_refl acc k
  | cons f files ih =>
    rw [List.reverse_cons, List.foldlM_append] at h
    obtain ⟨acc₁,hfar,hnear⟩ := Fallible.except_bind_ok_iff.mp h
    rw [List.foldlM_cons] at hnear
    obtain ⟨acc₂,hrows,hend⟩ := Fallible.except_bind_ok_iff.mp hnear
    obtain rfl := Except.ok.inj hend
    have hs := (ih hfar).trans (settles_rows f.2.nodup hrows k)
    rw [nearest_cons, KeyedTable.lookup, Option.map_map]
    exact hs

theorem lookup_foldl_upsert (baseLabel : String) (keys : List κ) (o : KeyedTable String String)
    {k : κ} (hk : k ∈ keys ∨ o.lookup (A.keyName k) = some baseLabel) :
    (keys.foldl (fun o k => o.upsert (A.keyName k) baseLabel) o).lookup (A.keyName k) =
      some baseLabel := by
  induction keys generalizing o with
  | nil => simpa using hk
  | cons k₁ keys ih =>
    apply ih
    by_cases he : k = k₁
    · subst he
      exact .inr (KeyedTable.lookup_upsert_self _ _ _)
    · rw [KeyedTable.lookup_upsert_ne _ fun hn => he (A.keyName_injective hn)]
      exact hk.imp_left fun hm => (List.mem_cons.mp hm).resolve_left he

theorem lookup_origins (baseLabel : String) (k : κ) :
    (A.origins baseLabel).lookup (A.keyName k) = some baseLabel :=
  lookup_foldl_upsert _ _ _ (.inl (A.mem_keys k))

/-- The merge succeeds exactly when every row of every file may be held. -/
theorem mergeFiles_isOk_iff {files : List (LoadedFile τ)} :
    (∃ acc', A.mergeFiles profile files acc = .ok acc') ↔
      ∀ f ∈ files, ∀ row ∈ f.2.rows, A.Settable row := by
  constructor
  · rintro ⟨acc',h⟩ f hf row hrow
    obtain ⟨acc₁,acc₂,hrows⟩ := Fallible.step_of_foldlM_ok h (List.mem_reverse.mpr hf)
    obtain ⟨acc₃,acc₄,hr⟩ := Fallible.step_of_foldlM_ok hrows hrow
    obtain ⟨k,v,hn,hc,-⟩ := applyRow_ok hr
    exact ⟨k,v,hn,hc⟩
  · intro h
    refine Fallible.foldlM_isOk (fun acc f hf => ?_) acc
    refine Fallible.foldlM_isOk (fun acc row hrow => ?_) acc
    obtain ⟨r,hr⟩ := A.applyKey_isOk (h f (List.mem_reverse.mp hf) row hrow) acc.1 profile
    exact ⟨_,Fallible.except_bind_ok_iff.mpr ⟨r,hr,rfl⟩⟩

theorem mergeFiles_error {files : List (LoadedFile τ)} {e : ProfileError}
    (h : A.mergeFiles profile files acc = .error e) : ∀ text, e ≠ .cycle text := by
  refine Fallible.foldlM_error (P := fun e => ∀ text, e ≠ .cycle text) (fun acc f e hf => ?_) h
  refine Fallible.foldlM_error (P := fun e => ∀ text, e ≠ .cycle text)
    (fun acc row e hr => ?_) hf
  rcases Fallible.except_bind_error_iff.mp hr with ha | ⟨r,-,hr⟩
  · exact A.applyKey_error ha
  · cases hr

end Axis

section Exact
variable {τ β δ κ : Type}

/-- What the file a name selects sets a key to. -/
def ProfileFile.value (key : String) : ProfileFile τ → Option τ
  | .table rows => rows.lookup key
  | _ => none

def ProfileDir.value (dir : ProfileDir τ) (name key : String) : Option τ :=
  (dir.find name).bind (ProfileFile.value key)

/-- Along a chain of names, the first whose file sets a key, with the value it sets. -/
def ProfileDir.nearest (dir : ProfileDir τ) (names : List String) (key : String) :
    Option (String × τ) :=
  names.findSome? fun name => (dir.value name key).map (name,·)

theorem lookup_keys (dir : ProfileDir τ) (name : String) {key : String} (h : key ≠ "inherits") :
    (dir.keys name).lookup key = dir.value name key := by
  unfold ProfileDir.keys ProfileDir.value
  cases dir.find name with
  | none => rfl
  | some f =>
    cases f with
    | table rows => exact rows.lookup_retain fun v => by simpa using h
    | unreadable source => rfl
    | malformed message => rfl

theorem nearest_map_keys (dir : ProfileDir τ) (names : List String) {key : String}
    (h : key ≠ "inherits") :
    Axis.nearest (names.map fun n => (n,dir.keys n)) key = dir.nearest names key := by
  simp only [Axis.nearest, ProfileDir.nearest, List.findSome?_map, Function.comp_def,
    lookup_keys dir _ h]

variable [TomlValue τ]

/-- A profile that is what its chain says: every key has the value of the nearest file that
sets it, or the base's, under a label that names that link. -/
structure Axis.Exact (A : Axis τ β δ κ) (dir : ProfileDir τ) (name : String)
    (visited : List String) (p : Profile β δ) : Prop where
  named : p.name = name
  ends : Walk.EndsAt (A.next dir) name visited (A.label p.base)
  chain : p.chain = visited++[A.label p.base]
  set : ∀ k file v, dir.nearest visited (A.keyName k) = some (file,v) →
    A.convert k v = .ok (A.get p.defaults k) ∧ p.sourceLabel (A.keyName k) = linkLabel name file
  unset : ∀ k, dir.nearest visited (A.keyName k) = none →
    A.get p.defaults k = A.get (A.defaults p.base) k ∧
      p.sourceLabel (A.keyName k) = linkLabel name (A.label p.base)

variable {A : Axis τ β δ κ} {dir : ProfileDir τ} {name : String}

theorem loadProfile_ok {p : Profile β δ} (h : A.loadProfile dir name = .ok p) :
    ∃ visited, A.Exact dir name visited p := by
  obtain ⟨chain,hchain,h⟩ := Fallible.except_bind_ok_iff.mp h
  obtain ⟨merged,hm,h⟩ := Fallible.except_bind_ok_iff.mp h
  obtain rfl := Except.ok.inj h
  obtain ⟨visited,hends,hfiles⟩ := loadChain_ok hchain
  have hbase : A.label (A.baseOf chain) = chain.base := A.label_baseOf chain
  have hs : ∀ k, A.Settles _ merged k (dir.nearest visited (A.keyName k)) := fun k => by
    have hs := Axis.settles_mergeFiles hm k
    rwa [hfiles, nearest_map_keys dir visited (A.keyName_ne k)] at hs
  refine ⟨visited,rfl,by rw [hbase]; exact hends,?_,fun k file v hn => ?_,fun k hn => ?_⟩
  · rw [hbase, hfiles, List.map_map]
    simp [Function.comp_def]
  · have hk := hs k
    rw [hn] at hk
    exact ⟨hk.1,sourceLabel_of_lookup hk.2⟩
  · have hk := hs k
    rw [hn] at hk
    refine ⟨hk.1,?_⟩
    rw [hbase]
    exact sourceLabel_of_lookup (hk.2.trans (Axis.lookup_origins _ k))

theorem loadProfile_cycle_iff : (∃ text, A.loadProfile dir name = .error (.cycle text)) ↔
    Walk.Revisits (A.next dir) name := by
  rw [← loadChain_cycle_iff]
  constructor
  · rintro ⟨text,h⟩
    rcases Fallible.except_bind_error_iff.mp h with hc | ⟨chain,-,h⟩
    · exact ⟨text,hc⟩
    rcases Fallible.except_bind_error_iff.mp h with hm | ⟨merged,-,h⟩
    · exact absurd rfl (Axis.mergeFiles_error hm text)
    · cases h
  · rintro ⟨text,h⟩
    exact ⟨text,by rw [Axis.loadProfile, h]; rfl⟩

/-- A profile loads exactly when its chain ends at an unshadowed builtin and every row on the way
may be held. -/
theorem loadProfile_isOk_iff : (∃ p, A.loadProfile dir name = .ok p) ↔
    ∃ visited b, Walk.EndsAt (A.next dir) name visited b ∧ A.Unshadowed dir b ∧
      ∀ n ∈ visited, ∀ row ∈ (dir.keys n).rows, A.Settable row := by
  constructor
  · rintro ⟨p,h⟩
    obtain ⟨chain,hchain,h⟩ := Fallible.except_bind_ok_iff.mp h
    obtain ⟨merged,hm,-⟩ := Fallible.except_bind_ok_iff.mp h
    obtain ⟨visited,hends,hfiles⟩ := loadChain_ok hchain
    obtain ⟨visited',b,hends',hu⟩ := loadChain_isOk_iff.mp ⟨chain,hchain⟩
    obtain ⟨rfl,rfl⟩ := hends.unique hends'
    refine ⟨visited,_,hends,hu,fun n hn => ?_⟩
    exact Axis.mergeFiles_isOk_iff.mp ⟨merged,hm⟩ _ (hfiles ▸ List.mem_map_of_mem hn)
  · rintro ⟨visited,b,hends,hu,hrows⟩
    obtain ⟨chain,hchain⟩ := loadChain_isOk_iff.mpr ⟨visited,b,hends,hu⟩
    obtain ⟨visited',hends',hfiles⟩ := loadChain_ok hchain
    obtain ⟨rfl,-⟩ := hends.unique hends'
    have hset : ∀ f ∈ chain.files, ∀ row ∈ f.2.rows, A.Settable row := by
      intro f hf
      rw [hfiles] at hf
      obtain ⟨n,hn,rfl⟩ := List.mem_map.mp hf
      exact hrows n hn
    obtain ⟨merged,hm⟩ := Axis.mergeFiles_isOk_iff.mpr hset
    exact ⟨_,Fallible.except_bind_ok_iff.mpr ⟨chain,hchain,
      Fallible.except_bind_ok_iff.mpr ⟨merged,hm,rfl⟩⟩⟩

/-- What loading along an axis guarantees: the walk stops, a profile that loads is what its
chain says, and a cycle is reported exactly when the walk comes back to a name. -/
def Axis.Loads (A : Axis τ β δ κ) (dir : ProfileDir τ) (name : String)
    (load : Except ProfileError (Profile β δ)) : Prop :=
  (∃ turns, Loops.run (chainTurn A dir) turns (chainStart name) =
    some (loadChain A dir name)) ∧
  (∀ p, load = .ok p → ∃ visited, A.Exact dir name visited p) ∧
  ((∃ text, load = .error (.cycle text)) ↔ Walk.Revisits (A.next dir) name)

theorem loads_loadProfile (A : Axis τ β δ κ) (dir : ProfileDir τ) (name : String) :
    A.Loads dir name (A.loadProfile dir name) :=
  ⟨⟨_,loadChain_run A dir name⟩,fun _ h => loadProfile_ok h,loadProfile_cycle_iff⟩

def loadTopologyProfile (dir : ProfileDir τ) (name : String) :
    Except ProfileError TopologyProfile := topologyAxis.loadProfile dir name

def loadModeProfile (dir : ProfileDir τ) (name : String) : Except ProfileError ModeProfile :=
  modeAxis.loadProfile dir name

/-- Inheritance is total and exact on both axes, whatever the directory and the name. -/
theorem profile_inheritance (dir : ProfileDir τ) (name : String) :
    topologyAxis.Loads dir name (loadTopologyProfile dir name) ∧
    modeAxis.Loads dir name (loadModeProfile dir name) :=
  ⟨loads_loadProfile topologyAxis dir name,loads_loadProfile modeAxis dir name⟩

end Exact
end ConfluxFL
