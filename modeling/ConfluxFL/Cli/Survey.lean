import ConfluxFL.Cli.Doctor

/-! The survey of the profiles that nothing selected, against the loaders: which files it files
under the axis they load on. -/
namespace ConfluxFL

section Ends
variable {τ β δ κ : Type} [TomlValue τ] {A : Axis τ β δ κ} {dir : ProfileDir τ}
  {name b : String} {visited : List String}

/-- A chain that ends at a builtin with a file beside it. -/
theorem loadProfile_shadowed (h : Walk.EndsAt (A.next dir) name visited b) (hb : b ∈ A.labels)
    (hfile : (dir.find b).isSome) :
    A.loadProfile dir name = .error (.shadowsBuiltin A.name b) := by
  obtain ⟨s,rfl,-,ht⟩ := loadChain_endsAt h
  simp only [chainTurn, dif_pos hb, if_pos hfile] at ht
  rw [Axis.loadProfile, ← Sum.inr.inj ht]
  rfl

/-- A chain that ends at a name without a file that is no builtin of the axis. -/
theorem loadProfile_notFound (h : Walk.EndsAt (A.next dir) name visited b) (hb : b ∉ A.labels)
    (hfile : dir.find b = none) : A.loadProfile dir name =
      .error (.notFound A.name b dir.path (", ".intercalate A.labels) dir.availableProfiles) := by
  obtain ⟨s,rfl,hv,ht⟩ := loadChain_endsAt h
  simp only [chainTurn, dif_neg hb, if_neg hv, hfile] at ht
  rw [Axis.loadProfile, ← Sum.inr.inj ht]
  rfl

/-- What leads on leads on along another axis too, unless it is a builtin there. -/
theorem next_of_next {β' δ' κ' : Type} {A' : Axis τ β' δ' κ'} {x y : String}
    (h : A.next dir x = some y) (hx : x ∉ A'.labels) : A'.next dir x = some y := by
  unfold Axis.next at h ⊢
  rw [if_neg hx]
  split_ifs at h
  exact h

/-- A name that leads on has a file. -/
theorem isSome_find_of_next {x y : String} (h : A.next dir x = some y) : (dir.find x).isSome := by
  unfold Axis.next at h
  split_ifs at h
  obtain ⟨f,hf,-⟩ := Option.bind_eq_some_iff.mp h
  exact Option.isSome_of_eq_some hf

end Ends

section Survey
variable {τ : Type} [TomlValue τ] (dir : ProfileDir τ)

/-- A name of the directory whose file declares `inherits`. -/
def ProfileDir.Offers (name : String) : Prop :=
  name ∈ dir.listed.getD [] ∧ declaresInherits dir name = true

/-- A profile that loads as a mode profile, through a file that is named like a topology builtin. -/
def ModeThroughTopology (name : String) : Prop :=
  ∃ visited b, Walk.EndsAt (modeAxis.next dir) name visited b ∧ modeAxis.Unshadowed dir b ∧
    (∀ n ∈ visited, ∀ row ∈ (dir.keys n).rows, modeAxis.Settable row) ∧
    ∃ n ∈ visited, n ∈ Topology.all.map Topology.label

/-- The survey lists every profile under the axis whose loader accepts it, and no profile loads on
both axes. -/
structure SurveyAgrees : Prop where
  topology : ∀ name, dir.Offers name → (name ∈ (unselectedProfiles dir none none).topology ↔
    ∃ p, loadTopologyProfile dir name = .ok p)
  mode : ∀ name, dir.Offers name → (name ∈ (unselectedProfiles dir none none).mode ↔
    ∃ p, loadModeProfile dir name = .ok p)
  unusable : ∀ name, dir.Offers name →
    ((∃ problem, (name,problem) ∈ (unselectedProfiles dir none none).unusable) ↔
      ¬(∃ p, loadTopologyProfile dir name = .ok p) ∧ ¬∃ p, loadModeProfile dir name = .ok p)
  exclusive : ∀ name,
    ¬((∃ p, loadTopologyProfile dir name = .ok p) ∧ ∃ p, loadModeProfile dir name = .ok p)

/-- Where one file goes. -/
def surveyed (found : UnselectedProfiles) (name : String) : UnselectedProfiles :=
  match classify dir name with
  | .ok .topology => { found with topology := found.topology++[name] }
  | .ok .mode => { found with mode := found.mode++[name] }
  | .error problem => { found with unusable := found.unusable++[(name,problem)] }

theorem unselectedProfiles_none : unselectedProfiles dir none none =
    (((dir.listed.getD []).mergeSort fun a b => !(b < a)).filter (declaresInherits dir)).foldl
      (surveyed dir) {} := by
  simp only [unselectedProfiles, Option.isSome_none, Bool.false_eq_true, and_self, if_false,
    Option.isNone_none, if_true]
  rfl

/-- One file goes where it is classified, and nothing that was found is lost. -/
theorem mem_surveyed (found : UnselectedProfiles) (name n : String) :
    (name ∈ (surveyed dir found n).topology ↔
      name ∈ found.topology ∨ name = n ∧ classify dir n = .ok .topology) ∧
    (name ∈ (surveyed dir found n).mode ↔
      name ∈ found.mode ∨ name = n ∧ classify dir n = .ok .mode) ∧
    ∀ problem, ((name,problem) ∈ (surveyed dir found n).unusable ↔
      (name,problem) ∈ found.unusable ∨ name = n ∧ classify dir n = .error problem) := by
  unfold surveyed
  cases classify dir n with
  | ok axis => cases axis <;> simp
  | error problem => simp [eq_comm]

theorem mem_foldl_surveyed (names : List String) (found : UnselectedProfiles) (name : String) :
    (name ∈ (names.foldl (surveyed dir) found).topology ↔
      name ∈ found.topology ∨ name ∈ names ∧ classify dir name = .ok .topology) ∧
    (name ∈ (names.foldl (surveyed dir) found).mode ↔
      name ∈ found.mode ∨ name ∈ names ∧ classify dir name = .ok .mode) ∧
    ∀ problem, ((name,problem) ∈ (names.foldl (surveyed dir) found).unusable ↔
      (name,problem) ∈ found.unusable ∨ name ∈ names ∧ classify dir name = .error problem) := by
  induction names generalizing found with
  | nil => simp
  | cons n names ih =>
    obtain ⟨htopology,hmode,hunusable⟩ := ih (surveyed dir found n)
    obtain ⟨hstepTopology,hstepMode,hstepUnusable⟩ := mem_surveyed dir found name n
    have hn : ∀ r, (name = n ∧ classify dir n = r) = (name = n ∧ classify dir name = r) :=
      fun r => propext (and_congr_right fun he => by rw [he])
    rw [List.foldl_cons, htopology, hmode, hstepTopology, hstepMode]
    refine ⟨?_,?_,fun problem => ?_⟩
    · rw [hn, or_assoc, ← or_and_right, List.mem_cons]
    · rw [hn, or_assoc, ← or_and_right, List.mem_cons]
    · rw [hunusable, hstepUnusable, hn, or_assoc, ← or_and_right, List.mem_cons]

variable {dir} {name : String}

/-- An offered file is listed under what it is classified as. -/
theorem ProfileDir.Offers.mem_iff (h : dir.Offers name) :
    (name ∈ (unselectedProfiles dir none none).topology ↔ classify dir name = .ok .topology) ∧
    (name ∈ (unselectedProfiles dir none none).mode ↔ classify dir name = .ok .mode) ∧
    ∀ problem, ((name,problem) ∈ (unselectedProfiles dir none none).unusable ↔
      classify dir name = .error problem) := by
  have hmem : name ∈ ((dir.listed.getD []).mergeSort fun a b => !(b < a)).filter
      (declaresInherits dir) :=
    List.mem_filter.mpr ⟨List.mem_mergeSort.mpr h.1,h.2⟩
  rw [unselectedProfiles_none]
  obtain ⟨htopology,hmode,hunusable⟩ := mem_foldl_surveyed dir _ {} name
  refine ⟨htopology.trans ?_,hmode.trans ?_,fun problem => (hunusable problem).trans ?_⟩
  all_goals simp only [List.not_mem_nil, false_or, hmem, true_and]

/-- The labels of the two axes are distinct. -/
theorem notMem_topology_of_mode {b : String} (h : b ∈ Mode.all.map Mode.label) :
    b ∉ Topology.all.map Topology.label := by
  revert b
  decide

/-- What the topology loader says about a name whose chain ends at a mode builtin: that it is not
found, or, where the chain passes a name of its own, that a file shadows it. -/
theorem topology_of_mode {visited : List String} {b : String}
    (hends : Walk.EndsAt (modeAxis.next dir) name visited b) (hu : modeAxis.Unshadowed dir b) :
    (∃ n ∈ visited, n ∈ Topology.all.map Topology.label) ∧
        (∃ n, loadTopologyProfile dir name = .error (.shadowsBuiltin "topology" n)) ∨
      (∀ n ∈ visited, n ∉ Topology.all.map Topology.label) ∧
        ∃ n builtins available, loadTopologyProfile dir name =
          .error (.notFound "topology" n dir.path builtins available) := by
  by_cases hfirst : ∃ n ∈ visited, n ∈ Topology.all.map Topology.label
  · refine .inl ⟨hfirst,?_⟩
    -- up to the first such name both loaders follow the same files
    obtain ⟨n,hn⟩ := Option.isSome_iff_exists.mp
      (List.find?_isSome (p := fun n => decide (n ∈ Topology.all.map Topology.label)).mpr
        (by simpa only [decide_eq_true_eq] using hfirst))
    obtain ⟨hlabel,before,after,rfl,hbefore⟩ := List.find?_eq_some_iff_append.mp hn
    have hlabel : n ∈ Topology.all.map Topology.label := of_decide_eq_true hlabel
    have hbefore : ∀ x ∈ before, x ∉ Topology.all.map Topology.label := by
      intro x hx
      simpa only [Bool.not_eq_true', decide_eq_false_iff_not] using hbefore x hx
    have hpath : Walk.Path (topologyAxis.next dir) name before n :=
      hends.1.upTo.congr fun x hx y hxy => next_of_next hxy (hbefore x hx)
    obtain ⟨y,hy,-⟩ := hends.1.next_of_mem (List.mem_append_right _ List.mem_cons_self)
    exact ⟨n,loadProfile_shadowed ⟨hpath,next_of_builtin hlabel⟩ hlabel
      (isSome_find_of_next hy)⟩
  · have hnone : ∀ n ∈ visited, n ∉ Topology.all.map Topology.label :=
      fun n hn hlabel => hfirst ⟨n,hn,hlabel⟩
    have hpath : Walk.Path (topologyAxis.next dir) name visited b :=
      hends.1.congr fun x hx y hxy => next_of_next hxy (hnone x hx)
    have hfile : (dir.find b).bind ProfileFile.parent = none := by rw [hu.2, Option.bind_none]
    have hend : topologyAxis.next dir b = none :=
      (if_neg (notMem_topology_of_mode hu.1)).trans hfile
    exact .inr ⟨hnone,b,_,_,
      loadProfile_notFound ⟨hpath,hend⟩ (notMem_topology_of_mode hu.1) hu.2⟩

theorem classify_topology_iff : classify dir name = .ok .topology ↔
    ∃ p, loadTopologyProfile dir name = .ok p := by
  unfold classify loadTopologyProfile
  cases topologyAxis.loadProfile dir name with
  | ok p => simp
  | error e =>
    cases e
    case notFound =>
      cases modeAxis.loadProfile dir name with
      | ok p => simp
      | error e => cases e <;> simp
    all_goals simp

theorem classify_mode_iff : classify dir name = .ok .mode ↔
    (∃ axis n path builtins available,
      loadTopologyProfile dir name = .error (.notFound axis n path builtins available)) ∧
    ∃ p, loadModeProfile dir name = .ok p := by
  unfold classify loadTopologyProfile loadModeProfile
  cases topologyAxis.loadProfile dir name with
  | ok p => simp
  | error e =>
    cases e
    case notFound =>
      cases modeAxis.loadProfile dir name with
      | ok p => simp
      | error e => cases e <;> simp
    all_goals simp

/-- No profile loads on both axes. -/
theorem not_loads_both : ¬((∃ p, loadTopologyProfile dir name = .ok p) ∧
    ∃ p, loadModeProfile dir name = .ok p) := by
  rintro ⟨⟨p,hp⟩,hmode⟩
  obtain ⟨visited,b,hends,hu,-⟩ := loadProfile_isOk_iff.mp hmode
  rcases topology_of_mode hends hu with ⟨-,n,h⟩ | ⟨-,n,builtins,available,h⟩ <;> rw [hp] at h <;>
    cases h

/-- A profile that its mode loader accepts is classified so unless its chain passes a file that is
named like a topology builtin. -/
theorem classify_mode_of_loads (h : ∃ p, loadModeProfile dir name = .ok p) :
    classify dir name = .ok .mode ↔ ¬ModeThroughTopology dir name := by
  obtain ⟨visited,b,hends,hu,hrows⟩ := loadProfile_isOk_iff.mp h
  rw [classify_mode_iff, and_iff_left h]
  rcases topology_of_mode hends hu with ⟨hthrough,n,hn⟩ | ⟨hnone,n,builtins,available,hn⟩
  · refine iff_of_false ?_ fun hnot => hnot ⟨visited,b,hends,hu,hrows,hthrough⟩
    rintro ⟨axis,n',path,builtins,available,h'⟩
    rw [hn] at h'
    cases h'
  · refine iff_of_true ⟨_,n,_,builtins,available,hn⟩ ?_
    rintro ⟨visited',b',hends',-,-,n',hn',hlabel⟩
    obtain ⟨rfl,-⟩ := hends.unique hends'
    exact hnone n' hn' hlabel

/-- The survey agrees with the loaders exactly when no mode profile of the directory passes a file
that is named like a topology builtin. -/
theorem surveyAgrees_iff :
    SurveyAgrees dir ↔ ∀ name, dir.Offers name → ¬ModeThroughTopology dir name := by
  constructor
  · intro h name hoffers hthrough
    have hmode : ∃ p, loadModeProfile dir name = .ok p := by
      obtain ⟨visited,b,hends,hu,hrows,-⟩ := hthrough
      exact loadProfile_isOk_iff.mpr ⟨visited,b,hends,hu,hrows⟩
    have hclass := hoffers.mem_iff.2.1.mp ((h.mode name hoffers).mpr hmode)
    exact (classify_mode_of_loads hmode).mp hclass hthrough
  · intro h
    have hmode : ∀ name, dir.Offers name →
        (classify dir name = .ok .mode ↔ ∃ p, loadModeProfile dir name = .ok p) :=
      fun name hoffers => ⟨fun hclass => (classify_mode_iff.mp hclass).2,
        fun hloads => (classify_mode_of_loads hloads).mpr (h name hoffers)⟩
    refine ⟨fun name hoffers => hoffers.mem_iff.1.trans classify_topology_iff,
      fun name hoffers => hoffers.mem_iff.2.1.trans (hmode name hoffers),
      fun name hoffers => ?_,fun name => not_loads_both⟩
    rw [← classify_topology_iff, ← hmode name hoffers]
    simp only [hoffers.mem_iff.2.2]
    cases classify dir name with
    | ok axis => cases axis <;> simp
    | error problem => simp

end Survey

/-- A research profile in a file named `edge.toml`. -/
def edgeFile : ProfileDir TomlScalar :=
  .single "edge" "research" "allow_stub_client" (.bool true) (by decide)

/-- The mode loader accepts it, and the survey has it shadow a topology builtin. -/
theorem not_surveyAgrees_edge : ¬SurveyAgrees edgeFile := by
  intro h
  have hoffers : edgeFile.Offers "edge" := by
    unfold ProfileDir.Offers
    decide +kernel
  have hloads : ∃ p, loadModeProfile edgeFile "edge" = .ok p := by
    have hok : (loadModeProfile edgeFile "edge").isOk = true := by decide +kernel
    cases hload : loadModeProfile edgeFile "edge" with
    | ok p => exact ⟨p,rfl⟩
    | error e =>
      rw [hload] at hok
      cases hok
  have hshadows : (classify edgeFile "edge").toOption ≠ some .mode := by decide +kernel
  refine hshadows ?_
  rw [hoffers.mem_iff.2.1.mp ((h.mode "edge" hoffers).mpr hloads)]
  rfl

end ConfluxFL
