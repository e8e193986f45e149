import ConfluxFL.Config.Resolve
import ConfluxFL.Lib.FloatText

/-! The `CONFLUX_*` environment as a tier: which variables the reader looks up, and when a set
variable decides its parameter. -/
namespace ConfluxFL

inductive EnvError
  /-- The variable and the text found in it. -/
  | invalid (name value : String)
  deriving DecidableEq, Repr

/-- The text of the error; `debug` quotes a text as `{:?}` does. -/
def EnvError.message (debug : String → String) : EnvError → String
  | invalid name value => name++"="++debug value++" is not a valid value"

def parseU32 (s : String) : Option ℕ := (Decimal.parseU64 s).filter fun n => n < 2^32

def parseBool (s : String) : Option Bool :=
  if s = "true" then some true else if s = "false" then some false else none

def RoundLogDetail.fromStr (s : String) : Option RoundLogDetail :=
  if s = "quiet" then some .quiet
  else if s = "changes" then some .changes
  else if s = "every" then some .every
  else none

/-- An unset variable is no opinion, a malformed one an error. -/
def parseVar {α : Type} (fromStr : String → Option α) (name : String) :
    Option String → Except EnvError (Option α)
  | none => .ok none
  | some value =>
    match fromStr value with
    | some v => .ok (some v)
    | none => .error (.invalid name value)

def overridesFromVars (get : String → Option String) : Except EnvError Overrides := do
  let var {α : Type} (fromStr : String → Option α) (name : String) :=
    parseVar fromStr name (get name)
  return {
    aggregator := get "CONFLUX_AGGREGATOR"
    selector := get "CONFLUX_SELECTOR"
    privacyMechanism := get "CONFLUX_PRIVACY_MECHANISM"
    robustByzantineFraction := ← var F32.parse "CONFLUX_ROBUST_BYZANTINE_FRACTION"
    clipRadius := ← var F32.parse "CONFLUX_CLIP_RADIUS"
    serverLearningRate := ← var F32.parse "CONFLUX_SERVER_LEARNING_RATE"
    serverTau := ← var F32.parse "CONFLUX_SERVER_TAU"
    serverMomentum := ← var F32.parse "CONFLUX_SERVER_MOMENTUM"
    fairnessQ := ← var F32.parse "CONFLUX_FAIRNESS_Q"
    scaffoldNumClients := ← var parseU32 "CONFLUX_SCAFFOLD_NUM_CLIENTS"
    zenoRho := ← var F32.parse "CONFLUX_ZENO_RHO"
    serverLipschitz := ← var F32.parse "CONFLUX_SERVER_LIPSCHITZ"
    minReputationScore := ← var F32.parse "CONFLUX_MIN_REPUTATION_SCORE"
    reputationFilterEnabled := ← var parseBool "CONFLUX_REPUTATION_FILTER_ENABLED"
    quorum := ← var parseU32 "CONFLUX_QUORUM"
    roundLogDetail := ← var RoundLogDetail.fromStr "CONFLUX_ROUND_LOG_DETAIL"
    roundHistoryLen := ← var parseU32 "CONFLUX_ROUND_HISTORY_LEN"
    maxUpdateBytes := ← var Decimal.parseU64 "CONFLUX_MAX_UPDATE_BYTES"
    roundTimeoutSecs := ← var Decimal.parseU64 "CONFLUX_ROUND_TIMEOUT_SECS"
    clipNorm := ← var F32.parse "CONFLUX_CLIP_NORM"
    noiseMultiplier := ← var F32.parse "CONFLUX_NOISE_MULTIPLIER" }

/-- The parser the reader applies to a parameter's variable, if it reads it at all. -/
def Param.fromStr : (p : Param) → Option (String → Option p.Value)
  | .topology .minReputationScore => some F32.parse
  | .topology .roundTimeoutSecs => some Decimal.parseU64
  | .topology _ => none
  | .mode _ => none
  | .free .aggregator => some some
  | .free .selector => some some
  | .free .privacyMechanism => some some
  | .free .robustByzantineFraction => some F32.parse
  | .free .clipRadius => some F32.parse
  | .free .serverLearningRate => some F32.parse
  | .free .serverTau => some F32.parse
  | .free .serverMomentum => some F32.parse
  | .free .fairnessQ => some F32.parse
  | .free .scaffoldNumClients => some parseU32
  | .free .zenoRho => some F32.parse
  | .free .serverLipschitz => some F32.parse
  | .free .reputationFilterEnabled => some parseBool
  | .free .quorum => some parseU32
  | .free .roundLogDetail => some RoundLogDetail.fromStr
  | .free .roundHistoryLen => some parseU32
  | .free .maxUpdateBytes => some Decimal.parseU64
  | .free .clipNorm => some F32.parse
  | .free .noiseMultiplier => some F32.parse
  | .free _ => none

/-- In the order the reader looks them up. -/
def readOrder : List Param :=
  [.free .aggregator,.free .selector,.free .privacyMechanism,.free .robustByzantineFraction,
    .free .clipRadius,.free .serverLearningRate,.free .serverTau,.free .serverMomentum,
    .free .fairnessQ,.free .scaffoldNumClients,.free .zenoRho,.free .serverLipschitz,
    .topology .minReputationScore,.free .reputationFilterEnabled,.free .quorum,
    .free .roundLogDetail,.free .roundHistoryLen,.free .maxUpdateBytes,
    .topology .roundTimeoutSecs,.free .clipNorm,.free .noiseMultiplier]

theorem mem_readOrder_iff (p : Param) : p ∈ readOrder ↔ ∃ f, p.fromStr = some f := by
  rcases p with k | k | k <;> cases k <;> simp [readOrder, Param.fromStr]

section Reading
variable (get : String → Option String)

def readVar (p : Param) : Except EnvError (Option p.Value) :=
  match p.fromStr with
  | none => .ok none
  | some f => parseVar f p.envVar (get p.envVar)

/-- The reader as a loop over the parameters. -/
def readAll : List Param → ((p : Param) → Option p.Value) → Except EnvError Overrides
  | [], acc => .ok (.ofGet acc)
  | p::ps, acc => do
    let v ← readVar get p
    readAll ps (Function.update acc p v)

theorem readAll_cons_ok {get} {p : Param} {v : Option p.Value} (h : readVar get p = .ok v)
    (ps : List Param) (acc : (p : Param) → Option p.Value) :
    readAll get (p::ps) acc = readAll get ps (Function.update acc p v) := by
  rw [readAll, h]
  rfl

/-- A text is its own value. -/
theorem parseVar_some (name : String) (raw : Option String) :
    parseVar some name raw = .ok raw := by
  cases raw <;> rfl

theorem overridesFromVars_eq_readAll :
    overridesFromVars get = readAll get readOrder fun _ => none := by
  have ha : readVar get (.free .aggregator) = .ok (get "CONFLUX_AGGREGATOR") :=
    parseVar_some "CONFLUX_AGGREGATOR" _
  have hs : readVar get (.free .selector) = .ok (get "CONFLUX_SELECTOR") :=
    parseVar_some "CONFLUX_SELECTOR" _
  have hm : readVar get (.free .privacyMechanism) = .ok (get "CONFLUX_PRIVACY_MECHANISM") :=
    parseVar_some "CONFLUX_PRIVACY_MECHANISM" _
  rw [readOrder, readAll_cons_ok ha, readAll_cons_ok hs, readAll_cons_ok hm]
  rfl

/-- The variable is set to a text its parser rejects. -/
def malformed (p : Param) : Bool :=
  match p.fromStr, get p.envVar with
  | some f, some value => (f value).isNone
  | _, _ => false

/-- What the environment says of a parameter once every variable read parses. -/
def heard (p : Param) : Option p.Value :=
  match p.fromStr, get p.envVar with
  | some f, some value => f value
  | _, _ => none

def firstMalformed : Option Param := readOrder.find? (malformed get)

variable {get} {p : Param}

theorem readVar_of_not_malformed (h : malformed get p = false) :
    readVar get p = .ok (heard get p) := by
  unfold malformed at h
  unfold readVar heard
  cases hf : p.fromStr with
  | none => rfl
  | some f =>
    cases hg : get p.envVar with
    | none => rfl
    | some value =>
      cases hv : f value with
      | none => simp [hf, hg, hv] at h
      | some v => simp [parseVar, hv]

theorem readVar_of_malformed (h : malformed get p = true) :
    ∃ value, get p.envVar = some value ∧ readVar get p = .error (.invalid p.envVar value) := by
  unfold malformed at h
  cases hf : p.fromStr with
  | none => simp [hf] at h
  | some f =>
    cases hg : get p.envVar with
    | none => simp [hf, hg] at h
    | some value =>
      have hv : f value = none := by simpa [hf, hg] using h
      exact ⟨value,rfl,by simp [readVar, hf, hg, parseVar, hv]⟩

/-- Without a malformed variable the loop collects what each one says. -/
theorem readAll_ok {ps : List Param} (h : ∀ p ∈ ps, malformed get p = false)
    (acc : (p : Param) → Option p.Value) :
    readAll get ps acc = .ok (.ofGet fun p => if p ∈ ps then heard get p else acc p) := by
  induction ps generalizing acc with
  | nil => simp [readAll]
  | cons p ps ih =>
    rw [readAll_cons_ok (readVar_of_not_malformed (h p List.mem_cons_self)),
      ih fun q hq => h q (List.mem_cons_of_mem p hq)]
    congr 2
    funext q
    by_cases hq : q = p
    · subst hq
      simp
    · simp [hq]

/-- The first malformed variable ends the loop. -/
theorem readAll_error {ps : List Param} (h : ps.find? (malformed get) = some p)
    (acc : (p : Param) → Option p.Value) : ∃ value, get p.envVar = some value ∧
      readAll get ps acc = .error (.invalid p.envVar value) := by
  induction ps generalizing acc with
  | nil => simp at h
  | cons q ps ih =>
    cases hq : malformed get q with
    | false =>
      rw [List.find?_cons_of_neg (by simp [hq])] at h
      rw [readAll_cons_ok (readVar_of_not_malformed hq)]
      exact ih h _
    | true =>
      rw [List.find?_cons_of_pos hq, Option.some.injEq] at h
      subst h
      obtain ⟨value,hv,hr⟩ := readVar_of_malformed hq
      exact ⟨value,hv,by rw [readAll, hr]; rfl⟩

theorem overridesFromVars_ok (h : firstMalformed get = none) :
    overridesFromVars get = .ok (.ofGet (heard get)) := by
  have hall : ∀ p ∈ readOrder, malformed get p = false := by
    simpa [firstMalformed] using h
  rw [overridesFromVars_eq_readAll, readAll_ok hall]
  congr 2
  funext p
  by_cases hp : p ∈ readOrder
  · simp [hp]
  · have hf : p.fromStr = none := by
      rw [mem_readOrder_iff, ← Option.ne_none_iff_exists', not_not] at hp
      exact hp
    simp [hp, heard, hf]

theorem overridesFromVars_error (h : firstMalformed get = some p) :
    ∃ value, get p.envVar = some value ∧
      overridesFromVars get = .error (.invalid p.envVar value) := by
  rw [overridesFromVars_eq_readAll]
  exact readAll_error h _

end Reading
/-- A set variable is not passed over: either it is refused by name, or every resolution over
this environment takes its value, under its name, wherever no flag sets the parameter. -/
def EnvDecides (get : String → Option String) (p : Param) (value : String) : Prop :=
  overridesFromVars get = .error (.invalid p.envVar value) ∨
  ∃ env x, overridesFromVars get = .ok env ∧ (∀ f, p.fromStr = some f → f value = some x) ∧
    ∀ topology mode file cli, cli.get p = none →
      (resolveWithProfiles topology mode file env cli).at p =
        some ⟨p.lift x,.envVar p.envVar⟩

/-- What the tiers below the environment give never names a variable. -/
theorem source_ne_envVar {T : Tiers} {p : Param} (hc : T.cli.get p = none)
    (he : T.env.get p = none) {r : Resolved p.Result} (h : T.highest p = some r) (name : String) :
    r.source ≠ .envVar name := by
  have hlow : (T.fileSays p <|> T.profileSays p <|> Tiers.builtinSays p) = some r := by
    simpa [Tiers.highest, Tiers.cliSays, Tiers.envSays, hc, he] using h
  rcases (Option.orElse_eq_some _ _ _).mp hlow with hf | ⟨-,hlow⟩
  · obtain ⟨f,-,hf⟩ := Option.bind_eq_some_iff.mp hf
    obtain ⟨v,-,rfl⟩ := Option.map_eq_some_iff.mp hf
    simp
  · cases p with
    | topology k | mode k =>
      obtain rfl := Option.some.inj hlow
      simp
    | free k =>
      obtain ⟨v,-,rfl⟩ := Option.map_eq_some_iff.mp hlow
      simp

section Complete
variable {get : String → Option String} {p : Param} {value : String}

theorem EnvDecides.mem_readOrder (hs : get p.envVar = some value) (h : EnvDecides get p value) :
    p ∈ readOrder ∧ ∀ q, firstMalformed get = some q → q = p := by
  cases hm : firstMalformed get with
  | some q =>
    obtain ⟨value',hv,hr⟩ := overridesFromVars_error hm
    rcases h with h | ⟨env,x,h,-⟩
    · rw [hr] at h
      injection h with h
      injection h with hn
      obtain rfl := Param.envVar_injective hn
      exact ⟨List.mem_of_find?_eq_some hm,fun q' hq => (Option.some.inj hq).symm⟩
    · rw [hr] at h
      cases h
  | none =>
    have hok := overridesFromVars_ok hm
    rcases h with h | ⟨env,x,h,-,hres⟩
    · rw [hok] at h
      cases h
    · rw [hok] at h
      obtain rfl := Except.ok.inj h
      refine ⟨?_,fun q hq => by cases hq⟩
      by_contra hp
      rw [mem_readOrder_iff, ← Option.ne_none_iff_exists', not_not] at hp
      let T : Tiers := ⟨.builtin .crossDevice,.builtin .research,none,.ofGet (heard get),{}⟩
      have hc : T.cli.get p = none := by rcases p with k | k | k <;> cases k <;> rfl
      have he : T.env.get p = none := by simp [T, heard, hp]
      have ha : T.highest p = some ⟨p.lift x,.envVar p.envVar⟩ :=
        (T.resolve_at p).symm.trans (hres _ _ _ _ hc)
      exact source_ne_envVar hc he ha _ rfl

theorem heard_ne_none (hs : get p.envVar = some value) (hp : p ∈ readOrder)
    (hm : firstMalformed get = none) : heard get p ≠ none := by
  obtain ⟨f,hf⟩ := (mem_readOrder_iff p).mp hp
  have hall : malformed get p = false := by
    have h := List.find?_eq_none.mp hm p hp
    simpa using h
  intro hn
  simp only [heard, hf, hs] at hn
  simp [malformed, hf, hs, hn] at hall

theorem envDecides_of_mem (hs : get p.envVar = some value) (hp : p ∈ readOrder)
    (hq : ∀ q, firstMalformed get = some q → q = p) : EnvDecides get p value := by
  cases hm : firstMalformed get with
  | some q =>
    obtain rfl := hq q hm
    obtain ⟨value',hv,hr⟩ := overridesFromVars_error hm
    obtain rfl : value' = value := Option.some.inj (hv.symm.trans hs)
    exact .inl hr
  | none =>
    obtain ⟨x,hx⟩ := Option.ne_none_iff_exists'.mp (heard_ne_none hs hp hm)
    refine .inr ⟨_,x,overridesFromVars_ok hm,fun f hf => ?_,fun t m file cli hc => ?_⟩
    · simpa [heard, hf, hs] using hx
    · have h := Tiers.resolve_at ⟨t,m,file,.ofGet (heard get),cli⟩ p
      refine h.trans ?_
      simp [Tiers.highest, Tiers.cliSays, Tiers.envSays, hc, hx]

/-- A set variable is passed over in silence exactly when the reader does not look it up and
nothing it does look up is malformed. -/
theorem ignored_iff (hs : get p.envVar = some value) :
    (∃ env, overridesFromVars get = .ok env ∧ env.get p = none) ↔
      p ∉ readOrder ∧ firstMalformed get = none := by
  cases hm : firstMalformed get with
  | some q =>
    obtain ⟨value',-,hr⟩ := overridesFromVars_error hm
    simp [hr]
  | none =>
    rw [overridesFromVars_ok hm]
    constructor
    · rintro ⟨env,he,hp⟩
      obtain rfl := Except.ok.inj he
      rw [Overrides.get_ofGet] at hp
      exact ⟨fun hmem => heard_ne_none hs hmem hm hp,rfl⟩
    · rintro ⟨hp,-⟩
      rw [mem_readOrder_iff, ← Option.ne_none_iff_exists', not_not] at hp
      exact ⟨_,rfl,by simp [heard, hp]⟩

/-- A set variable decides its parameter exactly when the reader looks it up and no other
variable fails before it. -/
theorem envDecides_iff (get : String → Option String) (p : Param) (value : String)
    (hs : get p.envVar = some value) :
    (EnvDecides get p value ↔ p ∈ readOrder ∧ ∀ q, firstMalformed get = some q → q = p) ∧
    ((∃ env, overridesFromVars get = .ok env ∧ env.get p = none) ↔
      p ∉ readOrder ∧ firstMalformed get = none) :=
  ⟨⟨EnvDecides.mem_readOrder hs,fun h => envDecides_of_mem hs h.1 h.2⟩,ignored_iff hs⟩

end Complete

/-- One variable is set. -/
def onlyVar (name value : String) (name' : String) : Option String :=
  if name' = name then some value else none

theorem envDecides_quorum : onlyVar "CONFLUX_QUORUM" "7" (Param.free .quorum).envVar = some "7" ∧
    EnvDecides (onlyVar "CONFLUX_QUORUM" "7") (.free .quorum) "7" := by
  have hs : onlyVar "CONFLUX_QUORUM" "7" (Param.free .quorum).envVar = some "7" := by decide
  have hm : firstMalformed (onlyVar "CONFLUX_QUORUM" "7") = none := by decide +kernel
  have h := (envDecides_iff (onlyVar "CONFLUX_QUORUM" "7") (.free .quorum) "7" hs).1
  exact ⟨hs,h.mpr ⟨by decide,fun q hq => by rw [hm] at hq; cases hq⟩⟩

/-- Node authentication asked for by its variable alone is not turned on, and nothing says so. -/
theorem requireNodeAuth_ignored :
    (∃ env, overridesFromVars (onlyVar "CONFLUX_REQUIRE_NODE_AUTH" "true") = .ok env ∧
      (resolve .crossDevice .research none env {}).requireNodeAuth =
        ⟨false,.modeProfile "research"⟩) ∧
    ¬ ∀ get p value, get (Param.envVar p) = some value → EnvDecides get p value := by
  have hm : firstMalformed (onlyVar "CONFLUX_REQUIRE_NODE_AUTH" "true") = none := by
    decide +kernel
  refine ⟨⟨_,overridesFromVars_ok hm,rfl⟩,fun h => ?_⟩
  have hs : onlyVar "CONFLUX_REQUIRE_NODE_AUTH" "true" (Param.mode .requireNodeAuth).envVar =
    some "true" := by decide
  have hmem := (EnvDecides.mem_readOrder hs (h _ (.mode .requireNodeAuth) "true" hs)).1
  exact absurd hmem (by decide)

end ConfluxFL
