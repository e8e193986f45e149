import ConfluxFL.Config.Params
import ConfluxFL.Lib.NumberText

/-! The startup log: a line for each resolved parameter with its value and the tier it comes
from, aligned for a reader or as a JSON object. The object is put together by hand around texts
that `Debug` has quoted, so it is JSON only where the two grammars agree. -/
namespace ConfluxFL
open DebugText (Tables quote)
open Json (Reads Shared)

def ConnectionMode.asStr : ConnectionMode → String
  | push => "push"
  | pull => "pull"

def AuthMode.asStr : AuthMode → String
  | mtls => "mtls"
  | jwt => "jwt"

def SeedMode.asStr : SeedMode → String
  | fixed => "fixed"
  | osRandom => "os_random"

def BudgetExhaustedAction.asStr : BudgetExhaustedAction → String
  | halt => "halt"
  | continueWithoutGuarantee => "continue_without_guarantee"

def AccountingScope.asStr : AccountingScope → String
  | global => "global"
  | perClient => "per_client"

def LogFormat.asStr : LogFormat → String
  | json => "json"
  | text => "text"

def RoundLogDetail.asStr : RoundLogDetail → String
  | quiet => "quiet"
  | changes => "changes"
  | every => "every"

namespace ConfigSource

def tag : ConfigSource → String
  | cli => "cli"
  | envVar _ => "env_var"
  | experimentFile _ => "experiment_file"
  | modeProfile _ => "mode_profile"
  | topologyProfile _ => "topology_profile"
  | builtinFallback => "builtin_fallback"

/-- Which variable, file or profile. -/
def jsonQualifier : ConfigSource → Option (String × String)
  | cli => none
  | builtinFallback => none
  | envVar name => some ("var",name)
  | experimentFile path => some ("file",path)
  | modeProfile name => some ("profile",name)
  | topologyProfile name => some ("profile",name)

def textPhrase (T : Tables) : ConfigSource → String
  | cli => "cli"
  | envVar name => "env var "++name
  | experimentFile path => "experiment file "++quote T path
  | modeProfile name => "mode profile "++quote T name
  | topologyProfile name => "topology profile "++quote T name
  | builtinFallback => "built-in fallback"

end ConfigSource

/-- A value ready to print: numbers and truth values bare, texts quoted in JSON. -/
inductive LoggedValue
  | number (s : String)
  | text (s : String)

def LoggedValue.json (T : Tables) : LoggedValue → String
  | number s => s
  | text s => quote T s

def LoggedValue.plain : LoggedValue → String
  | number s => s
  | text s => s

/-- The text with blanks up to the width. -/
def padded (width : ℕ) (s : String) : String :=
  s++String.ofList (List.replicate (width-s.length) ' ')

def logLine (T : Tables) (format : LogFormat) (param : String) (value : LoggedValue)
    (source : ConfigSource) : String :=
  match format with
  | .json =>
    let line := "\x7b\"param\":\""++param++"\",\"value\":"++value.json T++",\"source\":\""++
      source.tag++"\""
    let line := match source.jsonQualifier with
      | some (key,val) => line++",\""++key++"\":"++quote T val
      | none => line
    line++"\x7d"
  | .text => "[config] "++padded 24 param++" = "++value.plain++"  (source: "++
      source.textPhrase T++")"

example : logLine DebugText.marks .json "round_timeout_secs" (.number "300")
      (.topologyProfile "cross_device") =
    "\x7b\"param\":\"round_timeout_secs\",\"value\":300,\"source\":\"topology_profile\","++
      "\"profile\":\"cross_device\"\x7d" := by decide +kernel

/-! How the values of each type are logged, and what a reader of JSON takes them for. -/

/-- A type whose values are logged. The text of a value is JSON of that value, or no JSON. -/
class Logged (α : Type) where
  logged : α → LoggedValue
  ofJson : Json.Value → Option α
  /-- The text is JSON. -/
  Survives : Tables → α → Prop
  json : ∀ T x, ∃ v, Reads ((logged x).json T).toList v ∧
    (Survives T x → v.bind ofJson = some x) ∧ (¬Survives T x → v = none)

open Logged

instance : Logged ℕ where
  logged n := .number (toString n)
  ofJson
    | .number text => Decimal.digits text.toList
    | _ => none
  Survives _ _ := True
  json := fun _ n => by
    refine ⟨_,Json.reads_toString n,fun _ => ?_,fun h => absurd trivial h⟩
    simp only [Option.bind_some, Decimal.toList_toString, Decimal.digits_toDigits]

/-- A parameter without a value is not applicable. -/
instance : Logged (Option ℕ) where
  logged
    | some n => .number (toString n)
    | none => .text "n/a"
  ofJson
    | .number text => (Decimal.digits text.toList).map some
    | .string s => if s = "n/a" then some none else none
    | _ => none
  Survives _ _ := True
  json := fun T x => by
    cases x with
    | some n =>
      refine ⟨_,Json.reads_toString n,fun _ => ?_,fun h => absurd trivial h⟩
      simp only [Option.bind_some, Decimal.toList_toString, Decimal.digits_toDigits,
        Option.map_some]
    | none =>
      have hshared := Json.shared_of_ascii T (s := "n/a") (by decide)
      refine ⟨_,Json.reads_quoted T "n/a",fun _ => ?_,fun h => absurd trivial h⟩
      rw [if_pos hshared]
      rfl

instance : Logged Bool where
  logged b := .number (toString b)
  ofJson
    | .bool b => some b
    | _ => none
  Survives _ _ := True
  json := fun _ b => by
    refine ⟨some (.bool b),?_,fun _ => rfl,fun h => absurd trivial h⟩
    cases b with
    | true =>
      exact Json.reads_scalar "true".toList (by decide) (List.all_eq_true.mp (by decide))
    | false =>
      exact Json.reads_scalar "false".toList (by decide) (List.all_eq_true.mp (by decide))

instance : Logged String where
  logged s := .text s
  ofJson
    | .string s => some s
    | _ => none
  Survives T s := Shared T s
  json := fun T s => by
    refine ⟨_,Json.reads_quoted T s,fun h => ?_,fun h => if_neg h⟩
    rw [if_pos h, Option.bind_some]

instance : Logged F32 where
  logged x := .number x.display
  ofJson
    | .number text => F32.parse text
    | _ => none
  Survives _ x := x.isFinite = true
  json := fun _ x => by
    have hreads := F32.reads_display x
    cases h : x.isFinite with
    | true =>
      rw [h] at hreads
      exact ⟨_,hreads,fun _ => F32.parse_display_of_isFinite h,fun hnot => absurd rfl hnot⟩
    | false =>
      rw [h] at hreads
      exact ⟨_,hreads,nofun,fun _ => rfl⟩

instance : Logged F64 where
  logged x := .number x.display
  ofJson
    | .number text => F64.parse text
    | _ => none
  Survives _ x := x.isFinite = true
  json := fun _ x => by
    have hreads := F64.reads_display x
    cases h : x.isFinite with
    | true =>
      rw [h] at hreads
      exact ⟨_,hreads,fun _ => F64.parse_display_of_isFinite h,fun hnot => absurd rfl hnot⟩
    | false =>
      rw [h] at hreads
      exact ⟨_,hreads,nofun,fun _ => rfl⟩

/-- An enumeration is logged as the text that a file spells it with. -/
abbrev Logged.ofNames {α : Type} (asStr : α → String) (all : List α)
    (hfind : ∀ a, (all.find? fun b => asStr b = asStr a) = some a)
    (hascii : ∀ a, Json.isAscii (asStr a) = true) : Logged α where
  logged a := .text (asStr a)
  ofJson
    | .string s => all.find? fun a => asStr a = s
    | _ => none
  Survives _ _ := True
  json := fun T a => by
    refine ⟨_,Json.reads_quoted T (asStr a),fun _ => ?_,fun h => absurd trivial h⟩
    rw [if_pos (Json.shared_of_ascii T (hascii a)), Option.bind_some]
    exact hfind a

instance : Logged ConnectionMode :=
  .ofNames ConnectionMode.asStr [.push,.pull] (by rintro ⟨⟩ <;> rfl) (by rintro ⟨⟩ <;> decide)

instance : Logged AuthMode :=
  .ofNames AuthMode.asStr [.mtls,.jwt] (by rintro ⟨⟩ <;> rfl) (by rintro ⟨⟩ <;> decide)

instance : Logged SeedMode :=
  .ofNames SeedMode.asStr [.fixed,.osRandom] (by rintro ⟨⟩ <;> rfl) (by rintro ⟨⟩ <;> decide)

instance : Logged BudgetExhaustedAction :=
  .ofNames BudgetExhaustedAction.asStr [.halt,.continueWithoutGuarantee]
    (by rintro ⟨⟩ <;> rfl) (by rintro ⟨⟩ <;> decide)

instance : Logged AccountingScope :=
  .ofNames AccountingScope.asStr [.global,.perClient]
    (by rintro ⟨⟩ <;> rfl) (by rintro ⟨⟩ <;> decide)

instance : Logged LogFormat :=
  .ofNames LogFormat.asStr [.json,.text] (by rintro ⟨⟩ <;> rfl) (by rintro ⟨⟩ <;> decide)

instance : Logged RoundLogDetail :=
  .ofNames RoundLogDetail.asStr [.quiet,.changes,.every]
    (by rintro ⟨⟩ <;> rfl) (by rintro ⟨⟩ <;> decide)

instance : (k : TopologyKey) → Logged k.Value
  | .connectionMode => inferInstanceAs (Logged ConnectionMode)
  | .auth => inferInstanceAs (Logged AuthMode)
  | .minReputationScore => inferInstanceAs (Logged F32)
  | .roundTimeoutSecs | .clientRegistryTtl => inferInstanceAs (Logged ℕ)

instance : (k : ModeKey) → Logged k.Result
  | .seedMode => inferInstanceAs (Logged SeedMode)
  | .seedValue => inferInstanceAs (Logged (Option ℕ))
  | .budgetExhaustedAction => inferInstanceAs (Logged BudgetExhaustedAction)
  | .accountingScope => inferInstanceAs (Logged AccountingScope)
  | .allowStubClient | .requireNodeAuth => inferInstanceAs (Logged Bool)
  | .configLogFormat => inferInstanceAs (Logged LogFormat)

instance : (k : FreeKey) → Logged k.Value
  | .quorum | .maxUpdateBytes | .scaffoldNumClients | .roundHistoryLen =>
    inferInstanceAs (Logged ℕ)
  | .selector | .aggregator | .privacyMechanism => inferInstanceAs (Logged String)
  | .robustByzantineFraction | .clipRadius | .serverLearningRate | .serverTau | .serverMomentum
  | .fairnessQ | .zenoRho | .serverLipschitz | .clipNorm | .noiseMultiplier =>
    inferInstanceAs (Logged F32)
  | .targetEpsilon | .delta => inferInstanceAs (Logged F64)
  | .reputationFilterEnabled | .clientSidePrivacyTransform => inferInstanceAs (Logged Bool)
  | .roundLogDetail => inferInstanceAs (Logged RoundLogDetail)

instance : (p : Param) → Logged p.Result
  | .topology k => inferInstanceAs (Logged k.Value)
  | .mode k => inferInstanceAs (Logged k.Result)
  | .free k => inferInstanceAs (Logged k.Value)

/-- In the order the lines are pushed. -/
def logOrder : List Param :=
  [.topology .connectionMode,.topology .auth,.topology .roundTimeoutSecs,
    .topology .minReputationScore,.topology .clientRegistryTtl,.free .maxUpdateBytes,
    .free .quorum,.free .selector,.mode .seedMode,.mode .seedValue,.free .aggregator,
    .free .robustByzantineFraction,.free .clipRadius,.free .serverLearningRate,.free .serverTau,
    .free .serverMomentum,.free .fairnessQ,.free .scaffoldNumClients,.free .zenoRho,
    .free .serverLipschitz,.free .reputationFilterEnabled,.free .clientSidePrivacyTransform,
    .free .privacyMechanism,.free .clipNorm,.free .noiseMultiplier,.free .targetEpsilon,
    .free .delta,.mode .budgetExhaustedAction,.mode .accountingScope,.mode .allowStubClient,
    .mode .requireNodeAuth,.mode .configLogFormat,.free .roundLogDetail,.free .roundHistoryLen]

theorem mem_logOrder (p : Param) : p ∈ logOrder := by
  rcases p with k | k | k <;> cases k <;> decide

variable (T : Tables)

/-- The line of one parameter. -/
def ResolvedConfig.logLineOf (format : LogFormat) (p : Param) (r : Resolved p.Result) : String :=
  logLine T format p.name (logged r.value) r.source

/-- One line for each parameter that has been resolved; only a quorum can be missing. -/
def ResolvedConfig.toLogLines (c : ResolvedConfig) (format : LogFormat) : List String :=
  logOrder.filterMap fun p => (c.at p).map (logLineOf T format p)

/-! When the lines are JSON. -/

theorem isBare_name (p : Param) : ∀ c ∈ p.name.toList, Json.Bare c := by
  have hall : (Param.all.all fun p => p.name.toList.all fun c => Json.Bare c) = true := by
    decide +kernel
  intro c hc
  exact of_decide_eq_true
    (List.all_eq_true.mp (List.all_eq_true.mp hall p (Param.mem_all p)) c hc)

theorem isBare_of_all {s : String} (h : (s.toList.all fun c => Json.Bare c) = true) :
    ∀ c ∈ s.toList, Json.Bare c :=
  fun c hc => of_decide_eq_true (List.all_eq_true.mp h c hc)

theorem ConfigSource.isBare_tag (source : ConfigSource) : ∀ c ∈ source.tag.toList, Json.Bare c := by
  apply isBare_of_all
  cases source <;>
    · rw [tag]
      decide

theorem ConfigSource.isBare_key {source : ConfigSource} {key name : String}
    (h : source.jsonQualifier = some (key,name)) : ∀ c ∈ key.toList, Json.Bare c := by
  apply isBare_of_all
  cases source <;> cases h <;> rfl

/-- The members of a line's object, before a reader has looked at the texts. -/
def lineParts (p : Param) (source : ConfigSource) {text : List Char} {v : Option Json.Value}
    (h : Reads text v) : List Json.Part :=
  [⟨"param",_,_,isBare_of_all (by decide),Json.reads_bare (isBare_name p)⟩,
    ⟨"value",text,v,isBare_of_all (by decide),h⟩,
    ⟨"source",_,_,isBare_of_all (by decide),Json.reads_bare source.isBare_tag⟩]

/-- A line is read as an object just where its value and what its tier is called are read. -/
theorem parse_logLine (p : Param) (value : LoggedValue) (source : ConfigSource)
    {v : Option Json.Value} (h : Reads (value.json T).toList v) :
    Json.parse (logLine T .json p.name value source) = v.bind fun v =>
      match source.jsonQualifier with
      | some (key,name) =>
        if Shared T name then some (.object [("param",.string p.name),("value",v),
          ("source",.string source.tag),(key,.string name)]) else none
      | none => some (.object [("param",.string p.name),("value",v),
          ("source",.string source.tag)]) := by
  cases hqualifier : source.jsonQualifier with
  | none =>
    have htext : logLine T .json p.name value source =
        String.ofList ('\x7b'::(Json.writeAll (lineParts p source h)++['\x7d'])) := by
      apply String.toList_injective
      simp [logLine, hqualifier, lineParts, Json.writeAll, Json.Part.write]
    rw [htext, Json.parse_writeAll (by exact List.cons_ne_nil _ _)]
    cases v <;> rfl
  | some q =>
    obtain ⟨key,name⟩ := q
    have hkey := ConfigSource.isBare_key hqualifier
    have htext : logLine T .json p.name value source = String.ofList ('\x7b'::(Json.writeAll
        (lineParts p source h++[⟨key,_,_,hkey,Json.reads_quoted T name⟩])++['\x7d'])) := by
      apply String.toList_injective
      simp [logLine, hqualifier, lineParts, Json.writeAll, Json.Part.write]
    rw [htext, Json.parse_writeAll (by exact List.cons_ne_nil _ _)]
    cases v with
    | none => rfl
    | some v =>
      by_cases hname : Shared T name
      · simp [lineParts, Json.Part.member, hname]
      · simp [lineParts, Json.Part.member, hname]

/-- The line is the object of the parameter, its value, the tier and what the tier is called. -/
def Says (line : String) (p : Param) (r : Resolved p.Result) : Prop :=
  ∃ v, ofJson v = some r.value ∧ Json.parse line = some (.object
    ([("param",.string p.name),("value",v),("source",.string r.source.tag)]++
      (r.source.jsonQualifier.map fun (key,name) => (key,.string name)).toList))

/-- Both texts of a line are written as JSON reads them. -/
def Portable (p : Param) (r : Resolved p.Result) : Prop :=
  Survives T r.value ∧ ∀ key name, r.source.jsonQualifier = some (key,name) → Shared T name

theorem says_logLineOf {p : Param} {r : Resolved p.Result} (h : Portable T p r) :
    Says (ResolvedConfig.logLineOf T .json p r) p r := by
  obtain ⟨v,hreads,hvalue,-⟩ := Logged.json T r.value
  have hread := hvalue h.1
  obtain ⟨j,rfl⟩ : ∃ j, v = some j := by
    cases v with
    | none => cases hread
    | some j => exact ⟨j,rfl⟩
  refine ⟨j,hread,?_⟩
  rw [ResolvedConfig.logLineOf, parse_logLine T p _ r.source hreads, Option.bind_some]
  cases hqualifier : r.source.jsonQualifier with
  | none => rfl
  | some q =>
    obtain ⟨key,name⟩ := q
    exact if_pos (h.2 key name hqualifier)

/-- Where either text is not, the line is no JSON at all. -/
theorem parse_logLineOf_eq_none {p : Param} {r : Resolved p.Result} (h : ¬Portable T p r) :
    Json.parse (ResolvedConfig.logLineOf T .json p r) = none := by
  obtain ⟨v,hreads,-,hnone⟩ := Logged.json T r.value
  rw [ResolvedConfig.logLineOf, parse_logLine T p _ r.source hreads]
  by_cases hvalue : Survives T r.value
  · obtain ⟨key,name,hqualifier,hname⟩ :
        ∃ key name, r.source.jsonQualifier = some (key,name) ∧ ¬Shared T name := by
      by_contra hall
      exact h ⟨hvalue,fun key name hq => by_contra fun hname => hall ⟨key,name,hq,hname⟩⟩
    cases v with
    | none => rfl
    | some v => simp [hqualifier, hname]
  · rw [hnone hvalue, Option.bind_none]

namespace ResolvedConfig
variable (c : ResolvedConfig)

/-- Every line is JSON and says its parameter. -/
def LinesAreJson : Prop :=
  ∀ line ∈ c.toLogLines T .json, ∃ p r, c.at p = some r ∧ Says line p r

variable {c}

theorem mem_toLogLines_iff {format : LogFormat} {line : String} :
    line ∈ c.toLogLines T format ↔ ∃ p r, c.at p = some r ∧ logLineOf T format p r = line := by
  simp only [toLogLines, List.mem_filterMap, Option.map_eq_some_iff]
  constructor
  · rintro ⟨p,-,r,hr,hline⟩
    exact ⟨p,r,hr,hline⟩
  · rintro ⟨p,r,hr,hline⟩
    exact ⟨p,mem_logOrder p,r,hr,hline⟩

/-- The log is JSON just where no text in it needs an escape that JSON lacks, and every number
is finite. -/
theorem linesAreJson_iff :
    c.LinesAreJson T ↔ ∀ p r, c.at p = some r → Portable T p r := by
  constructor
  · intro h p r hr
    by_contra hnot
    obtain ⟨p',r',-,v,-,hparse⟩ := h _ ((mem_toLogLines_iff T).mpr ⟨p,r,hr,rfl⟩)
    rw [parse_logLineOf_eq_none T hnot] at hparse
    cases hparse
  · intro h line hline
    obtain ⟨p,r,hr,rfl⟩ := (mem_toLogLines_iff T).mp hline
    exact ⟨p,r,hr,says_logLineOf T (h p r hr)⟩

/-- A configuration of defaults but for the round timeout, which a file sets whose name is
written with a combining accent. -/
def accented : ResolvedConfig :=
  { ofDefaults .crossDevice .production with
    roundTimeoutSecs := ⟨60,.experimentFile "e\u0301tude.toml"⟩ }

/-- The accent is written by its code, in braces. -/
theorem not_linesAreJson_accented : ¬accented.LinesAreJson DebugText.marks := by
  intro h
  have hnot : ¬Portable DebugText.marks (.topology .roundTimeoutSecs)
      accented.roundTimeoutSecs := by
    intro hportable
    exact absurd (hportable.2 "file" "e\u0301tude.toml" rfl) (by decide)
  have hmem : logLineOf DebugText.marks .json (.topology .roundTimeoutSecs)
      accented.roundTimeoutSecs ∈ accented.toLogLines DebugText.marks .json :=
    (mem_toLogLines_iff _).mpr ⟨.topology .roundTimeoutSecs,accented.roundTimeoutSecs,rfl,rfl⟩
  obtain ⟨p,r,-,v,-,hparse⟩ := h _ hmem
  rw [parse_logLineOf_eq_none _ hnot] at hparse
  cases hparse

end ResolvedConfig
end ConfluxFL
