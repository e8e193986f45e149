import ConfluxFL.Server.Startup

/-! `cflux doctor`: what the server checks at its start, asked of the same environment without
starting anything; and when a report without a failure means that the server does start. -/
namespace ConfluxFL
open Fallible SocketText

/-- The flags that select a configuration. -/
structure Selection where
  topology : Option String := none
  mode : Option String := none
  configFile : Option OsString := none
  profileDir : Option OsString := none

inductive CliError
  | profile (e : ProfileError)
  | env (e : EnvError)
  | configFile (message : String)
  | serverEnv (e : ServerEnvError)

inductive ProfileAxis | topology | mode
  deriving DecidableEq, Repr

/-- The profiles of a directory that were not read; those of no axis come with their problem. -/
structure UnselectedProfiles where
  topology : List String := []
  mode : List String := []
  unusable : List (String × String) := []

def UnselectedProfiles.isEmpty (found : UnselectedProfiles) : Bool :=
  found.topology.isEmpty && found.mode.isEmpty && found.unusable.isEmpty

section Unselected
variable {τ : Type} [TomlValue τ] (dir : ProfileDir τ)

def declaresInherits (name : String) : Bool :=
  match dir.find name with
  | some (.table rows) => (rows.lookup "inherits").isSome
  | _ => false

/-- The axis a file loads on, or why it loads on neither. -/
def classify (name : String) : Except String ProfileAxis :=
  match topologyAxis.loadProfile dir name with
  | .ok _ => .ok .topology
  | .error (.notFound _ _ _ _ _) =>
    match modeAxis.loadProfile dir name with
    | .ok _ => .ok .mode
    | .error (.notFound _ _ _ _ _) => .error
        ("declares `inherits`, but the chain reaches neither a topology builtin nor a mode one " ++
          "— check what it inherits from")
    | .error e => .error e.message
  | .error e => .error e.message

/-- An axis is reported on when nothing selected it. -/
def unselectedProfiles (topologySelected modeSelected : Option String) : UnselectedProfiles :=
  if topologySelected.isSome ∧ modeSelected.isSome then {}
  else
    let names := (dir.listed.getD []).mergeSort fun a b => !(b < a)
    (names.filter (declaresInherits dir)).foldl (fun found name =>
      match classify dir name with
      | .ok .topology =>
        if topologySelected.isNone then { found with topology := found.topology++[name] } else found
      | .ok .mode =>
        if modeSelected.isNone then { found with mode := found.mode++[name] } else found
      | .error problem => { found with unusable := found.unusable++[(name,problem)] }) {}

end Unselected

/-- A configuration with the chains that produced it and what is wrong with it. -/
structure Resolution where
  config : ResolvedConfig
  topologyChain : List String
  modeChain : List String
  profileDir : OsString
  unselected : UnselectedProfiles
  validation : Validation

inductive CheckStatus | pass | fail | warn | skip
  deriving DecidableEq, Repr

structure Check where
  name : String
  status : CheckStatus
  deriving DecidableEq, Repr

def splitOnce (sep : List Char) : List Char → Option (List Char × List Char)
  | [] => none
  | c::cs =>
    match sep.isPrefixOf? (c::cs) with
    | some rest => some ([],rest)
    | none => (splitOnce sep cs).map fun r => (c::r.1,r.2)

def rsplitOnce (sep : Char) (s : List Char) : Option (List Char × List Char) :=
  (splitOnce [sep] s.reverse).map fun r => (r.2.reverse,r.1.reverse)

def parsePort (s : List Char) : Option ℕ :=
  (Decimal.parseU64 (String.ofList s)).filter fun n => n < 2^16

/-- The host and port of a connection string: its authority, less what stands before an `@`. -/
def hostPort (url : String) (defaultPort : ℕ) : Option (String × ℕ) :=
  let authority := ((splitOnce "://".toList url.toList).map Prod.snd).getD url.toList
  let authority := authority.takeWhile fun c => c ≠ '/' ∧ c ≠ '?'
  match ((rsplitOnce '@' authority).map Prod.snd).getD authority with
  | [] => none
  -- the colons of an IPv6 literal are no separators
  | '['::rest => do
    let (host,tail) ← splitOnce [']'] rest
    let port ← match tail with
      | ':'::port => parsePort port
      | _ => some defaultPort
    return (String.ofList host,port)
  | authority =>
    match rsplitOnce ':' authority with
    | some (host,port) => (parsePort port).map fun port => (String.ofList host,port)
    | none => some (String.ofList authority,defaultPort)

example : ["redis://localhost:16379","postgres://user:pw@db.internal:15432/conflux",
    "redis://[::1]","redis://host:not-a-port",""].map (hostPort · 6379) =
    [some ("localhost",16379),some ("db.internal",15432),some ("::1",6379),none,none] := by
  decide +kernel

namespace Machine
variable {τ : Type} (m : Machine τ)

/-- The file tier, under the path as it is displayed. -/
def loadConfig : Option OsString → Except CliError (Option (String × Overrides))
  | none => .ok none
  | some path =>
    ((m.experimentFile path).map fun o => some (path.display,o)).mapError .configFile

/-- The configuration a selection resolves to: flags first, then the environment. -/
def resolve [TomlValue τ] (sel : Selection) : Except CliError Resolution := do
  let profileDir := (sel.profileDir <|> m.varOs "CONFLUX_PROFILE_DIR").getD (.text "profiles")
  let topologyName := sel.topology <|> m.var "CONFLUX_TOPOLOGY"
  let modeName := sel.mode <|> m.var "CONFLUX_MODE"
  let topology ← (topologyProfileNamed (m.profileDir profileDir) topologyName).mapError .profile
  let mode ← (modeProfileNamed (m.profileDir profileDir) modeName).mapError .profile
  let file ← m.loadConfig (sel.configFile <|> m.varOs "CONFLUX_EXPERIMENT_CONFIG_PATH")
  let env ← (overridesFromVars m.var).mapError .env
  let config := resolveWithProfiles topology mode file env {}
  return {
    config := config
    topologyChain := topology.chain
    modeChain := mode.chain
    profileDir := profileDir
    unselected := unselectedProfiles (m.profileDir profileDir) topologyName modeName
    validation := config.validateWithNames }

/-- Whether something accepts a connection where a connection string points. -/
def probe (name url : String) (defaultPort : ℕ) : Check :=
  match hostPort url defaultPort with
  | none => ⟨name,.fail⟩
  | some (host,port) => ⟨name,if m.accepts host port then .pass else .fail⟩

def registryProbe : RegistryBackend → Check
  | .memory => ⟨"redis",.skip⟩
  | .redis url => m.probe "redis" url 6379

def storeProbe : StoreBackend → Check
  | .memory => ⟨"store",.skip⟩
  | .postgres url => m.probe "postgres" url 5432
  | .s3 endpoint _ _ _ => m.probe "s3" endpoint 443

def accountingProbe : AccountingBackend → Check
  | .disabled => ⟨"accounting",.skip⟩
  | .postgres url => m.probe "accounting" url 5432

def probes (b : BackendSelection) : List Check :=
  [m.registryProbe b.registry,m.storeProbe b.store,m.accountingProbe b.accounting]

/-- Which of the three path variables are set. -/
def tlsPathsPresent : List (String × Bool) :=
  ["CONFLUX_TLS_CERT_PATH","CONFLUX_TLS_KEY_PATH","CONFLUX_TLS_CLIENT_CA_PATH"].map fun var =>
    (var,(m.var var).isSome)

/-- A set with gaps is legal. -/
def tlsMaterialCheck : List Check :=
  let present := m.tlsPathsPresent
  let set := (present.filter Prod.snd).length
  if 0 < set ∧ set < present.length then [⟨"tls material",.warn⟩] else []

def tlsCheck (mode : Mode) (auth : AuthMode) (material : Option TlsMaterial) : Check :=
  match resolveServerTls mode auth material with
  | .ok (some _) => ⟨"tls",.pass⟩
  | .ok none => ⟨"tls",if auth = .mtls then .warn else .skip⟩
  | .error _ => ⟨"tls",.fail⟩

def jwtCheck (mode : Mode) (auth : AuthMode) (key : Option JwtKeyMaterial) : Check :=
  match validateJwtStartup mode auth key with
  | .ok () => ⟨"jwt key",if auth ≠ .jwt then .skip else if key.isSome then .pass else .warn⟩
  | .error _ => ⟨"jwt key",.fail⟩

/-- What the built aggregator needs; a name nothing builds is another check's finding. -/
def sidecarNeeds (name : String) : Bool × Bool :=
  match (buildAggregator name ⟨⟨0x3e4ccccd⟩,F32.one,none,none,none,none,none,none,none⟩).map
    AnyAggregator.needs with
  | .ok needs => needs
  | .error _ => (false,false)

def sidecarCheck (needsReference needsScores : Bool) : Check :=
  if !needsReference && !needsScores then
    ⟨"sidecar",if m.trustedReferenceAddr.isSome then .warn else .skip⟩
  else
    match m.trustedReferenceAddr with
    | none => ⟨"sidecar",.fail⟩
    | some addr =>
      match m.describe addr with
      | .error _ => ⟨"sidecar",.fail⟩
      | .ok capabilities =>
        if (needsReference && !capabilities.supportsReferenceUpdate) ||
            (needsScores && !capabilities.supportsScoring) then ⟨"sidecar",.fail⟩
        else ⟨"sidecar",.pass⟩

def configurationCheck (validation : Validation) : Check :=
  ⟨"configuration",if !validation.errors.isEmpty then .fail
    else if !validation.warnings.isEmpty then .warn else .pass⟩

def profilesCheck (unselected : UnselectedProfiles) : Check :=
  ⟨"profiles",if unselected.isEmpty then .pass else .warn⟩

def backendsCheck (mode : Mode) (b : BackendSelection) : Check :=
  match validateProductionBackends mode b with
  | .ok () => ⟨"backends",.pass⟩
  | .error _ => ⟨"backends",.fail⟩

/-- `run`: the list of checks, unless something that they read is itself an error. -/
def doctor [TomlValue τ] (sel : Selection) : Except CliError (List Check) := do
  let r ← m.resolve sel
  let mode := r.config.mode
  let auth := r.config.auth.value
  let backends ← (backendSelectionFromVars m.var).mapError .serverEnv
  let material ← m.tlsMaterialFromEnv.mapError .serverEnv
  let key ← m.jwtKeyFromEnv.mapError .serverEnv
  let needs := sidecarNeeds r.config.aggregator.value
  return [configurationCheck r.validation,profilesCheck r.unselected,backendsCheck mode backends] ++
    m.probes backends ++ m.tlsMaterialCheck ++
    [tlsCheck mode auth material,jwtCheck mode auth key,m.sidecarCheck needs.1 needs.2]

/-- The report counts no failed check; the command exits with zero. -/
def reportsOk : Except CliError (List Check) → Bool
  | .ok checks => checks.all fun c => c.status ≠ .fail
  | .error _ => false

/-- A clean doctor, without flags. -/
def Clean [TomlValue τ] : Prop := reportsOk (m.doctor {}) = true

/-- The environment as `std::env::var` shows it: a variable that is no text is not there. -/
def readable : Machine τ := { m with varOs := fun name => (m.var name).map .text }

/-- The two variables that the command reads as paths and the server as texts are texts. -/
def PathsAreText : Prop :=
  ∀ name ∈ ["CONFLUX_PROFILE_DIR","CONFLUX_EXPERIMENT_CONFIG_PATH"],
    ∀ value, m.varOs name = some value → value.toStr ≠ none

/-- What a resolution and its environment pass when the doctor is clean. -/
structure Passes (r : Resolution) : Prop where
  valid : r.validation.errors = []
  backends : ∃ b, m.Selects r.config.mode b ∧ ∀ c ∈ m.probes b, c.status ≠ .fail
  auth : m.AuthReady r.config.mode r.config.auth.value
  sidecar : m.SidecarServes r.config.aggregator.value

/-- The backends that are selected can be connected to, and each of the two ports is free. -/
structure Ready : Prop where
  backends : ∀ b, backendSelectionFromVars m.var = .ok b → m.connectBackends b = .ok ()
  ports : ∀ addr, m.grpcAddr = .ok addr ∨ m.httpAddr = .ok addr →
    ∃ bound, m.bind addr = .ok bound ∧ bound.ip = addr.ip

/-- What the server asks of its environment and the doctor does not: a dimension that is a number,
can be allocated and is no other than a sidecar's; two addresses, of which that of the admin API
is loopback where no token guards it, and which are not in each other's way; and material that the
TLS stack takes. -/
structure Unchecked (config : ResolvedConfig) : Prop where
  weights : ∃ dim, ((m.var "CONFLUX_INITIAL_WEIGHTS_DIM").elim (some 4) Decimal.parseU64) = some dim ∧
    4*dim < 2^63 ∧ m.DimensionAgrees config.aggregator.value dim
  grpc : ∀ value, m.var "CONFLUX_GRPC_ADDR" = some value → (parse value).isSome
  http : ∀ value, m.var "CONFLUX_HTTP_ADDR" = some value → ∃ addr, parse value = some addr ∧
    (m.adminToken.isSome ∨ addr.ip.isLoopback)
  apart : ∀ grpc http bound, m.grpcAddr = .ok grpc → m.httpAddr = .ok http →
    m.bind grpc = .ok bound → m.inUse bound http = none
  tls : ∀ material, m.tlsMaterialFromEnv = .ok (some material) → config.auth.value = .mtls →
    m.tlsConfig material = .ok ()

/-- The server sees the configuration that the doctor saw, and all it asks besides holds. -/
def Startable [TomlValue τ] : Prop :=
  (m.PathsAreText ∨ m.readable.Clean) ∧ ∃ r, m.readable.resolve {} = .ok r ∧ m.Unchecked r.config

end Machine

section Spec
variable {τ : Type} {m : Machine τ}

theorem Machine.var_readable : m.readable.var = m.var := by
  funext name
  change ((m.var name).map OsString.text).bind OsString.toStr = m.var name
  cases m.var name <;> rfl

theorem Machine.varOs_readable {name : String}
    (h : ∀ value, m.varOs name = some value → value.toStr ≠ none) :
    m.readable.varOs name = m.varOs name := by
  change (m.var name).map OsString.text = m.varOs name
  unfold var
  cases hvar : m.varOs name with
  | none => rfl
  | some value =>
    cases value with
    | text s => rfl
    | raw bytes shown => exact absurd rfl (h _ hvar)

/-- The default needs are those of the name, also where nothing builds it. -/
theorem Machine.sidecarNeeds_eq (name : String) :
    sidecarNeeds name = (decide (name = "fltrust"),decide (name = "zeno")) := by
  unfold sidecarNeeds
  cases h : buildAggregator name ⟨⟨0x3e4ccccd⟩,F32.one,none,none,none,none,none,none,none⟩ with
  | ok a => exact needs_of_buildAggregator h
  | error e =>
    have hunregistered : name ∉ registeredNames .aggregator := by
      intro hmem
      obtain ⟨a,ha⟩ := buildAggregator_of_registered hmem _
      rw [h] at ha
      cases ha
    have hfltrust : name ≠ "fltrust" := by
      rintro rfl
      exact hunregistered (by decide)
    have hzeno : name ≠ "zeno" := by
      rintro rfl
      exact hunregistered (by decide)
    simp [hfltrust, hzeno, Except.map]

theorem Machine.tlsCheck_status {mode : Mode} {auth : AuthMode} {material : Option TlsMaterial} :
    (tlsCheck mode auth material).status ≠ .fail ↔
      ∃ tls, resolveServerTls mode auth material = .ok tls := by
  unfold tlsCheck
  rcases resolveServerTls mode auth material with e | _ | t
  · simp
  · simp only [Except.ok.injEq, exists_eq', iff_true]
    split_ifs <;> decide
  · simp

theorem Machine.jwtCheck_status {mode : Mode} {auth : AuthMode} {key : Option JwtKeyMaterial} :
    (jwtCheck mode auth key).status ≠ .fail ↔ validateJwtStartup mode auth key = .ok () := by
  unfold jwtCheck
  rcases validateJwtStartup mode auth key with e | _
  · simp
  · simp only [iff_true]
    split_ifs <;> decide

theorem Machine.backendsCheck_status {mode : Mode} {b : BackendSelection} :
    (backendsCheck mode b).status ≠ .fail ↔ validateProductionBackends mode b = .ok () := by
  unfold backendsCheck
  rcases validateProductionBackends mode b with e | _ <;> simp

theorem Machine.configurationCheck_status {validation : Validation} :
    (configurationCheck validation).status ≠ .fail ↔ validation.errors = [] := by
  unfold configurationCheck
  cases validation.errors with
  | nil =>
    simp only [List.isEmpty_nil, Bool.not_true, Bool.false_eq_true, if_false, iff_true]
    split_ifs <;> decide
  | cons f fs => simp

theorem Machine.sidecarCheck_status {name : String} :
    (m.sidecarCheck (decide (name = "fltrust")) (decide (name = "zeno"))).status ≠ .fail ↔
      m.SidecarServes name := by
  unfold sidecarCheck SidecarServes Answers
  by_cases hneeds : name = "fltrust" ∨ name = "zeno"
  · have hsome : ¬(!decide (name = "fltrust") && !decide (name = "zeno")) = true := by
      simpa [imp_iff_not_or] using hneeds
    rw [if_neg hsome]
    simp only [hneeds, forall_const, true_and]
    cases haddr : m.trustedReferenceAddr with
    | none => simp
    | some addr =>
      cases hdescribe : m.describe addr with
      | error e => simp [hdescribe]
      | ok capabilities =>
        have hcheck : ∀ f z r s : Bool, (if (f && !r) || (z && !s) then (⟨"sidecar",.fail⟩ : Check)
            else ⟨"sidecar",.pass⟩).status ≠ .fail ↔ (f = true → r = true) ∧ (z = true → s = true) := by
          decide
        simp only [Option.some.injEq, exists_eq_left', hdescribe, Except.ok.injEq, hcheck,
          decide_eq_true_eq]
  · have hnone : (!decide (name = "fltrust") && !decide (name = "zeno")) = true := by
      simpa using hneeds
    rw [if_pos hnone]
    simp only [hneeds, false_implies, iff_true]
    split_ifs <;> decide

theorem Machine.reportsOk_iff {report : Except CliError (List Check)} :
    reportsOk report = true ↔ ∃ checks, report = .ok checks ∧ ∀ c ∈ checks, c.status ≠ .fail := by
  cases report with
  | error e => simp [reportsOk]
  | ok checks => simp [reportsOk]

/-- A clean doctor resolves, and what it resolves to passes. -/
theorem Machine.clean_iff [TomlValue τ] :
    m.Clean ↔ ∃ r, m.resolve {} = .ok r ∧ m.Passes r := by
  have htlsMaterial : ∀ c ∈ m.tlsMaterialCheck, c.status ≠ .fail := by
    intro c hc
    unfold tlsMaterialCheck at hc
    dsimp only at hc
    split_ifs at hc
    · obtain rfl := List.mem_singleton.mp hc
      decide
    · cases hc
  have hprofiles : ∀ unselected, (profilesCheck unselected).status ≠ .fail := by
    intro unselected
    unfold profilesCheck
    split_ifs <;> decide
  rw [Clean, reportsOk_iff]
  simp only [doctor, except_bind_ok_iff, mapError_ok_iff]
  constructor
  · rintro ⟨checks,⟨r,hr,b,hb,material,hmaterial,key,hkey,hreturn⟩,hall⟩
    obtain rfl := Except.ok.inj hreturn
    simp only [List.mem_append, List.mem_cons, List.not_mem_nil, or_false, or_imp, forall_and,
      forall_eq, sidecarNeeds_eq, configurationCheck_status, backendsCheck_status,
      tlsCheck_status, jwtCheck_status, sidecarCheck_status] at hall
    obtain ⟨⟨⟨⟨hvalid,-,hpermitted⟩,hprobes⟩,-⟩,htls,hjwt,hsidecar⟩ := hall
    obtain ⟨tls,htls⟩ := htls
    exact ⟨r,hr,hvalid,⟨b,⟨hb,hpermitted⟩,hprobes⟩,⟨⟨material,tls,hmaterial,htls⟩,key,hkey,hjwt⟩,
      hsidecar⟩
  · rintro ⟨r,hr,hvalid,⟨b,hselects,hprobes⟩,hauth,hsidecar⟩
    obtain ⟨⟨material,tls,hmaterial,htls⟩,key,hkey,hjwt⟩ := hauth
    refine ⟨_,⟨r,hr,b,hselects.selected,material,hmaterial,key,hkey,rfl⟩,?_⟩
    simp only [List.mem_append, List.mem_cons, List.not_mem_nil, or_false, or_imp, forall_and,
      forall_eq, sidecarNeeds_eq, configurationCheck_status, backendsCheck_status,
      tlsCheck_status, jwtCheck_status, sidecarCheck_status]
    exact ⟨⟨⟨⟨hvalid,hprofiles _,hselects.permitted⟩,hprobes⟩,htlsMaterial⟩,⟨tls,htls⟩,hjwt,hsidecar⟩

/-- Resolution reads no more than the texts and the two paths. -/
theorem Machine.resolve_readable [TomlValue τ] (h : m.PathsAreText) :
    m.readable.resolve {} = m.resolve {} := by
  have hdir := varOs_readable (h "CONFLUX_PROFILE_DIR" (by decide))
  have hfile := varOs_readable (h "CONFLUX_EXPERIMENT_CONFIG_PATH" (by decide))
  simp only [resolve, hdir, hfile, var_readable]
  rfl

theorem Machine.authReady_readable {mode : Mode} {auth : AuthMode} :
    m.readable.AuthReady mode auth ↔ m.AuthReady mode auth := by
  have htls : m.readable.tlsMaterialFromEnv = m.tlsMaterialFromEnv := by
    rw [tlsMaterialFromEnv, var_readable]
    rfl
  have hjwt : m.readable.jwtKeyFromEnv = m.jwtKeyFromEnv := by
    rw [jwtKeyFromEnv, var_readable]
    rfl
  constructor
  · intro h
    exact ⟨htls ▸ h.tls,hjwt ▸ h.jwt⟩
  · intro h
    exact ⟨htls.symm ▸ h.tls,hjwt.symm ▸ h.jwt⟩

theorem Machine.selects_readable {mode : Mode} {b : BackendSelection} :
    m.readable.Selects mode b ↔ m.Selects mode b := by
  constructor
  · intro h
    exact ⟨var_readable (m := m) ▸ h.selected,h.permitted⟩
  · intro h
    exact ⟨(var_readable (m := m)).symm ▸ h.selected,h.permitted⟩

theorem Machine.sidecarServes_readable {aggregator : String} :
    m.readable.SidecarServes aggregator ↔ m.SidecarServes aggregator := by
  have haddr : m.readable.trustedReferenceAddr = m.trustedReferenceAddr :=
    congrFun var_readable _
  unfold SidecarServes Answers
  rw [haddr]
  rfl

/-- Once a configuration is resolved, only texts are read. -/
theorem Machine.passes_readable {r : Resolution} : m.readable.Passes r ↔ m.Passes r := by
  constructor
  · rintro ⟨hvalid,⟨b,hb,hprobes⟩,hauth,hsidecar⟩
    exact ⟨hvalid,⟨b,selects_readable.mp hb,hprobes⟩,authReady_readable.mp hauth,
      sidecarServes_readable.mp hsidecar⟩
  · rintro ⟨hvalid,⟨b,hb,hprobes⟩,hauth,hsidecar⟩
    exact ⟨hvalid,⟨b,selects_readable.mpr hb,hprobes⟩,authReady_readable.mpr hauth,
      sidecarServes_readable.mpr hsidecar⟩

/-- A clean doctor stays clean where the server sees what it saw. -/
theorem Machine.clean_readable [TomlValue τ] (h : m.PathsAreText) (hclean : m.Clean) :
    m.readable.Clean := by
  obtain ⟨r,hr,hpasses⟩ := clean_iff.mp hclean
  exact clean_iff.mpr ⟨r,(resolve_readable h).trans hr,passes_readable.mpr hpasses⟩

theorem initialWeightsDim_ok_iff {host : Host τ} {dim : ℕ} : host.initialWeightsDim = .ok dim ↔
    (host.var "CONFLUX_INITIAL_WEIGHTS_DIM").elim (some 4) Decimal.parseU64 = some dim := by
  unfold Host.initialWeightsDim
  cases host.var "CONFLUX_INITIAL_WEIGHTS_DIM" with
  | none => simp
  | some value => cases h : Decimal.parseU64 value <;> simp [h]

/-- The server resolves what the command does, and needs a dimension besides. -/
theorem Machine.fromEnv_host_ok_iff [TomlValue τ] {s : ServerConfig} :
    ServerConfig.fromEnv m.host = .ok s ↔ ∃ r dim, m.readable.resolve {} = .ok r ∧
      m.host.initialWeightsDim = .ok dim ∧ s = ⟨r.config,r.config.mode,dim⟩ := by
  have hdir : m.profileDir (((none : Option OsString) <|>
      m.readable.varOs "CONFLUX_PROFILE_DIR").getD (.text "profiles")) = m.host.profiles := by
    change m.profileDir (((m.var "CONFLUX_PROFILE_DIR").map .text).getD (.text "profiles")) =
      m.profileDir (.text ((m.var "CONFLUX_PROFILE_DIR").getD "profiles"))
    cases m.var "CONFLUX_PROFILE_DIR" <;> rfl
  have hfile : ∀ file, m.readable.loadConfig ((none : Option OsString) <|>
      m.readable.varOs "CONFLUX_EXPERIMENT_CONFIG_PATH") = .ok file ↔
        m.host.fileTier = .ok file := by
    intro file
    rw [Host.fileTier]
    change m.readable.loadConfig ((m.host.var "CONFLUX_EXPERIMENT_CONFIG_PATH").map .text) =
      .ok file ↔ _
    cases m.host.var "CONFLUX_EXPERIMENT_CONFIG_PATH" with
    | none => simp [loadConfig]
    | some path =>
      rw [mapError_ok_iff]
      exact mapError_ok_iff
  simp only [ServerConfig.fromEnv, resolve, except_bind_ok_iff, mapError_ok_iff, hfile,
    var_readable]
  constructor
  · rintro ⟨topology,htopology,mode,hmode,file,hfile,env,henv,dim,hdim,hs⟩
    refine ⟨_,dim,⟨topology,?_,mode,?_,file,hfile,env,henv,rfl⟩,hdim,(Except.ok.inj hs).symm⟩
    · exact (congrArg (topologyProfileNamed · _) hdir).trans htopology
    · exact (congrArg (modeProfileNamed · _) hdir).trans hmode
  · rintro ⟨r,dim,⟨topology,htopology,mode,hmode,file,hfile,env,henv,hr⟩,hdim,rfl⟩
    obtain rfl := Except.ok.inj hr
    refine ⟨topology,?_,mode,?_,file,hfile,env,henv,dim,hdim,rfl⟩
    · exact (congrArg (topologyProfileNamed · _) hdir).symm.trans htopology
    · exact (congrArg (modeProfileNamed · _) hdir).symm.trans hmode

theorem Machine.validation_of_resolve [TomlValue τ] {sel : Selection} {r : Resolution}
    (h : m.resolve sel = .ok r) : r.validation = r.config.validateWithNames := by
  simp only [resolve, except_bind_ok_iff] at h
  obtain ⟨topology,-,mode,-,file,-,env,-,h⟩ := h
  obtain rfl := Except.ok.inj h
  rfl

theorem Machine.listenAddr_ok_iff {var literal : String} {fallback addr : SocketAddr}
    (h : parse literal = some fallback) : m.listenAddr var literal = .ok addr ↔
      (m.var var).elim (some fallback) parse = some addr := by
  unfold listenAddr
  cases m.var var with
  | none => simp [h]
  | some value => cases hvalue : parse value <;> simp [hvalue]

/-- An address on the loopback interface, as it stands in the source. -/
theorem parse_loopback {literal : String} {port : ℕ} (hport : port < 2^16)
    (htext : displayV4 127 0 0 1 port = literal) :
    parse literal = some ⟨.v4 0x7f000001,port,0⟩ := by
  rw [← htext]
  exact parse_displayV4 (by decide) (by decide) (by decide) (by decide) hport

theorem Machine.grpcAddr_ok_iff {addr : SocketAddr} : m.grpcAddr = .ok addr ↔
    (m.var "CONFLUX_GRPC_ADDR").elim (some ⟨.v4 0x7f000001,50051,0⟩) parse = some addr :=
  listenAddr_ok_iff (parse_loopback (by decide) (by decide +kernel))

theorem Machine.httpAddr_ok_iff {addr : SocketAddr} : m.httpAddr = .ok addr ↔
    (m.var "CONFLUX_HTTP_ADDR").elim (some ⟨.v4 0x7f000001,8080,0⟩) parse = some addr :=
  listenAddr_ok_iff (parse_loopback (by decide) (by decide +kernel))

theorem Machine.listen_ok_iff {listeners : ServerListeners} : m.listen none = .ok listeners ↔
    ∃ grpc http, m.grpcAddr = .ok grpc ∧ m.httpAddr = .ok http ∧ m.bind grpc = .ok listeners.grpc ∧
      m.inUse listeners.grpc http = none ∧ m.bind http = .ok listeners.http := by
  simp only [listen, except_bind_ok_iff, mapError_ok_iff, bindBeside_nil, bindBeside_ok_iff]
  constructor
  · rintro ⟨grpc,hgrpc,http,hhttp,boundGrpc,hboundGrpc,boundHttp,⟨hfree,hboundHttp⟩,hreturn⟩
    obtain rfl := Except.ok.inj hreturn
    exact ⟨grpc,http,hgrpc,hhttp,hboundGrpc,hfree,hboundHttp⟩
  · rintro ⟨grpc,http,hgrpc,hhttp,hboundGrpc,hfree,hboundHttp⟩
    exact ⟨grpc,hgrpc,http,hhttp,_,hboundGrpc,_,⟨hfree,hboundHttp⟩,rfl⟩

theorem validateAdminBinding_ok_iff {addr : SocketAddr} {token : Option String} :
    validateAdminBinding addr token = .ok () ↔ token.isSome ∨ addr.ip.isLoopback := by
  unfold validateAdminBinding
  split_ifs with h <;> simp [h]

/-- What a start shows about the environment: the doctor had nothing to find, and the rest that
it does not look at holds. -/
theorem Machine.unchecked_of_starts {r : Resolution} {dim : ℕ} {listeners : ServerListeners}
    (hready : m.Ready) (hdim : m.host.initialWeightsDim = .ok dim)
    (h : m.Starts ⟨r.config,r.config.mode,dim⟩ listeners) : m.Unchecked r.config := by
  obtain ⟨grpc,http,hgrpc,hhttp,hboundGrpc,hfree,hbound⟩ := listen_ok_iff.mp h.listens
  refine ⟨⟨dim,initialWeightsDim_ok_iff.mp hdim,h.weights,h.dimension⟩,fun value hvalue => ?_,
    fun value hvalue => ?_,fun grpc' http' bound hgrpc' hhttp' hbound' => ?_,h.tls⟩
  · have hparse := grpcAddr_ok_iff.mp hgrpc
    rw [hvalue] at hparse
    exact Option.isSome_of_eq_some hparse
  · have hparse := httpAddr_ok_iff.mp hhttp
    rw [hvalue] at hparse
    obtain ⟨bound,hbound',hip⟩ := hready.ports http (.inr hhttp)
    obtain rfl := Except.ok.inj (hbound.symm.trans hbound')
    exact ⟨http,hparse,hip ▸ validateAdminBinding_ok_iff.mp h.admin⟩
  · obtain rfl := Except.ok.inj (hgrpc.symm.trans hgrpc')
    obtain rfl := Except.ok.inj (hhttp.symm.trans hhttp')
    obtain rfl := Except.ok.inj (hboundGrpc.symm.trans hbound')
    exact hfree

/-- Both addresses can be bound, and the second keeps its guard. -/
theorem Machine.listens_of_unchecked {config : ResolvedConfig} (hready : m.Ready)
    (h : m.Unchecked config) : ∃ listeners, m.listen none = .ok listeners ∧
      validateAdminBinding listeners.http m.adminToken = .ok () := by
  obtain ⟨grpc,hgrpc⟩ : ∃ grpc, m.grpcAddr = .ok grpc := by
    simp only [grpcAddr_ok_iff]
    cases hvar : m.var "CONFLUX_GRPC_ADDR" with
    | none => exact ⟨_,rfl⟩
    | some value => exact Option.isSome_iff_exists.mp (h.grpc value hvar)
  obtain ⟨http,hhttp,hguard⟩ : ∃ http, m.httpAddr = .ok http ∧
      (m.adminToken.isSome ∨ http.ip.isLoopback) := by
    simp only [httpAddr_ok_iff]
    cases hvar : m.var "CONFLUX_HTTP_ADDR" with
    | none => exact ⟨_,rfl,.inr (by decide)⟩
    | some value => exact h.http value hvar
  obtain ⟨boundGrpc,hboundGrpc,-⟩ := hready.ports grpc (.inl hgrpc)
  obtain ⟨boundHttp,hboundHttp,hip⟩ := hready.ports http (.inr hhttp)
  exact ⟨⟨boundGrpc,boundHttp⟩,listen_ok_iff.mpr ⟨grpc,http,hgrpc,hhttp,hboundGrpc,
    h.apart grpc http boundGrpc hgrpc hhttp hboundGrpc,hboundHttp⟩,
    validateAdminBinding_ok_iff.mpr (hip.symm ▸ hguard)⟩

/-- After a clean doctor, with backends that can be connected to and free ports, the server starts
exactly when what the doctor does not look at is in order. -/
theorem Machine.starts_iff_of_clean [TomlValue τ] (hready : m.Ready) (hclean : m.Clean) :
    (∃ listeners, m.runFromEnv = .ok listeners) ↔ m.Startable := by
  simp only [runFromEnv, except_bind_ok_iff, mapError_ok_iff, serve_ok_iff, fromEnv_host_ok_iff]
  constructor
  · rintro ⟨listeners,s,⟨r,dim,hr,hdim,rfl⟩,hstarts⟩
    obtain ⟨r',-,hpasses⟩ := clean_iff.mp hclean
    obtain ⟨b,hselects,-⟩ := hstarts.backends
    obtain ⟨b',hselects',hprobes⟩ := hpasses.backends
    obtain rfl := Except.ok.inj (hselects.selected.symm.trans hselects'.selected)
    have hvalid : r.validation.errors = [] := validation_of_resolve hr ▸ hstarts.valid
    have hpasses : m.Passes r := ⟨hvalid,⟨b,hselects,hprobes⟩,hstarts.auth,hstarts.sidecar⟩
    exact ⟨.inr (clean_iff.mpr ⟨r,hr,passes_readable.mpr hpasses⟩),r,hr,
      unchecked_of_starts hready hdim hstarts⟩
  · rintro ⟨hsees,r,hr,hunchecked⟩
    have hcleanReadable : m.readable.Clean := hsees.elim (clean_readable · hclean) id
    obtain ⟨r',hr',hpasses⟩ := clean_iff.mp hcleanReadable
    obtain rfl := Except.ok.inj (hr.symm.trans hr')
    have hpasses := passes_readable.mp hpasses
    obtain ⟨dim,hdim,hweights,hagrees⟩ := hunchecked.weights
    obtain ⟨b,hselects,-⟩ := hpasses.backends
    obtain ⟨listeners,hlistens,hadmin⟩ := listens_of_unchecked hready hunchecked
    have hvalid : r.config.validateWithNames.errors = [] :=
      validation_of_resolve hr ▸ hpasses.valid
    exact ⟨listeners,_,⟨r,dim,hr,initialWeightsDim_ok_iff.mpr hdim,rfl⟩,hvalid,hpasses.auth,
      hunchecked.tls,hweights,⟨b,hselects,hready.backends b hselects.selected⟩,hpasses.sidecar,
      hagrees,hlistens,hadmin⟩

/-- One address for both listeners: the second bind is refused. -/
theorem Machine.not_starts_of_sameAddr [TomlValue τ] {addr : SocketAddr}
    (hgrpc : m.grpcAddr = .ok addr) (hhttp : m.httpAddr = .ok addr) (hport : addr.port ≠ 0)
    (hbind : m.bind addr = .ok addr) : ¬∃ listeners, m.runFromEnv = .ok listeners := by
  rintro ⟨listeners,h⟩
  simp only [runFromEnv, except_bind_ok_iff, mapError_ok_iff, serve_ok_iff] at h
  obtain ⟨s,-,h⟩ := h
  obtain ⟨grpc,http,hgrpc',hhttp',hbound,hfree,-⟩ := listen_ok_iff.mp h.listens
  obtain rfl := Except.ok.inj (hgrpc.symm.trans hgrpc')
  obtain rfl := Except.ok.inj (hhttp.symm.trans hhttp')
  rw [← Except.ok.inj (hbind.symm.trans hbound)] at hfree
  have hheld := m.inUse_self addr hport
  rw [hfree] at hheld
  exact absurd hheld Bool.false_ne_true

/-- One variable is set, there is no file and no service, and every port is free. -/
def bareMachine (name value : String) : Machine TomlScalar where
  varOs n := if n = name then some (.text value) else none
  profileDir _ := ⟨"profiles",[],fun _ => none,none⟩
  experimentFile _ := .error "No such file or directory"
  readFile _ := .error "No such file or directory"
  publicKey _ := .error "InvalidKeyFormat"
  tlsConfig _ := .ok ()
  accepts _ _ := false
  redisAllowlist _ := .error "Connection refused"
  redisRegistry _ := .error "Connection refused"
  postgres _ := .error "Connection refused"
  s3 _ _ _ _ := .error "Connection refused"
  accounting _ := .error "Connection refused"
  sidecar _ := .error "transport error"
  bind := .ok
  inUse held addr :=
    if held = addr ∧ addr.port ≠ 0 then some "Address already in use (os error 98)" else none
  inUse_self addr hport := by rw [if_pos ⟨rfl,hport⟩]; rfl

/-- The doctor is clean where the gRPC listener is given the address of the other one. -/
example : (bareMachine "CONFLUX_GRPC_ADDR" "127.0.0.1:8080").Clean ∧
    ¬∃ listeners, (bareMachine "CONFLUX_GRPC_ADDR" "127.0.0.1:8080").runFromEnv = .ok listeners :=
  have hgrpc : (bareMachine "CONFLUX_GRPC_ADDR" "127.0.0.1:8080").grpcAddr =
      .ok ⟨.v4 0x7f000001,8080,0⟩ := rfl
  ⟨by unfold Machine.Clean; decide +kernel,Machine.not_starts_of_sameAddr hgrpc rfl (by decide) rfl⟩

theorem ready_bareMachine {name value : String}
    (h : backendSelectionFromVars (bareMachine name value).var =
      .ok ⟨.memory,.memory,.disabled⟩) : (bareMachine name value).Ready where
  backends b hb := by
    obtain rfl := Except.ok.inj (h.symm.trans hb)
    rfl
  ports addr _ := ⟨addr,rfl,rfl⟩

/-- An admin API that stays on loopback: the doctor is clean and the server starts. -/
theorem Machine.starts_iff_of_clean_loopback :
    (∃ listeners, (bareMachine "CONFLUX_HTTP_ADDR" "127.0.0.1:9090").runFromEnv = .ok listeners) ↔
      (bareMachine "CONFLUX_HTTP_ADDR" "127.0.0.1:9090").Startable :=
  starts_iff_of_clean (ready_bareMachine rfl) (by unfold Clean; decide +kernel)

/-- An admin API on every interface without a token, and a dimension that is no number: the doctor
is clean and the server refuses to start. -/
theorem Machine.not_starts_of_clean :
    ((bareMachine "CONFLUX_HTTP_ADDR" "0.0.0.0:8080").Ready ∧
      (bareMachine "CONFLUX_HTTP_ADDR" "0.0.0.0:8080").Clean ∧
      (bareMachine "CONFLUX_HTTP_ADDR" "0.0.0.0:8080").runFromEnv =
        .error (.adminBinding (.exposedWithoutToken ⟨.v4 0,8080,0⟩))) ∧
    (bareMachine "CONFLUX_INITIAL_WEIGHTS_DIM" "50k").Ready ∧
      (bareMachine "CONFLUX_INITIAL_WEIGHTS_DIM" "50k").Clean ∧
      (bareMachine "CONFLUX_INITIAL_WEIGHTS_DIM" "50k").runFromEnv =
        .error (.serve (.invalidVar "CONFLUX_INITIAL_WEIGHTS_DIM" "50k")) := by
  refine ⟨⟨ready_bareMachine rfl,?_,?_⟩,ready_bareMachine rfl,?_,?_⟩
  · unfold Clean
    decide +kernel
  · rfl
  · unfold Clean
    decide +kernel
  · rfl

end Spec
end ConfluxFL
