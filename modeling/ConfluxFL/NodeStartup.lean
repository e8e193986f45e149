import ConfluxFL.Privacy.Mechanism
import ConfluxFL.Server.FromEnv

/-! How a node process starts: its configuration from the environment, and the guard that keeps
a stub client out of production. The node asks no profile; it compares the mode with one word. -/
namespace ConfluxFL

inductive RuntimeMode | research | production
  deriving DecidableEq, Repr

/-- What listens on the local port, as the operator declares it. -/
inductive ClientAppKind | stub | real
  deriving DecidableEq, Repr

inductive ClientTls where
  | plaintext
  | serverAuth (ca : List UInt8) (domain : String)
  | mutual (cert key ca : List UInt8) (domain : String)

inductive StartupGuardError | productionRefusesStubClient
  deriving DecidableEq, Repr

def StartupGuardError.text : StartupGuardError → String
  | .productionRefusesStubClient =>
    "mode = production with a stub ClientApp is refused (allow_stub_client = false in "++
      "production) — set CONFLUX_CLIENT_APP_KIND=real once a real ClientApp is wired up, or "++
      "CONFLUX_ALLOW_STUB_CLIENT=true to override for a deliberate production pipeline test"

def validateClientAppStartup (mode : RuntimeMode) (allowStubClient : Bool)
    (kind : ClientAppKind) : Except StartupGuardError Unit :=
  if mode = .production ∧ allowStubClient = false ∧ kind = .stub then
    .error .productionRefusesStubClient
  else .ok ()

/-- Why reading the environment ends without a configuration. -/
inductive NodeEnvStop where
  | invalidVar (var value : String)
  /-- These three are panics. -/
  | unreadable (what path source : String)
  | invalidTls
  | literalAddress

/-- What a node process finds where it starts; `socketAddr` reads the text of an address. -/
structure NodeHost (α : Type) where
  var : String → Option String
  readFile : String → Except String (List UInt8)
  socketAddr : String → Option α

structure NodeConfig (α : Type) where
  mode : RuntimeMode
  allowStubClient : Bool
  clientAppKind : ClientAppKind
  serverAddr : String
  clientId : String
  localAddr : α
  connectionMode : ConnectionMode
  localPrivacy : Option GaussianClippingPrivacy
  privacySeed : Option ℕ
  authToken : String
  clientTls : ClientTls

namespace NodeHost
variable {α : Type} (host : NodeHost α)

def parseEnv {β : Type} (fromStr : String → Option β) (var : String) :
    Except NodeEnvStop (Option β) :=
  match host.var var with
  | none => .ok none
  | some value =>
    match fromStr value with
    | some v => .ok (some v)
    | none => .error (.invalidVar var value)

def read (path what : String) : Except NodeEnvStop (List UInt8) :=
  (host.readFile path).mapError fun source => .unreadable what path source

def resolveClientTls : Except NodeEnvStop ClientTls :=
  match host.var "CONFLUX_TLS_CLIENT_CERT_PATH",host.var "CONFLUX_TLS_CLIENT_KEY_PATH",
    host.var "CONFLUX_TLS_SERVER_CA_PATH",host.var "CONFLUX_TLS_DOMAIN" with
  | none,none,none,none => .ok .plaintext
  | none,none,some ca,some domain => do
    return .serverAuth (← host.read ca "CONFLUX_TLS_SERVER_CA_PATH") domain
  | some cert,some key,some ca,some domain => do
    let cert ← host.read cert "CONFLUX_TLS_CLIENT_CERT_PATH"
    let key ← host.read key "CONFLUX_TLS_CLIENT_KEY_PATH"
    return .mutual cert key (← host.read ca "CONFLUX_TLS_SERVER_CA_PATH") domain
  | _,_,_,_ => .error .invalidTls

def runtimeMode : RuntimeMode :=
  if host.var "CONFLUX_MODE" = some "production" then .production else .research

/-- Unset, or set to anything else, it is what the mode defaults to. -/
def allowStubClient : Bool :=
  if host.var "CONFLUX_ALLOW_STUB_CLIENT" = some "true" then true
  else if host.var "CONFLUX_ALLOW_STUB_CLIENT" = some "false" then false
  else host.runtimeMode = .research

def localPrivacy : Except NodeEnvStop (Option GaussianClippingPrivacy) :=
  if host.var "CONFLUX_CLIENT_SIDE_PRIVACY_TRANSFORM" = some "true" then do
    let clipNorm ← host.parseEnv F32.parse "CONFLUX_CLIP_NORM"
    let noiseMultiplier ← host.parseEnv F32.parse "CONFLUX_NOISE_MULTIPLIER"
    return some ⟨clipNorm.getD F32.one,noiseMultiplier.getD F32.one⟩
  else .ok none

def localAddr : Except NodeEnvStop α := do
  let given ← host.parseEnv host.socketAddr "CONFLUX_LOCAL_ADDR"
  match given <|> host.socketAddr "127.0.0.1:47100" with
  | some addr => .ok addr
  | none => .error .literalAddress

end NodeHost

def placeholderAuthToken : String := "node-auth-token"

namespace NodeConfig
variable {α : Type}

def fromEnv (host : NodeHost α) : Except NodeEnvStop (NodeConfig α) := do
  let clientAppKind :=
    if host.var "CONFLUX_CLIENT_APP_KIND" = some "real" then ClientAppKind.real else .stub
  let connectionMode :=
    if host.var "CONFLUX_CONNECTION_MODE" = some "push" then ConnectionMode.push else .pull
  let localPrivacy ← host.localPrivacy
  let localAddr ← host.localAddr
  let privacySeed ← host.parseEnv Decimal.parseU64 "CONFLUX_SEED_VALUE"
  let clientTls ← host.resolveClientTls
  return {
    mode := host.runtimeMode
    allowStubClient := host.allowStubClient
    clientAppKind := clientAppKind
    serverAddr := (host.var "CONFLUX_SERVER_ADDR").getD "http://127.0.0.1:50051"
    clientId := (host.var "CONFLUX_CLIENT_ID").getD "node-1"
    localAddr := localAddr
    connectionMode := connectionMode
    localPrivacy := localPrivacy
    privacySeed := privacySeed
    authToken := (host.var "CONFLUX_NODE_AUTH_TOKEN").getD placeholderAuthToken
    clientTls := clientTls }

variable {host : NodeHost α} {n : NodeConfig α}

/-- A node that starts has the mode and the allowance the variables give. -/
theorem fromEnv_ok (h : fromEnv host = .ok n) :
    n.mode = host.runtimeMode ∧ n.allowStubClient = host.allowStubClient := by
  obtain ⟨privacy,-,h⟩ := Fallible.except_bind_ok_iff.mp h
  obtain ⟨addr,-,h⟩ := Fallible.except_bind_ok_iff.mp h
  obtain ⟨seed,-,h⟩ := Fallible.except_bind_ok_iff.mp h
  obtain ⟨tls,-,h⟩ := Fallible.except_bind_ok_iff.mp h
  obtain rfl := Except.ok.inj h
  exact ⟨rfl,rfl⟩

/-- The guard a node passes before it registers. -/
def guard (n : NodeConfig α) : Except StartupGuardError Unit :=
  validateClientAppStartup n.mode n.allowStubClient n.clientAppKind

end NodeConfig

section Agreement
variable {α τ : Type} [TomlValue τ] {host : NodeHost α} {dir : ProfileDir τ} {m : ModeProfile}
  {n : NodeConfig α}

/-- A node and the mode profile its server runs under: they agree on what is production, the
node allows a stub as the profile does unless a variable says otherwise, and the guard refuses a
stub in production wherever neither allows it. -/
structure NodeConfig.Agrees (host : NodeHost α) (m : ModeProfile) (n : NodeConfig α) : Prop where
  mode : n.mode = .production ↔ m.base = .production
  allowance : host.var "CONFLUX_ALLOW_STUB_CLIENT" = none →
    n.allowStubClient = m.defaults.allowStubClient
  guard : m.base = .production → n.clientAppKind = .stub →
    host.var "CONFLUX_ALLOW_STUB_CLIENT" = some "false" ∨
      host.var "CONFLUX_ALLOW_STUB_CLIENT" = none ∧ m.defaults.allowStubClient = false →
    n.guard = .error .productionRefusesStubClient

/-- The guard follows from the other two. -/
theorem NodeConfig.agrees_iff (hn : fromEnv host = .ok n) : n.Agrees host m ↔
    (n.mode = .production ↔ m.base = .production) ∧
      (host.var "CONFLUX_ALLOW_STUB_CLIENT" = none →
        n.allowStubClient = m.defaults.allowStubClient) := by
  constructor
  · exact fun h => ⟨h.mode,h.allowance⟩
  · rintro ⟨hmode,hallow⟩
    refine ⟨hmode,hallow,fun hbase hkind hdenied => ?_⟩
    have hfalse : n.allowStubClient = false := by
      rcases hdenied with hset | ⟨hunset,hdefault⟩
      · rw [(fromEnv_ok hn).2, NodeHost.allowStubClient, hset]
        rfl
      · rw [hallow hunset, hdefault]
    rw [NodeConfig.guard, validateClientAppStartup, if_pos ⟨hmode.mpr hbase,hfalse,hkind⟩]

theorem NodeHost.allowStubClient_of_unset (h : host.var "CONFLUX_ALLOW_STUB_CLIENT" = none) :
    host.allowStubClient = decide (host.runtimeMode = .research) := by
  rw [allowStubClient, h]
  rfl

/-- A mode as the node names it. -/
def Mode.runtime : Mode → RuntimeMode
  | .research => .research
  | .production => .production

/-- A builtin's name, or none, is read the same by both. -/
theorem NodeHost.runtimeMode_of_label
    (hm : modeProfileNamed dir (host.var "CONFLUX_MODE") = .ok m)
    (hlabel : ∀ name, host.var "CONFLUX_MODE" = some name → ∃ b : Mode, b.label = name) :
    ∃ b : Mode, m = .builtin b ∧ host.runtimeMode = b.runtime := by
  unfold runtimeMode
  cases hvar : host.var "CONFLUX_MODE" with
  | none =>
    rw [hvar] at hm
    exact ⟨.research,(Except.ok.inj hm).symm,rfl⟩
  | some name =>
    obtain ⟨b,rfl⟩ := hlabel name hvar
    rw [hvar] at hm
    cases b with
    | research => exact ⟨.research,(Except.ok.inj hm).symm,rfl⟩
    | production => exact ⟨.production,(Except.ok.inj hm).symm,rfl⟩

theorem NodeConfig.agrees_of_label (hn : fromEnv host = .ok n)
    (hm : modeProfileNamed dir (host.var "CONFLUX_MODE") = .ok m)
    (hlabel : ∀ name, host.var "CONFLUX_MODE" = some name → ∃ b : Mode, b.label = name) :
    n.Agrees host m := by
  obtain ⟨b,rfl,hmode⟩ := NodeHost.runtimeMode_of_label hm hlabel
  rw [agrees_iff hn, (fromEnv_ok hn).1, (fromEnv_ok hn).2, hmode]
  refine ⟨by cases b <;> decide,fun hunset => ?_⟩
  rw [NodeHost.allowStubClient_of_unset hunset, hmode]
  cases b <;> rfl

/-- Any other name is research to the node, which then allows a stub. -/
theorem NodeConfig.agrees_iff_of_custom (hn : fromEnv host = .ok n) {name : String}
    (hvar : host.var "CONFLUX_MODE" = some name) (hname : ∀ b : Mode, b.label ≠ name) :
    n.Agrees host m ↔ m.base = .research ∧
      (host.var "CONFLUX_ALLOW_STUB_CLIENT" = none → m.defaults.allowStubClient = true) := by
  have hmode : host.runtimeMode = .research := by
    rw [NodeHost.runtimeMode, hvar, if_neg]
    rintro ⟨⟩
    exact hname .production rfl
  rw [agrees_iff hn, (fromEnv_ok hn).1, (fromEnv_ok hn).2, hmode]
  refine and_congr ?_ (imp_congr_right fun hunset => ?_)
  · cases m.base <;> decide
  · rw [NodeHost.allowStubClient_of_unset hunset, hmode]
    exact eq_comm

/-- A node and a server with the same variables, the server accepting the mode and the node
starting: they agree exactly when the mode is unset or a builtin's, or the profile ends at
research and, unless a variable decides it, still allows a stub. -/
theorem NodeConfig.agrees_server_iff (server : Host τ) (node : NodeHost α)
    (hvar : node.var = server.var) (m : ModeProfile)
    (hm : modeProfileNamed server.profiles (server.var "CONFLUX_MODE") = .ok m)
    (n : NodeConfig α) (hn : fromEnv node = .ok n) :
    (∀ s, ServerConfig.fromEnv server = .ok s → s.mode = m.base) ∧
    (n.Agrees node m ↔
      (∀ name, server.var "CONFLUX_MODE" = some name → ∃ b : Mode, b.label = name) ∨
      m.base = .research ∧
        (server.var "CONFLUX_ALLOW_STUB_CLIENT" = none → m.defaults.allowStubClient = true)) := by
  refine ⟨fun s hs => ServerConfig.fromEnv_mode hs hm,?_⟩
  rw [← hvar] at hm ⊢
  by_cases hlabel : ∀ name, node.var "CONFLUX_MODE" = some name → ∃ b : Mode, b.label = name
  · exact iff_of_true (agrees_of_label hn hm hlabel) (.inl hlabel)
  · rw [or_iff_right hlabel]
    push Not at hlabel
    obtain ⟨name,hname,hcustom⟩ := hlabel
    exact agrees_iff_of_custom hn hname hcustom

/-- A production deployment with its own seed policy. -/
def strictProfiles : ProfileDir TomlScalar :=
  .single "hospital_production" "production" "seed_mode" (.str "fixed") (by decide)

def strictVar (name : String) : Option String :=
  if name = "CONFLUX_MODE" then some "hospital_production" else none

def strictServer : Host TomlScalar := ⟨strictVar,fun _ => strictProfiles,fun _ => .ok {}⟩

def strictNode : NodeHost String := ⟨strictVar,fun _ => .ok [],some⟩

theorem exists_strictMode : ∃ m, modeProfileNamed strictServer.profiles
    (strictServer.var "CONFLUX_MODE") = .ok m ∧ m.base = .production := by
  have hbase : ((modeProfileNamed strictServer.profiles
      (strictServer.var "CONFLUX_MODE")).toOption.map fun m => m.base) = some .production := by
    decide +kernel
  cases hm : modeProfileNamed strictServer.profiles (strictServer.var "CONFLUX_MODE") with
  | error e =>
    rw [hm] at hbase
    cases hbase
  | ok m =>
    rw [hm] at hbase
    exact ⟨m,rfl,Option.some.inj hbase⟩

theorem NodeConfig.agrees_server_iff_strict : ∃ (m : ModeProfile) (n : NodeConfig String),
    (∀ s, ServerConfig.fromEnv strictServer = .ok s → s.mode = m.base) ∧
    (n.Agrees strictNode m ↔
      (∀ name, strictServer.var "CONFLUX_MODE" = some name → ∃ b : Mode, b.label = name) ∨
      m.base = .research ∧ (strictServer.var "CONFLUX_ALLOW_STUB_CLIENT" = none →
        m.defaults.allowStubClient = true)) := by
  obtain ⟨m,hm,-⟩ := exists_strictMode
  exact ⟨m,_,agrees_server_iff strictServer strictNode rfl m hm _ rfl⟩

/-- The server runs in production; the node takes the mode for research and serves a stub. -/
theorem NodeConfig.not_agrees_strict : ∃ m n,
    modeProfileNamed strictServer.profiles (strictServer.var "CONFLUX_MODE") = .ok m ∧
    fromEnv strictNode = .ok n ∧ m.base = .production ∧ n.mode = .research ∧
    n.clientAppKind = .stub ∧ n.guard = .ok () ∧ ¬n.Agrees strictNode m := by
  obtain ⟨m,hm,hbase⟩ := exists_strictMode
  refine ⟨m,_,hm,rfl,hbase,rfl,rfl,rfl,fun h => ?_⟩
  have hmode := h.mode.mpr hbase
  cases hmode

end Agreement
end ConfluxFL
