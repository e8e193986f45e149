import ConfluxFL.Core.Strategies
import ConfluxFL.Lib.SocketText
import ConfluxFL.Privacy.Mechanism
import ConfluxFL.Server.Auth
import ConfluxFL.Server.FromEnv

/-! How a server process starts: its configuration, the deployment material in its environment,
its backends and sidecar, and its two listeners, each a reason to refuse. What lies outside of
the process is a `Machine`. -/
namespace ConfluxFL
open Fallible SocketText

/-- What a variable holds: a text, or bytes that are none, with how these are displayed. -/
inductive OsString
  | text (s : String)
  | raw (bytes : List UInt8) (shown : String)
  deriving DecidableEq, Repr

def OsString.toStr : OsString → Option String
  | .text s => some s
  | .raw _ _ => none

def OsString.display : OsString → String
  | .text s => s
  | .raw _ shown => shown

inductive RegistryBackend
  | memory
  | redis (url : String)

inductive StoreBackend
  | memory
  | postgres (url : String)
  | s3 (endpoint bucket accessKey secretKey : String)

inductive AccountingBackend
  | disabled
  | postgres (url : String)

structure BackendSelection where
  registry : RegistryBackend
  store : StoreBackend
  accounting : AccountingBackend

structure TlsMaterial where
  certPem : List UInt8
  keyPem : List UInt8
  clientCaPem : List UInt8

structure SidecarCapabilities where
  supportsReferenceUpdate : Bool
  supportsScoring : Bool
  modelDim : Option ℕ
  description : String

/-- The environment of a process and what answers it from outside. -/
structure Machine (τ : Type) where
  varOs : String → Option OsString
  profileDir : OsString → ProfileDir τ
  /-- `load_experiment_file`, with the text of its error. -/
  experimentFile : OsString → Except String Overrides
  readFile : String → Except String (List UInt8)
  /-- `JwtKeyMaterial::from_public_key_pem`. -/
  publicKey : List UInt8 → Except String JwtKeyMaterial
  /-- Whether the TLS stack takes the material. -/
  tlsConfig : TlsMaterial → Except String Unit
  /-- Whether something accepts a TCP connection at a host and port. -/
  accepts : String → ℕ → Bool
  redisAllowlist : String → Except String Unit
  redisRegistry : String → Except String Unit
  postgres : String → Except String Unit
  s3 : String → String → String → String → Except String Unit
  /-- Connecting, and replaying the rounds that are there. -/
  accounting : String → Except String Unit
  /-- Connecting, and the answer to `Describe`. -/
  sidecar : String → Except String (Except String SidecarCapabilities)
  /-- Binding with no listener of this process in the way, and the address that was bound. -/
  bind : SocketAddr → Except String SocketAddr
  /-- The system's refusal of a second address beside one that is bound, if it has one. -/
  inUse : SocketAddr → SocketAddr → Option String
  /-- An address with a port of its own takes one listener. -/
  inUse_self : ∀ addr, addr.port ≠ 0 → (inUse addr addr).isSome

inductive ServerEnvError
  | missingCompanion (selection missing : String)
  | unreadable (var path source : String)
  | unusable (var path message : String)

inductive BackendSelectionError
  | productionRequiresDurableRegistry
  | productionRequiresDurableStore
  | productionRequiresPersistentAccounting

inductive AuthEnforcementError | productionRequiresMtlsMaterial

inductive AdminAuthError
  | exposedWithoutToken (addr : SocketAddr)

inductive AppStateError
  | backendSelection (e : BackendSelectionError)
  | nodeAuth (message : String)
  | registry (message : String)
  | store (message : String)

inductive SidecarError
  | unset (aggregator : String)
  | unreachable (addr message : String)
  | noDescribe (addr message : String)
  | noReferenceUpdates (addr description aggregator : String)
  | noScoring (addr description aggregator : String)
  | otherDimension (addr : String) (dim experimentDim : ℕ)

/-- Why a server does not start. -/
inductive StartupError
  /-- Reading the configuration, or a variable that holds something else than it should. -/
  | serve (e : ServeError)
  | env (e : ServerEnvError)
  | invalidConfiguration (findings : List Finding)
  | tls (e : AuthEnforcementError)
  | jwt (e : JwtAuthError)
  | appState (e : AppStateError)
  | sidecar (e : SidecarError)
  | bind (addr : SocketAddr) (flag var source : String)
  | adminBinding (e : AdminAuthError)
  | grpcTls (source : String)
  | panicked (message : String)

section FromVars
variable (readFile : String → Except String (List UInt8)) (get : String → Option String)

def requireVar (var selection : String) : Except ServerEnvError String :=
  match get var with
  | some value => .ok value
  | none => .error (.missingCompanion selection var)

def registryFromVars : Except ServerEnvError RegistryBackend :=
  match get "CONFLUX_REGISTRY_BACKEND" with
  | some "redis" =>
    .redis <$> requireVar get "CONFLUX_REDIS_URL" "CONFLUX_REGISTRY_BACKEND=redis"
  | _ => .ok .memory

def storeFromVars : Except ServerEnvError StoreBackend :=
  match get "CONFLUX_STORE_BACKEND" with
  | some "postgres" =>
    .postgres <$> requireVar get "CONFLUX_POSTGRES_URL" "CONFLUX_STORE_BACKEND=postgres"
  | some "s3" => do
    let endpoint ← requireVar get "CONFLUX_S3_ENDPOINT" "CONFLUX_STORE_BACKEND=s3"
    let bucket ← requireVar get "CONFLUX_S3_BUCKET" "CONFLUX_STORE_BACKEND=s3"
    let accessKey ← requireVar get "CONFLUX_S3_ACCESS_KEY" "CONFLUX_STORE_BACKEND=s3"
    let secretKey ← requireVar get "CONFLUX_S3_SECRET_KEY" "CONFLUX_STORE_BACKEND=s3"
    return .s3 endpoint bucket accessKey secretKey
  | _ => .ok .memory

def accountingFromVars : Except ServerEnvError AccountingBackend :=
  match get "CONFLUX_ACCOUNTING_PERSISTENCE" with
  | some "true" =>
    .postgres <$> requireVar get "CONFLUX_POSTGRES_URL" "CONFLUX_ACCOUNTING_PERSISTENCE=true"
  | _ => .ok .disabled

def backendSelectionFromVars : Except ServerEnvError BackendSelection := do
  let registry ← registryFromVars get
  let store ← storeFromVars get
  let accounting ← accountingFromVars get
  return ⟨registry,store,accounting⟩

/-- The path a variable holds and the file there. -/
def readPath (var : String) : Except ServerEnvError (Option (String × List UInt8)) :=
  match get var with
  | none => .ok none
  | some path => ((readFile path).map fun bytes => some (path,bytes)).mapError (.unreadable var path)

/-- All three files or nothing: a set with gaps is no error here. -/
def tlsMaterialFromVars : Except ServerEnvError (Option TlsMaterial) := do
  let cert ← readPath readFile get "CONFLUX_TLS_CERT_PATH"
  let key ← readPath readFile get "CONFLUX_TLS_KEY_PATH"
  let clientCa ← readPath readFile get "CONFLUX_TLS_CLIENT_CA_PATH"
  match cert,key,clientCa with
  | some (_,certPem),some (_,keyPem),some (_,clientCaPem) =>
    return some ⟨certPem,keyPem,clientCaPem⟩
  | _,_,_ => return none

end FromVars

def validateProductionBackends (mode : Mode) (b : BackendSelection) :
    Except BackendSelectionError Unit :=
  if mode ≠ .production then .ok ()
  else
    match b.registry,b.store,b.accounting with
    | .memory,_,_ => .error .productionRequiresDurableRegistry
    | _,.memory,_ => .error .productionRequiresDurableStore
    | _,_,.disabled => .error .productionRequiresPersistentAccounting
    | _,_,_ => .ok ()

/-- The material to bind with; nothing means plaintext. -/
def resolveServerTls (mode : Mode) (auth : AuthMode) (material : Option TlsMaterial) :
    Except AuthEnforcementError (Option TlsMaterial) :=
  if auth ≠ .mtls then .ok none
  else
    match material with
    | some material => .ok (some material)
    | none => if mode = .production then .error .productionRequiresMtlsMaterial else .ok none

def validateJwtStartup (mode : Mode) (auth : AuthMode) (key : Option JwtKeyMaterial) :
    Except JwtAuthError Unit :=
  if auth = .jwt ∧ key.isNone ∧ mode = .production then .error .productionRequiresJwtKey
  else .ok ()

def validateAdminBinding (addr : SocketAddr) (token : Option String) : Except AdminAuthError Unit :=
  if token.isSome ∨ addr.ip.isLoopback then .ok () else .error (.exposedWithoutToken addr)

def buildSelector (name : String) : Except String Unit :=
  if name = "uniform_random" then .ok () else .error name

def buildPrivacyMechanism (name : String) (clipNorm noiseMultiplier : F32) :
    Except String GaussianClippingPrivacy :=
  if name = "gaussian_clipping" then .ok ⟨clipNorm,noiseMultiplier⟩ else .error name

/-- `assemble` builds from three names, an unknown one being a panic. Of the aggregator the start
goes on to ask only what it needs of a sidecar. -/
def assembleStrategies (config : ResolvedConfig) : Except StartupError (Bool × Bool) := do
  (buildSelector config.selector.value).mapError fun _ =>
    .panicked "unknown selector in resolved config"
  let needs ← ((buildAggregator config.aggregator.value (.ofConfig config)).map
    AnyAggregator.needs).mapError fun _ => .panicked "unknown aggregator in resolved config"
  let _ ← (buildPrivacyMechanism config.privacyMechanism.value config.clipNorm.value
    config.noiseMultiplier.value).mapError fun _ =>
      .panicked "unknown privacy mechanism in resolved config"
  return needs

/-- `vec![0.0f32; dim]`: no allocation is larger than `isize::MAX` bytes. -/
def allocateWeights (dim : ℕ) : Except StartupError Unit :=
  if 4*dim < 2^63 then .ok () else .error (.panicked "capacity overflow")

def refuseInvalid (errors : List Finding) : Except StartupError Unit :=
  if errors ≠ [] then .error (.invalidConfiguration errors) else .ok ()

/-- The addresses of the two listeners. -/
structure ServerListeners where
  grpc : SocketAddr
  http : SocketAddr

namespace Machine
variable {τ : Type} (m : Machine τ)

/-- `std::env::var`, which shows no bytes that are no text. -/
def var (name : String) : Option String := (m.varOs name).bind OsString.toStr

/-- What the server reads its configuration from. -/
def host : Host τ :=
  ⟨m.var,fun dir => m.profileDir (.text dir),fun path => m.experimentFile (.text path)⟩

def tlsMaterialFromEnv : Except ServerEnvError (Option TlsMaterial) :=
  tlsMaterialFromVars m.readFile m.var

def jwtKeyFromEnv : Except ServerEnvError (Option JwtKeyMaterial) := do
  match ← readPath m.readFile m.var "CONFLUX_JWT_PUBLIC_KEY_PATH" with
  | none => return none
  | some (path,pem) =>
    ((m.publicKey pem).map some).mapError (.unusable "CONFLUX_JWT_PUBLIC_KEY_PATH" path)

def trustedReferenceAddr : Option String := m.var "CONFLUX_TRUSTED_REFERENCE_ADDR"

/-- A token that is empty is none. -/
def adminToken : Option String := (m.var "CONFLUX_ADMIN_TOKEN").filter (· ≠ "")

/-- The allow-list follows the registry. -/
def connectRegistry : RegistryBackend → Except AppStateError Unit
  | .memory => .ok ()
  | .redis url => do
    (m.redisAllowlist url).mapError .nodeAuth
    (m.redisRegistry url).mapError .registry

def connectStore : StoreBackend → Except AppStateError Unit
  | .memory => .ok ()
  | .postgres url => (m.postgres url).mapError .store
  | .s3 endpoint bucket accessKey secretKey =>
    (m.s3 endpoint bucket accessKey secretKey).mapError .store

def connectAccounting : AccountingBackend → Except AppStateError Unit
  | .disabled => .ok ()
  | .postgres url => (m.accounting url).mapError .store

def connectBackends (b : BackendSelection) : Except AppStateError Unit := do
  m.connectRegistry b.registry
  m.connectStore b.store
  m.connectAccounting b.accounting

/-- `AppState::connect`. -/
def connect (config : ResolvedConfig) (mode : Mode) (b : BackendSelection) :
    Except StartupError (Bool × Bool) := do
  (validateProductionBackends mode b).mapError fun e => .appState (.backendSelection e)
  (m.connectBackends b).mapError .appState
  assembleStrategies config

/-- Connects to a sidecar and asks what it can do. -/
def describe (addr : String) : Except SidecarError SidecarCapabilities := do
  let answer ← (m.sidecar addr).mapError (.unreachable addr)
  answer.mapError (.noDescribe addr)

/-- The address, the handshake, then what the aggregator needs and the dimension if there is
one stated. -/
def connectTrustedReference (aggregator : String) (needs : Bool × Bool) (initialWeightsDim : ℕ) :
    Except SidecarError Unit :=
  match m.trustedReferenceAddr with
  | none => .error (.unset aggregator)
  | some addr => do
    let capabilities ← m.describe addr
    if needs.1 ∧ ¬capabilities.supportsReferenceUpdate then
      .error (.noReferenceUpdates addr capabilities.description aggregator)
    else if needs.2 ∧ ¬capabilities.supportsScoring then
      .error (.noScoring addr capabilities.description aggregator)
    else
      match capabilities.modelDim with
      | some dim =>
        if dim ≠ initialWeightsDim then .error (.otherDimension addr dim initialWeightsDim)
        else .ok ()
      | none => .ok ()

/-- A variable's address, or a literal one where it is unset. -/
def listenAddr (var literal : String) : Except StartupError SocketAddr :=
  match m.var var with
  | some value =>
    match parse value with
    | some addr => .ok addr
    | none => .error (.serve (.invalidVar var value))
  | none =>
    match parse literal with
    | some addr => .ok addr
    | none => .error (.panicked "a literal address")

def grpcAddr : Except StartupError SocketAddr :=
  m.listenAddr "CONFLUX_GRPC_ADDR" "127.0.0.1:50051"

def httpAddr : Except StartupError SocketAddr :=
  m.listenAddr "CONFLUX_HTTP_ADDR" "127.0.0.1:8080"

/-- Binding while the process holds some listeners already. -/
def bindBeside (held : List SocketAddr) (addr : SocketAddr) : Except String SocketAddr :=
  match held.findSome? (m.inUse · addr) with
  | some source => .error source
  | none => m.bind addr

/-- The caller's listeners, or two that are bound here, one after the other. -/
def listen : Option ServerListeners → Except StartupError ServerListeners
  | some listeners => .ok listeners
  | none => do
    let grpc ← m.grpcAddr
    let http ← m.httpAddr
    let grpc ← (m.bindBeside [] grpc).mapError (.bind grpc "--grpc-addr" "CONFLUX_GRPC_ADDR")
    let http ← (m.bindBeside [grpc] http).mapError (.bind http "--http-addr" "CONFLUX_HTTP_ADDR")
    return ⟨grpc,http⟩

/-- A sidecar is connected to when the aggregator has a need of it. -/
def attachSidecar (aggregator : String) (needs : Bool × Bool) (initialWeightsDim : ℕ) :
    Except SidecarError Unit :=
  if needs.1 ∨ needs.2 then m.connectTrustedReference aggregator needs initialWeightsDim
  else .ok ()

/-- The builder takes the material, if there is any to bind with. -/
def configureTls : Option TlsMaterial → Except String Unit
  | some material => m.tlsConfig material
  | none => .ok ()

/-- `serve`, up to where its tasks are spawned. -/
def serve (listeners : Option ServerListeners) (s : ServerConfig) :
    Except StartupError ServerListeners := do
  let config := s.resolved
  refuseInvalid config.validateWithNames.errors
  let material ← m.tlsMaterialFromEnv.mapError .env
  let tls ← (resolveServerTls s.mode config.auth.value material).mapError .tls
  let key ← m.jwtKeyFromEnv.mapError .env
  (validateJwtStartup s.mode config.auth.value key).mapError .jwt
  allocateWeights s.initialWeightsDim
  let backends ← (backendSelectionFromVars m.var).mapError .env
  let needs ← m.connect config s.mode backends
  (m.attachSidecar config.aggregator.value needs s.initialWeightsDim).mapError .sidecar
  let listeners ← m.listen listeners
  (validateAdminBinding listeners.http m.adminToken).mapError .adminBinding
  (m.configureTls tls).mapError .grpcTls
  return listeners

/-- What the server binary does with its environment. -/
def runFromEnv [TomlValue τ] : Except StartupError ServerListeners := do
  let s ← (ServerConfig.fromEnv m.host).mapError .serve
  m.serve none s

/-- The TLS material and the JWT key can be read, and are what the mode and `auth` ask for. -/
structure AuthReady (mode : Mode) (auth : AuthMode) : Prop where
  tls : ∃ material tls, m.tlsMaterialFromEnv = .ok material ∧
    resolveServerTls mode auth material = .ok tls
  jwt : ∃ key, m.jwtKeyFromEnv = .ok key ∧ validateJwtStartup mode auth key = .ok ()

/-- The variables select these backends, and the mode permits them. -/
structure Selects (mode : Mode) (b : BackendSelection) : Prop where
  selected : backendSelectionFromVars m.var = .ok b
  permitted : validateProductionBackends mode b = .ok ()

/-- These capabilities are what the sidecar of an aggregator with needs answers with. -/
def Answers (aggregator : String) (capabilities : SidecarCapabilities) : Prop :=
  (aggregator = "fltrust" ∨ aggregator = "zeno") ∧
    ∃ addr, m.trustedReferenceAddr = some addr ∧ m.describe addr = .ok capabilities

/-- An aggregator with needs has a sidecar that meets them. -/
def SidecarServes (aggregator : String) : Prop :=
  aggregator = "fltrust" ∨ aggregator = "zeno" → ∃ capabilities,
    m.Answers aggregator capabilities ∧
      (aggregator = "fltrust" → capabilities.supportsReferenceUpdate = true) ∧
      (aggregator = "zeno" → capabilities.supportsScoring = true)

/-- No sidecar states another dimension than the experiment's. -/
def DimensionAgrees (aggregator : String) (initialWeightsDim : ℕ) : Prop :=
  ∀ capabilities, m.Answers aggregator capabilities →
    ∀ dim, capabilities.modelDim = some dim → dim = initialWeightsDim

/-- All that a start takes. -/
structure Starts (s : ServerConfig) (listeners : ServerListeners) : Prop where
  valid : s.resolved.validateWithNames.errors = []
  auth : m.AuthReady s.mode s.resolved.auth.value
  tls : ∀ material, m.tlsMaterialFromEnv = .ok (some material) → s.resolved.auth.value = .mtls →
    m.tlsConfig material = .ok ()
  weights : 4*s.initialWeightsDim < 2^63
  backends : ∃ b, m.Selects s.mode b ∧ m.connectBackends b = .ok ()
  sidecar : m.SidecarServes s.resolved.aggregator.value
  dimension : m.DimensionAgrees s.resolved.aggregator.value s.initialWeightsDim
  listens : m.listen none = .ok listeners
  admin : validateAdminBinding listeners.http m.adminToken = .ok ()

end Machine

section Spec
variable {τ : Type} {m : Machine τ}

theorem refuseInvalid_ok_iff {errors : List Finding} :
    refuseInvalid errors = .ok () ↔ errors = [] := by
  unfold refuseInvalid
  split_ifs <;> simp_all

theorem allocateWeights_ok_iff {dim : ℕ} : allocateWeights dim = .ok () ↔ 4*dim < 2^63 := by
  unfold allocateWeights
  split_ifs <;> simp_all

/-- What is bound with is the material, where `auth` asks for it. -/
theorem configureTls_ok_iff {mode : Mode} {auth : AuthMode} {material tls : Option TlsMaterial}
    (h : resolveServerTls mode auth material = .ok tls) : m.configureTls tls = .ok () ↔
      ∀ t, material = some t → auth = .mtls → m.tlsConfig t = .ok () := by
  unfold resolveServerTls at h
  by_cases hauth : auth = .mtls
  · cases material with
    | none =>
      have htls : tls = none := by
        simp only [hauth] at h
        split_ifs at h <;> simp_all
      simp [htls, Machine.configureTls]
    | some t =>
      rw [if_neg (not_not.mpr hauth)] at h
      obtain rfl := Except.ok.inj h
      simp [Machine.configureTls, hauth]
  · rw [if_pos hauth] at h
    obtain rfl := Except.ok.inj h
    simp [Machine.configureTls, hauth]

/-- A configuration whose names are registered is assembled without a panic. -/
theorem assembleStrategies_ok {config : ResolvedConfig} (h : config.validateWithNames.errors = []) :
    assembleStrategies config = .ok (decide (config.aggregator.value = "fltrust"),
      decide (config.aggregator.value = "zeno")) := by
  obtain ⟨-,haggregator,hselector,hprivacy⟩ :=
    ResolvedConfig.validateWithNames_errors_iff.mp h
  obtain ⟨a,ha⟩ := buildAggregator_of_registered haggregator (.ofConfig config)
  have hs : config.selector.value = "uniform_random" := List.mem_singleton.mp hselector
  have hp : config.privacyMechanism.value = "gaussian_clipping" := List.mem_singleton.mp hprivacy
  simp only [assembleStrategies, buildSelector, hs, buildPrivacyMechanism, hp, if_true, ha,
    ← needs_of_buildAggregator ha]
  rfl

theorem Machine.connect_ok_iff {config : ResolvedConfig} {mode : Mode} {b : BackendSelection}
    {needs : Bool × Bool} (h : config.validateWithNames.errors = []) :
    m.connect config mode b = .ok needs ↔ validateProductionBackends mode b = .ok () ∧
      m.connectBackends b = .ok () ∧ needs = (decide (config.aggregator.value = "fltrust"),
        decide (config.aggregator.value = "zeno")) := by
  simp only [connect, except_bind_ok_iff, mapError_ok_iff, assembleStrategies_ok h, Except.ok.injEq,
    Unique.exists_iff, PUnit.default_eq_unit]
  rw [@eq_comm _ needs]

theorem Machine.connectTrustedReference_ok_iff {aggregator : String} {needs : Bool × Bool}
    {dim : ℕ} : m.connectTrustedReference aggregator needs dim = .ok () ↔
      ∃ addr capabilities, m.trustedReferenceAddr = some addr ∧
        m.describe addr = .ok capabilities ∧
        (needs.1 = true → capabilities.supportsReferenceUpdate = true) ∧
        (needs.2 = true → capabilities.supportsScoring = true) ∧
        ∀ stated, capabilities.modelDim = some stated → stated = dim := by
  unfold connectTrustedReference
  cases haddr : m.trustedReferenceAddr with
  | none => simp
  | some addr =>
    simp only [except_bind_ok_iff, Option.some.injEq]
    rw [exists_comm, exists_congr fun capabilities => exists_eq_left']
    refine exists_congr fun capabilities => and_congr_right fun _ => ?_
    split_ifs with href hscore
    · simp_all
    · simp_all
    · cases hdim : capabilities.modelDim with
      | none => simp_all
      | some stated => simp_all

/-- The two aggregators with needs are served; all others are left alone. -/
theorem Machine.attachSidecar_ok_iff {aggregator : String} {dim : ℕ} :
    m.attachSidecar aggregator (decide (aggregator = "fltrust"),decide (aggregator = "zeno")) dim =
      .ok () ↔ m.SidecarServes aggregator ∧ m.DimensionAgrees aggregator dim := by
  unfold attachSidecar SidecarServes DimensionAgrees Answers
  simp only [decide_eq_true_eq]
  by_cases hneeds : aggregator = "fltrust" ∨ aggregator = "zeno"
  · rw [if_pos hneeds, connectTrustedReference_ok_iff]
    simp only [decide_eq_true_eq, hneeds, forall_const, true_and]
    constructor
    · rintro ⟨addr,capabilities,haddr,hdescribe,href,hscore,hdim⟩
      refine ⟨⟨capabilities,⟨addr,haddr,hdescribe⟩,href,hscore⟩,?_⟩
      rintro capabilities' ⟨addr',haddr',hdescribe'⟩
      obtain rfl := Option.some.inj (haddr.symm.trans haddr')
      obtain rfl := Except.ok.inj (hdescribe.symm.trans hdescribe')
      exact hdim
    · rintro ⟨⟨capabilities,⟨addr,haddr,hdescribe⟩,href,hscore⟩,hdim⟩
      exact ⟨addr,capabilities,haddr,hdescribe,href,hscore,
        hdim capabilities ⟨addr,haddr,hdescribe⟩⟩
  · simp [hneeds]

theorem Machine.bindBeside_nil (addr : SocketAddr) : m.bindBeside [] addr = m.bind addr := rfl

theorem Machine.bindBeside_ok_iff {held addr bound : SocketAddr} :
    m.bindBeside [held] addr = .ok bound ↔ m.inUse held addr = none ∧ m.bind addr = .ok bound := by
  rw [bindBeside, List.findSome?_singleton]
  cases m.inUse held addr <;> simp

/-- `serve` reaches its tasks exactly when nothing gives it a reason to refuse. -/
theorem Machine.serve_ok_iff {s : ServerConfig} {listeners : ServerListeners} :
    m.serve none s = .ok listeners ↔ m.Starts s listeners := by
  simp only [serve, except_bind_ok_iff, mapError_ok_iff, Unique.exists_iff,
    PUnit.default_eq_unit, refuseInvalid_ok_iff, allocateWeights_ok_iff]
  constructor
  · rintro ⟨hvalid,material,hmaterial,tls,htls,key,hkey,hjwt,hweights,b,hb,needs,hconnect,
      hsidecar,listeners',hlistens,hadmin,hconfigure,hreturn⟩
    obtain rfl := Except.ok.inj hreturn
    obtain ⟨hpermitted,hbackends,rfl⟩ := (connect_ok_iff hvalid).mp hconnect
    obtain ⟨hserves,hdim⟩ := attachSidecar_ok_iff.mp hsidecar
    refine ⟨hvalid,⟨⟨material,tls,hmaterial,htls⟩,key,hkey,hjwt⟩,?_,hweights,
      ⟨b,⟨hb,hpermitted⟩,hbackends⟩,hserves,hdim,hlistens,hadmin⟩
    intro t ht
    refine (configureTls_ok_iff htls).mp hconfigure t ?_
    exact Except.ok.inj (hmaterial.symm.trans ht)
  · intro h
    obtain ⟨⟨material,tls,hmaterial,htls⟩,key,hkey,hjwt⟩ := h.auth
    obtain ⟨b,hselects,hbackends⟩ := h.backends
    refine ⟨h.valid,material,hmaterial,tls,htls,key,hkey,hjwt,h.weights,b,hselects.selected,_,
      (connect_ok_iff h.valid).mpr ⟨hselects.permitted,hbackends,rfl⟩,
      attachSidecar_ok_iff.mpr ⟨h.sidecar,h.dimension⟩,listeners,h.listens,h.admin,
      (configureTls_ok_iff htls).mpr ?_,rfl⟩
    rintro t rfl
    exact h.tls t hmaterial

end Spec
end ConfluxFL
