import ConfluxFL.Config.Types
import ConfluxFL.Registry

/-! The two gates a registration passes: is the token genuine and the caller's own, and is the
caller on the allow-list. Decoding a token is what the key material does, by its own library. -/
namespace ConfluxFL

inductive JwtAlgorithm | rs256 | es256
  deriving DecidableEq, Repr

def JwtAlgorithm.label : JwtAlgorithm → String
  | .rs256 => "RS256"
  | .es256 => "ES256"

/-- The registered claims that are read. -/
structure Claims where
  sub : String
  exp : ℕ
  iat : Option ℕ
  deriving DecidableEq, Repr

/-- How decoding a token fails. -/
inductive JwtErrorKind where
  | expiredSignature
  | invalidSignature
  | invalidAlgorithm
  | other (message : String)
  deriving DecidableEq, Repr

/-- A public key with the one algorithm it verifies. `decode` checks signature, expiry and
structure of a token; `headerAlgorithm` only reads what its header says. -/
structure JwtKeyMaterial where
  algorithm : JwtAlgorithm
  decode : String → Except JwtErrorKind Claims
  headerAlgorithm : String → Option String

inductive JwtAuthError where
  | expired
  | badSignature
  | wrongAlgorithm (expected presented : String)
  | malformed (message : String)
  | subjectMismatch (tokenSub clientId : String)
  | productionRequiresJwtKey
  deriving DecidableEq, Repr

def JwtAuthError.text : JwtAuthError → String
  | .expired => "JWT is expired"
  | .badSignature => "JWT signature is not valid for the configured public key"
  | .wrongAlgorithm expected presented =>
    s!"JWT is signed with {presented}, but this deployment's key verifies {expected} — "++
      "refusing to verify a token that chose its own algorithm"
  | .malformed message => s!"JWT is malformed or missing a required claim: {message}"
  | .subjectMismatch tokenSub clientId =>
    s!"JWT is valid but issued for client {tokenSub}, not {clientId}"
  | .productionRequiresJwtKey =>
    "mode = production with auth = jwt requires a JWT public key (set "++
      "CONFLUX_JWT_PUBLIC_KEY_PATH) — refusing to start a production "++
      "deployment that would accept any auth_token without verifying it"

def verifyToken (key : JwtKeyMaterial) (token : String) : Except JwtAuthError Claims :=
  match key.decode token with
  | .ok claims => .ok claims
  | .error .expiredSignature => .error .expired
  | .error .invalidSignature => .error .badSignature
  | .error .invalidAlgorithm => .error (.wrongAlgorithm key.algorithm.label
      ((key.headerAlgorithm token).getD "an unreadable algorithm"))
  | .error (.other message) => .error (.malformed message)

def verifyTokenForClient (key : JwtKeyMaterial) (token clientId : String) :
    Except JwtAuthError Claims :=
  match verifyToken key token with
  | .error e => .error e
  | .ok claims =>
    if claims.sub ≠ clientId then .error (.subjectMismatch claims.sub clientId) else .ok claims

/-- Research accepts any token when there is no key to verify it with. -/
def verifyJwtIfRequired (mode : Mode) (auth : AuthMode) (key : Option JwtKeyMaterial)
    (presentedToken clientId : String) : Except JwtAuthError Unit :=
  if auth ≠ .jwt then .ok ()
  else
    match key,mode with
    | some key,_ => (verifyTokenForClient key presentedToken clientId).map fun _ => ()
    | none,.production => .error .productionRequiresJwtKey
    | none,.research => .ok ()

/-- What a registration brings: the id it claims and its credentials. -/
structure RegisterCall where
  clientId : String
  authToken : String
  peerCertFingerprint : Option String
  deriving DecidableEq, Repr

/-- A peer certificate, if the connection has one, else the token. -/
def RegisterCall.presented (call : RegisterCall) : NodeIdentity :=
  match call.peerCertFingerprint with
  | some fingerprint => .certFingerprint fingerprint
  | none => .sharedToken call.authToken

/-- What the registration path reads of a deployment. -/
structure Gates where
  config : ResolvedConfig
  jwtKey : Option JwtKeyMaterial

/-- How the two backends fail during a registration, if they do. -/
structure Outage where
  allowlist : Option String
  registry : Option String
  deriving DecidableEq, Repr

def checkNodeAuth (g : Gates) (allowlist : InMemoryNodeAllowlist) (call : RegisterCall)
    (outage : Option String) : Except DispatchError Unit :=
  if g.config.requireNodeAuth.value then
    match outage with
    | some message => .error (.other (NodeAuthError.backend message).text)
    | none =>
      if allowlist.check call.clientId call.presented then .ok ()
      else .error (.notAllowed call.clientId)
  else .ok ()

/-- The registry's part, after both gates. Registering again is a retry. -/
def enroll (registry : InMemoryRegistry) (clientId : String) (now : ℕ) (outage : Option String) :
    Except DispatchError (RegisterResponse × InMemoryRegistry) :=
  match outage with
  | some message => .error (.other (RegistryError.backend message).text)
  | none =>
    match registry.register clientId now with
    | .ok registry' => .ok (⟨true,"registered"⟩,registry')
    | .error (.alreadyRegistered _) => .ok (⟨true,"already registered"⟩,registry)
    | .error e => .error (.other e.text)

def register (g : Gates) (allowlist : InMemoryNodeAllowlist) (registry : InMemoryRegistry)
    (call : RegisterCall) (now : ℕ) (outage : Outage) :
    Except DispatchError (RegisterResponse × InMemoryRegistry) := do
  (verifyJwtIfRequired g.config.mode g.config.auth.value g.jwtKey call.authToken
    call.clientId).mapError fun e => .unauthenticated e.text
  checkNodeAuth g allowlist call outage.allowlist
  enroll registry call.clientId now outage.registry

/-- The token is genuine and its owner's, where there is a key to tell; the identity presented
is the one the allow-list has, where it counts. -/
structure PassesGates (g : Gates) (allowlist : InMemoryNodeAllowlist) (call : RegisterCall) :
    Prop where
  genuine : g.config.auth.value = .jwt → ∀ key, g.jwtKey = some key →
    ∃ claims, key.decode call.authToken = .ok claims ∧ claims.sub = call.clientId
  allowed : g.config.requireNodeAuth.value = true →
    allowlist.entries.lookup call.clientId = some call.presented

section Spec

theorem verifyToken_ok_iff {key : JwtKeyMaterial} {token : String} {claims : Claims} :
    verifyToken key token = .ok claims ↔ key.decode token = .ok claims := by
  unfold verifyToken
  split <;> simp_all

theorem verifyTokenForClient_ok_iff {key : JwtKeyMaterial} {token clientId : String}
    {claims : Claims} : verifyTokenForClient key token clientId = .ok claims ↔
      key.decode token = .ok claims ∧ claims.sub = clientId := by
  rw [← verifyToken_ok_iff]
  unfold verifyTokenForClient
  cases verifyToken key token with
  | error e => simp
  | ok claims' =>
    by_cases h : claims'.sub = clientId
    · simp only [h, ne_eq, not_true_eq_false, if_false, Except.ok.injEq]
      constructor
      · rintro rfl
        exact ⟨rfl,h⟩
      · exact And.left
    · simp only [ne_eq, h, not_false_eq_true, if_true, Except.ok.injEq]
      constructor
      · intro hfalse
        cases hfalse
      · rintro ⟨rfl,hsub⟩
        exact absurd hsub h

theorem genuine_of_verifyJwtIfRequired {g : Gates} {token clientId : String}
    (h : verifyJwtIfRequired g.config.mode g.config.auth.value g.jwtKey token clientId = .ok ()) :
    g.config.auth.value = .jwt → ∀ key, g.jwtKey = some key →
      ∃ claims, key.decode token = .ok claims ∧ claims.sub = clientId := by
  intro hjwt key hkey
  unfold verifyJwtIfRequired at h
  rw [if_neg (not_not.mpr hjwt), hkey] at h
  cases hv : verifyTokenForClient key token clientId with
  | error e =>
    simp only [hv] at h
    cases h
  | ok claims => exact ⟨claims,verifyTokenForClient_ok_iff.mp hv⟩

theorem allowed_of_checkNodeAuth {g : Gates} {allowlist : InMemoryNodeAllowlist}
    {call : RegisterCall} {outage : Option String}
    (h : checkNodeAuth g allowlist call outage = .ok ()) :
    g.config.requireNodeAuth.value = true →
      allowlist.entries.lookup call.clientId = some call.presented := by
  intro hrequired
  unfold checkNodeAuth at h
  rw [if_pos hrequired] at h
  cases outage with
  | some message => cases h
  | none =>
    by_cases hcheck : allowlist.check call.clientId call.presented = true
    · exact (allowlist.check_iff _ _).mp hcheck
    · simp only [hcheck] at h
      cases h

/-- Whoever is registered has passed the gates that are configured. -/
theorem passesGates_of_register {g : Gates} {allowlist : InMemoryNodeAllowlist}
    {registry : InMemoryRegistry} {call : RegisterCall} {now : ℕ} {outage : Outage}
    {answer : RegisterResponse × InMemoryRegistry}
    (h : register g allowlist registry call now outage = .ok answer) :
    PassesGates g allowlist call := by
  unfold register at h
  cases hjwt : verifyJwtIfRequired g.config.mode g.config.auth.value g.jwtKey call.authToken
      call.clientId with
  | error e =>
    rw [hjwt] at h
    cases h
  | ok u =>
    cases hnode : checkNodeAuth g allowlist call outage.allowlist with
    | error e =>
      rw [hjwt, hnode] at h
      cases h
    | ok u' => exact ⟨genuine_of_verifyJwtIfRequired hjwt,allowed_of_checkNodeAuth hnode⟩

end Spec
end ConfluxFL
