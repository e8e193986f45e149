import ConfluxFL.Lib.Decimal
import ConfluxFL.Protocol.Admission
import ConfluxFL.Server.Startup

/-! The second port of a server. Beside the calls of clients, anybody may send requests to the
admin port, which lets through the holders of its token; both ports act on one registry and one
allow-list. -/
namespace ConfluxFL
open Run SocketText

inductive HttpMethod | get | head | post | delete | other
  deriving DecidableEq, Repr

/-- A request, with the path as it stands in the request line. `authorization` is the text of
that header, when it has one. -/
structure HttpRequest where
  method : HttpMethod
  path : String
  authorization : Option String
  body : List UInt8

/-- What a handler reads out of a request: the web framework's part. -/
structure Extractors where
  registerRequest : List UInt8 → Option String
  allowNodeRequest : List UInt8 → Option (String × NodeIdentity)
  pathSegment : String → Option String

inductive AdminRoute where
  | health
  | roundStatus
  | rounds
  | register
  | listAllowlist
  | allowNode
  | revokeNode (segment : String)

inductive Routing where
  | found (r : AdminRoute)
  | methodNotAllowed
  | notFound

/-- The last segment of a path under the allow-list. -/
def allowlistSegment (path : String) : Option String :=
  (Decimal.stripPrefix "/admin/allowlist/" path).filter fun segment =>
    segment ≠ "" && !segment.toList.contains '/'

def AdminRoute.onGet (r : AdminRoute) : HttpMethod → Routing
  | .get | .head => .found r
  | _ => .methodNotAllowed

def route (method : HttpMethod) (path : String) : Routing :=
  if path = "/health" then AdminRoute.health.onGet method
  else if path = "/round/status" then AdminRoute.roundStatus.onGet method
  else if path = "/rounds" then AdminRoute.rounds.onGet method
  else if path = "/clients/register" then
    if method = .post then .found .register else .methodNotAllowed
  else if path = "/admin/allowlist" then
    if method = .post then .found .allowNode else AdminRoute.listAllowlist.onGet method
  else
    match allowlistSegment path with
    | some segment => if method = .delete then .found (.revokeNode segment) else .methodNotAllowed
    | none => .notFound

inductive AdminPayload where
  | none
  | reading
  | accepted (accepted : Bool)
  | ok (ok : Bool)
  | clientIds (ids : List String)

structure HttpAnswer where
  code : ℕ
  payload : AdminPayload

def HttpAnswer.done (outage : Option String) : HttpAnswer :=
  if outage.isNone then ⟨200,.ok true⟩ else ⟨500,.ok false⟩

/-- A body or a path a handler cannot read. -/
def HttpAnswer.rejected : HttpAnswer := ⟨400,.none⟩

def AdminToken.matches (token candidate : String) : Bool :=
  constantTimeEq token.toByteArray.data.toList candidate.toByteArray.data.toList

def HttpRequest.bearer (r : HttpRequest) : Option String :=
  r.authorization.bind (Decimal.stripPrefix "Bearer ")

/-- The layer in front of every route. -/
def requireAdminToken (token : Option String) (r : HttpRequest) : Bool :=
  if r.path = "/health" then true
  else
    match token with
    | none => true
    | some token => r.bearer.any (AdminToken.matches token)

/-- The handlers, on the state behind them; `outage` is what a backend fails with, if it does. -/
def AdminRoute.handle (x : Extractors) (s : Dispatcher) (r : HttpRequest) (now : ℕ)
    (outage : Option String) : AdminRoute → Dispatcher × HttpAnswer
  | .health | .roundStatus | .rounds => (s,⟨200,.reading⟩)
  | .register =>
    match x.registerRequest r.body with
    | none => (s,.rejected)
    | some clientId =>
      match enroll s.registry clientId now outage with
      | .ok (_,registry) => ({ s with registry := registry },⟨200,.accepted true⟩)
      | .error _ => (s,⟨200,.accepted false⟩)
  | .allowNode =>
    match x.allowNodeRequest r.body with
    | none => (s,.rejected)
    | some (clientId,identity) =>
      (if outage.isNone then { s with allowlist := s.allowlist.allow clientId identity } else s,
        .done outage)
  | .revokeNode segment =>
    match x.pathSegment segment with
    | none => (s,.rejected)
    | some clientId =>
      (if outage.isNone then { s with allowlist := s.allowlist.revoke clientId } else s,
        .done outage)
  | .listAllowlist =>
    (s,if outage.isNone then ⟨200,.clientIds s.allowlist.entries.keys⟩ else ⟨500,.clientIds []⟩)

/-- Both ports. `served` lists the requests that reached a handler and is read by nothing. -/
structure Ports where
  dispatcher : Dispatcher
  served : List HttpRequest

/-- The events that come by way of the admin port. -/
def DispatcherEvent.isAdmin : DispatcherEvent → Bool
  | .allow .. | .revoke _ => true
  | _ => false

inductive PortEvent where
  | call (e : {e : DispatcherEvent // e.isAdmin = false})
  | request (r : HttpRequest) (now : ℕ) (outage : Option String)

namespace Ports

def start (store : AnyStore) : Ports := ⟨.start store .new,[]⟩

def onRequest (x : Extractors) (token : Option String) (s : Ports) (r : HttpRequest) (now : ℕ)
    (outage : Option String) : Ports × HttpAnswer :=
  if requireAdminToken token r then
    match route r.method r.path with
    | .found target =>
      let (dispatcher,answer) := target.handle x s.dispatcher r now outage
      (⟨dispatcher,s.served++[r]⟩,answer)
    | .methodNotAllowed => (s,⟨405,.none⟩)
    | .notFound => (s,⟨404,.none⟩)
  else (s,⟨401,.none⟩)

def step (g : Gates) (x : Extractors) (token : Option String) (s : Ports) : PortEvent → Ports
  | .call e => { s with dispatcher := s.dispatcher.step g e }
  | .request r now outage => (s.onRequest x token r now outage).1

end Ports

/-- The request asks for the node to be allowed with that identity. -/
def HttpRequest.Allows (x : Extractors) (r : HttpRequest) (clientId : String)
    (identity : NodeIdentity) : Prop :=
  route r.method r.path = .found .allowNode ∧ x.allowNodeRequest r.body = some (clientId,identity)

def HttpRequest.Registers (x : Extractors) (r : HttpRequest) (clientId : String) : Prop :=
  route r.method r.path = .found .register ∧ x.registerRequest r.body = some clientId

/-- The request carries the token. -/
def HttpRequest.Presents (r : HttpRequest) (token : String) : Prop :=
  r.authorization = some ("Bearer "++token)

section Token

theorem AdminToken.matches_iff (token candidate : String) :
    AdminToken.matches token candidate = true ↔ token = candidate := by
  rw [AdminToken.matches, constantTimeEq_iff, Array.toList_inj, ← ByteArray.ext_iff,
    String.toByteArray_inj]

/-- The layer lets a request through exactly when it asks for the health of the process, when
there is no token, or when it carries the token. -/
theorem requireAdminToken_iff {token : Option String} {r : HttpRequest} :
    requireAdminToken token r = true ↔
      r.path = "/health" ∨ ∀ t, token = some t → r.Presents t := by
  unfold requireAdminToken HttpRequest.bearer HttpRequest.Presents
  by_cases hpath : r.path = "/health"
  · simp [hpath]
  · rw [if_neg hpath, or_iff_right hpath]
    cases token with
    | none => simp
    | some t =>
      cases r.authorization with
      | none => simp
      | some text =>
        have hany : ((Decimal.stripPrefix "Bearer " text).any (AdminToken.matches t) = true) ↔
            Decimal.stripPrefix "Bearer " text = some t := by
          cases Decimal.stripPrefix "Bearer " text with
          | none => simp
          | some presented =>
            rw [Option.any_some, AdminToken.matches_iff, Option.some.injEq]
            exact eq_comm
        simp only [Option.bind_some, hany, Decimal.stripPrefix_eq_some_iff, Option.some.injEq,
          forall_eq']

end Token

section Steps
variable {g : Gates} {x : Extractors} {token : Option String} {s : Ports}

/-- A request either changes nothing or is served, after the layer let it through. -/
theorem Ports.onRequest_cases (s : Ports) (r : HttpRequest) (now : ℕ) (outage : Option String) :
    (s.onRequest x token r now outage).1 = s ∨
      ∃ target, requireAdminToken token r = true ∧ route r.method r.path = .found target ∧
        (s.onRequest x token r now outage).1 =
          ⟨(target.handle x s.dispatcher r now outage).1,s.served++[r]⟩ := by
  unfold Ports.onRequest
  by_cases hlayer : requireAdminToken token r = true
  · rw [if_pos hlayer]
    cases htarget : route r.method r.path with
    | found target => exact .inr ⟨target,hlayer,rfl,rfl⟩
    | methodNotAllowed => exact .inl rfl
    | notFound => exact .inl rfl
  · rw [if_neg hlayer]
    exact .inl rfl

theorem enroll_ok {registry registry' : InMemoryRegistry} {clientId : String} {now : ℕ}
    {outage : Option String} {answer : RegisterResponse}
    (h : enroll registry clientId now outage = .ok (answer,registry')) :
    ∀ id ∈ registry'.clients.keys, id = clientId ∨ id ∈ registry.clients.keys := by
  unfold enroll at h
  cases outage with
  | some message => cases h
  | none =>
    cases hlookup : registry.clients.lookup clientId with
    | some info =>
      simp only [InMemoryRegistry.register, hlookup] at h
      cases h
      exact fun id hid => .inr hid
    | none =>
      simp only [InMemoryRegistry.register, hlookup] at h
      cases h
      exact fun id hid => (KeyedTable.mem_keys_upsert _ _ _ _).mp hid

/-- What a served request may do: register one client, allow or revoke one, or nothing. -/
inductive Served (x : Extractors) (d : Dispatcher) (r : HttpRequest) : Dispatcher → Prop
  | reads : Served x d r d
  | registers {clientId : String} {registry : InMemoryRegistry} (asked : r.Registers x clientId)
      (added : ∀ id ∈ registry.clients.keys, id = clientId ∨ id ∈ d.registry.clients.keys) :
      Served x d r { d with registry := registry }
  | allows {clientId : String} {identity : NodeIdentity} (asked : r.Allows x clientId identity) :
      Served x d r { d with allowlist := d.allowlist.allow clientId identity }
  | revokes (clientId : String) : Served x d r { d with allowlist := d.allowlist.revoke clientId }

theorem handle_served {target : AdminRoute} {r : HttpRequest} (d : Dispatcher)
    (htarget : route r.method r.path = .found target) (now : ℕ) (outage : Option String) :
    Served x d r (target.handle x d r now outage).1 := by
  unfold AdminRoute.handle
  cases target with
  | register =>
    cases hasked : x.registerRequest r.body with
    | none => exact .reads
    | some clientId =>
      cases henroll : enroll d.registry clientId now outage with
      | error e =>
        simp only [henroll]
        exact .reads
      | ok answer =>
        simp only [henroll]
        exact .registers ⟨htarget,hasked⟩ (enroll_ok henroll)
  | allowNode =>
    cases hasked : x.allowNodeRequest r.body with
    | none => exact .reads
    | some pair =>
      dsimp only
      split
      · exact .allows ⟨htarget,hasked⟩
      · exact .reads
  | revokeNode segment =>
    dsimp only
    cases x.pathSegment segment with
    | none => exact .reads
    | some clientId =>
      dsimp only
      split
      · exact .revokes clientId
      · exact .reads
  | _ => exact .reads

theorem enroll_of_register {allowlist : InMemoryNodeAllowlist} {registry : InMemoryRegistry}
    {call : RegisterCall} {now : ℕ} {outage : Outage} {answer : RegisterResponse × InMemoryRegistry}
    (h : register g allowlist registry call now outage = .ok answer) :
    enroll registry call.clientId now outage.registry = .ok answer := by
  unfold register at h
  cases hjwt : verifyJwtIfRequired g.config.mode g.config.auth.value g.jwtKey call.authToken
      call.clientId with
  | error e =>
    rw [hjwt] at h
    cases h
  | ok u =>
    cases hnode : checkNodeAuth g allowlist call outage.allowlist with
    | error e =>
      rw [hjwt, hnode] at h
      cases h
    | ok u' =>
      rw [hjwt, hnode] at h
      exact h

/-- What a call of a client, or a move of the loop, may do to the registry and the allow-list. -/
theorem step_call (g : Gates) (d : Dispatcher) {e : DispatcherEvent} (he : e.isAdmin = false) :
    ((d.step g e).allowlist = d.allowlist ∨ (d.step g e).allowlist = .new) ∧
      ∀ id ∈ (d.step g e).registry.clients.keys,
        id ∈ d.registry.clients.keys ∨ (d.step g e).Registered id := by
  cases e with
  | register call now outage =>
    rw [Dispatcher.step, Dispatcher.onRegister]
    cases hok : register g d.allowlist d.registry call now outage with
    | error e => exact ⟨.inl rfl,fun id hid => .inl hid⟩
    | ok answer =>
      refine ⟨.inl rfl,fun id hid => ?_⟩
      have hadded := enroll_ok (enroll_of_register hok) id hid
      cases hadded with
      | inr hold => exact .inl hold
      | inl hnew =>
        exact .inr ⟨⟨call,d.allowlist⟩,List.mem_append_right _ (List.mem_singleton.mpr rfl),hnew.symm⟩
  | heartbeat clientId now =>
    rw [Dispatcher.step, Dispatcher.onHeartbeat]
    unfold InMemoryRegistry.heartbeat
    cases hlookup : d.registry.clients.lookup clientId with
    | none => exact ⟨.inl rfl,fun id hid => .inl hid⟩
    | some info =>
      refine ⟨.inl rfl,fun id hid => .inl ?_⟩
      exact (KeyedTable.eq_or_mem_keys_iff hlookup).mp ((KeyedTable.mem_keys_upsert _ _ _ _).mp hid)
  | evictExpired ttl now =>
    refine ⟨.inl rfl,fun id hid => .inl ?_⟩
    exact List.Subset.trans (List.filter_sublist.map Prod.fst).subset (List.Subset.refl _) hid
  | allow clientId identity => cases he
  | revoke clientId => cases he
  | submitDelta chunks =>
    rw [Dispatcher.step, Dispatcher.onSubmit]
    split <;> exact ⟨.inl rfl,fun id hid => .inl hid⟩
  | restarts durable =>
    cases durable with
    | true => exact ⟨.inl rfl,fun id hid => .inl hid⟩
    | false => exact ⟨.inr rfl,fun id hid => absurd hid List.not_mem_nil⟩
  | _ => exact ⟨.inl rfl,fun id hid => .inl hid⟩

end Steps
section Runs
variable {g : Gates} {x : Extractors} {token : Option String} {s : Ports}

/-- Somebody the layer let through asked for it. -/
def Ports.Asked (s : Ports) (P : HttpRequest → Prop) : Prop := ∃ r ∈ s.served, P r

theorem Ports.Asked.mono {P : HttpRequest → Prop} {t : Ports} (h : s.Asked P)
    (hserved : s.served ⊆ t.served) : t.Asked P := by
  obtain ⟨r,hr,hp⟩ := h
  exact ⟨r,hserved hr,hp⟩

/-- Whoever is on the allow-list or in the registry was put there by a request the layer let
through, or registered past the gates. -/
structure Ports.Vouched (g : Gates) (x : Extractors) (token : Option String) (s : Ports) :
    Prop where
  layer : ∀ r ∈ s.served, requireAdminToken token r = true
  allowed : ∀ id identity, s.dispatcher.allowlist.entries.lookup id = some identity →
    s.Asked fun r => r.Allows x id identity
  passed : ∀ a ∈ s.dispatcher.admissions, PassesGates g a.allowlist a.call
  admitted : g.config.requireNodeAuth.value = true → ∀ a ∈ s.dispatcher.admissions,
    s.Asked fun r => r.Allows x a.call.clientId a.call.presented
  registered : ∀ id ∈ s.dispatcher.registry.clients.keys,
    s.dispatcher.Registered id ∨ s.Asked fun r => r.Registers x id

theorem Ports.Vouched.call (h : s.Vouched g x token) {e : DispatcherEvent}
    (he : e.isAdmin = false) :
    Ports.Vouched g x token { s with dispatcher := s.dispatcher.step g e } := by
  obtain ⟨hallowlist,hkeys⟩ := step_call g s.dispatcher he
  refine ⟨h.layer,fun id identity hlookup => ?_,Dispatcher.passed_step h.passed e,
    fun hauth a ha => ?_,fun id hid => ?_⟩
  · cases hallowlist with
    | inl hsame =>
      rw [hsame] at hlookup
      exact h.allowed id identity hlookup
    | inr hnew =>
      rw [hnew] at hlookup
      cases hlookup
  · obtain hsame | ⟨call,hpasses,hsnoc⟩ := Dispatcher.admissions_step g s.dispatcher e
    · rw [hsame] at ha
      exact h.admitted hauth a ha
    · rw [hsnoc, List.mem_append, List.mem_singleton] at ha
      cases ha with
      | inl hold => exact h.admitted hauth a hold
      | inr hnew =>
        rw [hnew]
        exact h.allowed _ _ (hpasses.allowed hauth)
  · cases hkeys id hid with
    | inr hnow => exact .inl hnow
    | inl hold =>
      cases h.registered id hold with
      | inl hearlier => exact .inl (hearlier.step e)
      | inr hasked => exact .inr hasked

theorem Ports.Vouched.request (h : s.Vouched g x token) (r : HttpRequest) (now : ℕ)
    (outage : Option String) : (s.onRequest x token r now outage).1.Vouched g x token := by
  obtain hsame | ⟨target,hlayer,htarget,heq⟩ := @Ports.onRequest_cases x token s r now outage
  · rw [hsame]
    exact h
  · rw [heq]
    have hserved := handle_served (x := x) s.dispatcher htarget now outage
    revert hserved
    generalize (target.handle x s.dispatcher r now outage).1 = dispatcher
    intro hserved
    have hlast : r ∈ s.served++[r] := List.mem_append_right _ (List.mem_singleton.mpr rfl)
    have hmono : s.served ⊆ s.served++[r] := List.subset_append_left _ _
    have hlayers : ∀ r' ∈ s.served++[r], requireAdminToken token r' = true := by
      intro r' hr'
      rw [List.mem_append, List.mem_singleton] at hr'
      cases hr' with
      | inl hold => exact h.layer r' hold
      | inr hnew => rwa [hnew]
    have hallowed : ∀ id identity, s.dispatcher.allowlist.entries.lookup id = some identity →
        Ports.Asked ⟨dispatcher,s.served++[r]⟩ fun r => r.Allows x id identity :=
      fun id identity hlookup => (h.allowed id identity hlookup).mono hmono
    have hadmitted : g.config.requireNodeAuth.value = true → ∀ a ∈ s.dispatcher.admissions,
        Ports.Asked ⟨dispatcher,s.served++[r]⟩ fun r => r.Allows x a.call.clientId a.call.presented :=
      fun hauth a ha => (h.admitted hauth a ha).mono hmono
    have hregistered : ∀ id ∈ s.dispatcher.registry.clients.keys, s.dispatcher.Registered id ∨
        Ports.Asked ⟨dispatcher,s.served++[r]⟩ fun r => r.Registers x id :=
      fun id hid => (h.registered id hid).imp_right fun hasked => hasked.mono hmono
    cases hserved with
    | reads => exact ⟨hlayers,hallowed,h.passed,hadmitted,hregistered⟩
    | registers asked added =>
      refine ⟨hlayers,hallowed,h.passed,hadmitted,fun id hid => ?_⟩
      cases added id hid with
      | inl hnew => exact .inr ⟨r,hlast,hnew ▸ asked⟩
      | inr hold => exact hregistered id hold
    | @allows clientId identity asked =>
      refine ⟨hlayers,fun id identity' hlookup => ?_,h.passed,hadmitted,hregistered⟩
      rw [InMemoryNodeAllowlist.allow, KeyedTable.lookup_upsert] at hlookup
      split_ifs at hlookup with hid
      · cases hlookup
        exact ⟨r,hlast,hid ▸ asked⟩
      · exact hallowed id identity' hlookup
    | revokes clientId =>
      refine ⟨hlayers,fun id identity hlookup => ?_,h.passed,hadmitted,hregistered⟩
      rw [InMemoryNodeAllowlist.revoke, KeyedTable.lookup_retain_ne] at hlookup
      split_ifs at hlookup
      exact hallowed id identity hlookup

theorem vouched_run (g : Gates) (x : Extractors) (token : Option String) (store : AnyStore)
    (events : List PortEvent) :
    (after (Ports.step g x token) (Ports.start store) events).Vouched g x token := by
  refine after_of_kept (fun s : Ports => s.Vouched g x token) ⟨nofun,nofun,nofun,nofun,nofun⟩ ?_
  intro s e h
  cases e with
  | call e => exact h.call e.2
  | request r now outage => exact h.request r now outage

/-- The health route has no handler but its own. -/
theorem route_health {method : HttpMethod} {target : AdminRoute}
    (h : route method "/health" = .found target) : target = .health := by
  rw [route, if_pos rfl] at h
  cases method <;> cases h <;> rfl

/-- A request that changes something was served to a holder of the token. -/
theorem Ports.Vouched.presents {t : String} (h : s.Vouched g x (some t))
    {P : HttpRequest → Prop} (hasked : s.Asked P) {target : AdminRoute} (hne : target ≠ .health)
    (htarget : ∀ r, P r → route r.method r.path = .found target) :
    s.Asked fun r => r.Presents t ∧ P r := by
  obtain ⟨r,hr,hp⟩ := hasked
  refine ⟨r,hr,?_,hp⟩
  cases requireAdminToken_iff.mp (h.layer r hr) with
  | inr hpresents => exact hpresents t rfl
  | inl hhealth =>
    have hroute := htarget r hp
    rw [hhealth] at hroute
    exact absurd (route_health hroute) hne

/-- On a server whose start was not refused and whose admin port is reachable beyond loopback,
whatever calls and requests come in and in whatever order: nobody is on the allow-list, and with
an allow-list required nobody is admitted, but with the identity a holder of the admin token
asked for, and nobody is registered but past the gates or at such a holder's request. -/
theorem participants_vouched (g : Gates) (x : Extractors) (token : Option String)
    (addr : SocketAddr) (hstart : validateAdminBinding addr token = .ok ())
    (hexposed : addr.ip.isLoopback = false) (store : AnyStore) (events : List PortEvent) :
    let s := after (Ports.step g x token) (Ports.start store) events
    ∃ t, token = some t ∧
      (∀ id identity, s.dispatcher.allowlist.entries.lookup id = some identity →
        s.Asked fun r => r.Presents t ∧ r.Allows x id identity) ∧
      (g.config.requireNodeAuth.value = true → ∀ a ∈ s.dispatcher.admissions,
        s.Asked fun r => r.Presents t ∧ r.Allows x a.call.clientId a.call.presented) ∧
      ∀ id ∈ s.dispatcher.registry.clients.keys, s.dispatcher.Admitted g id ∨
        s.Asked fun r => r.Presents t ∧ r.Registers x id := by
  have h := vouched_run g x token store events
  generalize after (Ports.step g x token) (Ports.start store) events = s at h
  dsimp only
  cases token with
  | none => simp [validateAdminBinding, hexposed] at hstart
  | some t =>
    have hallow : AdminRoute.allowNode ≠ .health := nofun
    have hregister : AdminRoute.register ≠ .health := nofun
    refine ⟨t,rfl,fun id identity hlookup => ?_,fun hauth a ha => ?_,fun id hid => ?_⟩
    · exact h.presents (h.allowed id identity hlookup) hallow fun _ => And.left
    · exact h.presents (h.admitted hauth a ha) hallow fun _ => And.left
    · cases h.registered id hid with
      | inl hreg =>
        exact .inl ((Dispatcher.admitted_iff_registered h.passed id).mpr hreg)
      | inr hasked =>
        exact .inr (h.presents hasked hregister fun _ => And.left)

/-- All interfaces. -/
def exposedAddr : SocketAddr := ⟨.v4 0,8080,0⟩

/-- Extractors that read every body as ann's. -/
def annsExtractors : Extractors := ⟨fun _ => some "ann",fun _ => some ("ann",.sharedToken "k"),some⟩

/-- Ann is allowed by an operator, and registers. -/
def allowedThenRegisters : List PortEvent :=
  [.request ⟨.post,"/admin/allowlist",some "Bearer secret",[]⟩ 0 none,
    .call ⟨.register ⟨"ann","k",none⟩ 1 ⟨none,none⟩,rfl⟩]

theorem participants_vouched_allowedThenRegisters :
    validateAdminBinding exposedAddr (some "secret") = .ok () ∧
    exposedAddr.ip.isLoopback = false ∧
    let s := after (Ports.step Dispatcher.allowlistGates annsExtractors (some "secret"))
      (Ports.start (.inMemory (.new []))) allowedThenRegisters
    ∃ t, some "secret" = some t ∧
      (∀ id identity, s.dispatcher.allowlist.entries.lookup id = some identity →
        s.Asked fun r => r.Presents t ∧ r.Allows annsExtractors id identity) ∧
      (Dispatcher.allowlistGates.config.requireNodeAuth.value = true →
        ∀ a ∈ s.dispatcher.admissions,
          s.Asked fun r => r.Presents t ∧ r.Allows annsExtractors a.call.clientId a.call.presented) ∧
      ∀ id ∈ s.dispatcher.registry.clients.keys,
        s.dispatcher.Admitted Dispatcher.allowlistGates id ∨
          s.Asked fun r => r.Presents t ∧ r.Registers annsExtractors id :=
  ⟨rfl,rfl,participants_vouched _ _ _ exposedAddr rfl rfl _ _⟩

end Runs
end ConfluxFL
