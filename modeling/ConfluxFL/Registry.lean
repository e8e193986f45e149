import ConfluxFL.Lib.KeyedTable
import ConfluxFL.Proto

/-! Who the server knows: the registered clients with their last sign of life, and the
allow-list of nodes with the identity each of them must present. Both are the in-process
backends, which never fail; what a failing backend answers is an argument of the caller. -/
namespace ConfluxFL

inductive RegistryError where
  | alreadyRegistered (clientId : String)
  | notRegistered (clientId : String)
  | backend (message : String)
  deriving DecidableEq, Repr

def RegistryError.text : RegistryError → String
  | .alreadyRegistered clientId => s!"client {clientId} is already registered"
  | .notRegistered clientId => s!"client {clientId} is not registered"
  | .backend message => s!"registry backend error: {message}"

/-- What the registry knows about one client. Times are milliseconds of one monotonic clock. -/
structure ClientInfo where
  id : String
  registeredAt : ℕ
  lastHeartbeat : ℕ
  deriving DecidableEq, Repr

structure InMemoryRegistry where
  clients : KeyedTable String ClientInfo

namespace InMemoryRegistry

def new : InMemoryRegistry := ⟨.empty⟩

def register (r : InMemoryRegistry) (id : String) (now : ℕ) :
    Except RegistryError InMemoryRegistry :=
  match r.clients.lookup id with
  | some _ => .error (.alreadyRegistered id)
  | none => .ok ⟨r.clients.upsert id ⟨id,now,now⟩⟩

def heartbeat (r : InMemoryRegistry) (id : String) (now : ℕ) :
    Except RegistryError InMemoryRegistry :=
  match r.clients.lookup id with
  | some info => .ok ⟨r.clients.upsert id { info with lastHeartbeat := now }⟩
  | none => .error (.notRegistered id)

/-- The lifetime is in nanoseconds, as a `Duration` is. -/
def evictExpired (r : InMemoryRegistry) (ttl now : ℕ) : InMemoryRegistry :=
  ⟨r.clients.retain fun row => (now-row.2.lastHeartbeat)*10^6 < ttl⟩

end InMemoryRegistry

/-- What a node proves itself with. -/
inductive NodeIdentity where
  | certFingerprint (digest : String)
  | sharedToken (token : String)
  deriving DecidableEq, Repr

/-- Equality of byte strings that looks at every byte. -/
def constantTimeEq (a b : List UInt8) : Bool :=
  if a.length ≠ b.length then false
  else (a.zip b).foldl (fun diff p => diff|||(p.1^^^p.2)) 0 = 0

def NodeIdentity.matches : NodeIdentity → NodeIdentity → Bool
  | .certFingerprint a,.certFingerprint b =>
    constantTimeEq a.toByteArray.data.toList b.toByteArray.data.toList
  | .sharedToken a,.sharedToken b =>
    constantTimeEq a.toByteArray.data.toList b.toByteArray.data.toList
  | _,_ => false

inductive NodeAuthError where
  | backend (message : String)
  deriving DecidableEq, Repr

def NodeAuthError.text : NodeAuthError → String
  | .backend message => s!"node allow-list backend error: {message}"

structure InMemoryNodeAllowlist where
  entries : KeyedTable String NodeIdentity

namespace InMemoryNodeAllowlist

def new : InMemoryNodeAllowlist := ⟨.empty⟩

/-- Allowing a node again replaces its identity. -/
def allow (l : InMemoryNodeAllowlist) (id : String) (identity : NodeIdentity) :
    InMemoryNodeAllowlist := ⟨l.entries.upsert id identity⟩

def revoke (l : InMemoryNodeAllowlist) (id : String) : InMemoryNodeAllowlist :=
  ⟨l.entries.retain fun row => row.1 ≠ id⟩

def check (l : InMemoryNodeAllowlist) (id : String) (presented : NodeIdentity) : Bool :=
  (l.entries.lookup id).any fun stored => stored.matches presented

end InMemoryNodeAllowlist

section Matches

theorem or_eq_zero_iff (a b : UInt8) : a|||b = 0 ↔ a = 0 ∧ b = 0 := by
  rw [← UInt8.toBitVec_inj, ← UInt8.toBitVec_inj, ← UInt8.toBitVec_inj]
  exact BitVec.or_eq_zero_iff

/-- The accumulated difference is zero exactly when no byte differs. -/
theorem foldl_diff_eq_zero (ps : List (UInt8 × UInt8)) (diff : UInt8) :
    ps.foldl (fun diff p => diff|||(p.1^^^p.2)) diff = 0 ↔ diff = 0 ∧ ∀ p ∈ ps, p.1 = p.2 := by
  induction ps generalizing diff with
  | nil => simp
  | cons p ps ih =>
    rw [List.foldl_cons, ih, or_eq_zero_iff, UInt8.xor_eq_zero_iff, List.forall_mem_cons, and_assoc]

theorem constantTimeEq_iff (a b : List UInt8) : constantTimeEq a b = true ↔ a = b := by
  unfold constantTimeEq
  by_cases h : a.length = b.length
  · rw [if_neg (not_not.mpr h), decide_eq_true_iff, foldl_diff_eq_zero]
    constructor
    · rintro ⟨_,hall⟩
      refine List.ext_getElem h fun i ha hb => ?_
      have hmem : (a[i],b[i]) ∈ a.zip b := by
        rw [← List.getElem_zip (h := by rw [List.length_zip]; omega)]
        exact List.getElem_mem _
      exact hall _ hmem
    · rintro rfl
      refine ⟨rfl,fun p hp => ?_⟩
      obtain ⟨i,hi,rfl⟩ := List.mem_iff_getElem.mp hp
      rw [List.getElem_zip]
  · rw [if_pos h]
    constructor
    · intro hfalse
      cases hfalse
    · rintro rfl
      exact absurd rfl h

theorem NodeIdentity.matches_iff (a b : NodeIdentity) : a.matches b = true ↔ a = b := by
  have hbytes : ∀ s t : String,
      constantTimeEq s.toByteArray.data.toList t.toByteArray.data.toList = true ↔ s = t := by
    intro s t
    rw [constantTimeEq_iff, ← String.toByteArray_inj, ByteArray.ext_iff, Array.toList_inj]
  cases a with
  | certFingerprint s =>
    cases b with
    | certFingerprint t => rw [NodeIdentity.matches, hbytes, certFingerprint.injEq]
    | sharedToken t => simp [NodeIdentity.matches]
  | sharedToken s =>
    cases b with
    | certFingerprint t => simp [NodeIdentity.matches]
    | sharedToken t => rw [NodeIdentity.matches, hbytes, sharedToken.injEq]

/-- The check passes exactly for the identity the node was last allowed with. -/
theorem InMemoryNodeAllowlist.check_iff (l : InMemoryNodeAllowlist) (id : String)
    (presented : NodeIdentity) :
    l.check id presented = true ↔ l.entries.lookup id = some presented := by
  rw [check, Option.any_eq_true_iff_get]
  cases h : l.entries.lookup id with
  | none => simp
  | some stored => simp [NodeIdentity.matches_iff]

end Matches
end ConfluxFL
