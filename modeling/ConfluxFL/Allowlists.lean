import ConfluxFL.Registry
import ConfluxFL.Lib.Decimal
import ConfluxFL.Lib.LastWrite
import ConfluxFL.Lib.Calls

/-! The allow-list backends side by side. The in-process one keeps identities, the Redis one a
hash of tagged texts; a Redis that answers is taken for granted. -/
namespace ConfluxFL
open LastWrite Transcript

/-- An identity as the one text a hash field holds. -/
def NodeIdentity.encode : NodeIdentity → String
  | .certFingerprint fp => "cert:"++fp
  | .sharedToken tok => "token:"++tok

def NodeIdentity.decode (raw : String) : Option NodeIdentity :=
  match Decimal.stripPrefix "cert:" raw with
  | some fp => some (.certFingerprint fp)
  | none => (Decimal.stripPrefix "token:" raw).map .sharedToken

/-- No text has both tags, so the tag that was put on is the one that is found. -/
theorem NodeIdentity.decode_encode (identity : NodeIdentity) :
    decode identity.encode = some identity := by
  cases identity with
  | certFingerprint fp => rw [encode, decode, Decimal.stripPrefix_append]
  | sharedToken tok =>
    have hcert : Decimal.stripPrefix "cert:" ("token:"++tok) = none := by
      rw [Decimal.stripPrefix, String.toList_append]
      rfl
    rw [encode, decode, hcert, Decimal.stripPrefix_append]
    rfl

structure RedisNodeAllowlist where
  hash : KeyedTable String String

namespace RedisNodeAllowlist

def new : RedisNodeAllowlist := ⟨.empty⟩

def allow (l : RedisNodeAllowlist) (id : String) (identity : NodeIdentity) : RedisNodeAllowlist :=
  ⟨l.hash.upsert id identity.encode⟩

def revoke (l : RedisNodeAllowlist) (id : String) : RedisNodeAllowlist :=
  ⟨l.hash.retain fun row => row.1 ≠ id⟩

def check (l : RedisNodeAllowlist) (id : String) (presented : NodeIdentity) : Bool :=
  ((l.hash.lookup id).bind NodeIdentity.decode).any fun stored => stored.matches presented

end RedisNodeAllowlist

/-- The trait both backends implement. A listing comes in whatever order the backend keeps its
clients in; `ids` are the clients of it. -/
class NodeAllowlist (σ : Type) where
  allow : σ → String → NodeIdentity → σ
  revoke : σ → String → σ
  check : σ → String → NodeIdentity → Bool
  ids : σ → List String

instance : NodeAllowlist InMemoryNodeAllowlist :=
  ⟨InMemoryNodeAllowlist.allow,InMemoryNodeAllowlist.revoke,InMemoryNodeAllowlist.check,
    fun l => l.entries.keys⟩

instance : NodeAllowlist RedisNodeAllowlist :=
  ⟨RedisNodeAllowlist.allow,RedisNodeAllowlist.revoke,RedisNodeAllowlist.check,
    fun l => l.hash.keys⟩

inductive AllowlistCall where
  | allow (id : String) (identity : NodeIdentity)
  | revoke (id : String)
  | check (id : String) (presented : NodeIdentity)
  | list

inductive AllowlistAnswer where
  | done
  | verdict (passes : Bool)
  | clients (listing : List String)

namespace AllowlistAnswer

/-- Listings are compared as sets. -/
def Same : AllowlistAnswer → AllowlistAnswer → Prop
  | .clients l,.clients l' => ∀ c, c ∈ l ↔ c ∈ l'
  | a,b => a = b

end AllowlistAnswer

namespace AllowlistCall
variable {σ : Type} [NodeAllowlist σ]

def step (l : σ) : AllowlistCall → σ
  | .allow id identity => NodeAllowlist.allow l id identity
  | .revoke id => NodeAllowlist.revoke l id
  | .check _ _ | .list => l

/-- The answers a call can get. -/
def Answers (l : σ) : AllowlistCall → AllowlistAnswer → Prop
  | .check id presented,a => a = .verdict (NodeAllowlist.check l id presented)
  | .list,a => ∃ listing : List String, listing.Perm (NodeAllowlist.ids l) ∧ a = .clients listing
  | _,a => a = .done

/-- The calls that decide whether a client is allowed. -/
def Touches (id : String) : AllowlistCall → Prop
  | .allow id' _ | .revoke id' => id' = id
  | _ => False

/-- What a call leaves on record for the client it touches. -/
def written : AllowlistCall → Option NodeIdentity
  | .allow _ identity => some identity
  | _ => none

/-- The answers along a list of calls. -/
def Replies (l : σ) (calls : List AllowlistCall) (as : List AllowlistAnswer) : Prop :=
  Gives step Answers l calls as

theorem exists_answer (l : σ) (call : AllowlistCall) : ∃ a, Answers l call a := by
  cases call with
  | list => exact ⟨_,NodeAllowlist.ids l,List.Perm.refl _,rfl⟩
  | _ => exact ⟨_,rfl⟩

end AllowlistCall

namespace InMemoryNodeAllowlist
open AllowlistCall
variable (l : InMemoryNodeAllowlist) (id : String)

/-- What is on record for a client after any calls: the identity of the last call that touched
it, unless that call was a revocation. -/
theorem lookup_after (calls : List AllowlistCall) (identity : NodeIdentity) :
    (Run.after step new calls).entries.lookup id = some identity ↔
      ∃ call, LastOf (Touches id) calls call ∧ call.written = some identity := by
  refine cell_after (fun l : InMemoryNodeAllowlist => l.entries.lookup id) written ?_ ?_ rfl
  · intro l call h
    cases call with
    | allow id' identity' => exact (l.entries.lookup_upsert id' id identity').trans (if_pos h.symm)
    | revoke id' => exact (l.entries.lookup_retain_ne id' id).trans (if_pos h.symm)
    | check _ _ | list => exact h.elim
  · intro l call h
    cases call with
    | allow id' identity' =>
      exact (l.entries.lookup_upsert id' id identity').trans (if_neg (Ne.symm h))
    | revoke id' => exact (l.entries.lookup_retain_ne id' id).trans (if_neg (Ne.symm h))
    | check _ _ | list => rfl

end InMemoryNodeAllowlist

/-- The hash holds the encoding of what the in-process map holds, for every client. -/
def Mirrors (l : InMemoryNodeAllowlist) (r : RedisNodeAllowlist) : Prop :=
  ∀ c, r.hash.lookup c = (l.entries.lookup c).map NodeIdentity.encode

namespace Mirrors
open AllowlistCall
variable {l : InMemoryNodeAllowlist} {r : RedisNodeAllowlist}

theorem check_eq (h : Mirrors l r) (id : String) (presented : NodeIdentity) :
    r.check id presented = l.check id presented := by
  rw [RedisNodeAllowlist.check, InMemoryNodeAllowlist.check, h id]
  cases l.entries.lookup id with
  | none => rfl
  | some stored => rw [Option.map_some, Option.bind_some, NodeIdentity.decode_encode]

theorem mem_keys_iff (h : Mirrors l r) (c : String) : c ∈ r.hash.keys ↔ c ∈ l.entries.keys := by
  have hnone : r.hash.lookup c = none ↔ l.entries.lookup c = none := by
    rw [h c, Option.map_eq_none_iff]
  rw [KeyedTable.lookup_eq_none_iff, KeyedTable.lookup_eq_none_iff] at hnone
  exact not_iff_not.mp hnone

/-- Related backends give the same answers. -/
theorem same (h : Mirrors l r) {call : AllowlistCall} {a b : AllowlistAnswer}
    (ha : Answers l call a) (hb : Answers r call b) : a.Same b := by
  cases call with
  | allow id identity | revoke id =>
    obtain rfl : a = _ := ha
    obtain rfl : b = _ := hb
    rfl
  | check id presented =>
    obtain rfl : a = _ := ha
    obtain rfl : b = _ := hb
    exact congrArg AllowlistAnswer.verdict (h.check_eq id presented).symm
  | list =>
    obtain ⟨m,hm,rfl⟩ := ha
    obtain ⟨m',hm',rfl⟩ := hb
    exact fun c => hm.mem_iff.trans ((h.mem_keys_iff c).symm.trans hm'.mem_iff.symm)

/-- What one call keeps. -/
theorem step (h : Mirrors l r) (call : AllowlistCall) :
    Mirrors (call.step l) (call.step r) := by
  intro c
  cases call with
  | allow id identity =>
    simp only [AllowlistCall.step, NodeAllowlist.allow, RedisNodeAllowlist.allow,
      InMemoryNodeAllowlist.allow, KeyedTable.lookup_upsert, h c]
    split <;> rfl
  | revoke id =>
    simp only [AllowlistCall.step, NodeAllowlist.revoke, RedisNodeAllowlist.revoke,
      InMemoryNodeAllowlist.revoke, KeyedTable.lookup_retain_ne, h c]
    split <;> rfl
  | check _ _ | list => exact h c

theorem after (h : Mirrors l r) (calls : List AllowlistCall) :
    Mirrors (Run.after AllowlistCall.step l calls) (Run.after AllowlistCall.step r calls) :=
  related_after (Run.always_of_forall_mem (p := fun _ => True) fun _ _ => trivial)
    (fun _ _ call hlr _ => hlr.step call) h

theorem agree (h : Mirrors l r) {calls : List AllowlistCall} {as bs : List AllowlistAnswer}
    (ha : Replies l calls as) (hb : Replies r calls bs) :
    List.Forall₂ AllowlistAnswer.Same as bs :=
  Gives.agree (fun _ _ _ hlr _ _ => hlr.same) (fun _ _ call hlr _ => hlr.step call)
    (Run.always_of_forall_mem (p := fun _ => True) fun _ _ => trivial) h ha hb

end Mirrors

section Checks
open AllowlistCall

theorem mirrors_new : Mirrors .new .new := fun _ => rfl

/-- A call that leaves an identity on record for the client allowed the client with it. -/
theorem AllowlistCall.eq_allow_iff {id : String} {identity : NodeIdentity} {call : AllowlistCall}
    (h : call.Touches id) : call.written = some identity ↔ call = .allow id identity := by
  cases call with
  | allow id' identity' =>
    obtain rfl : id' = id := h
    simp [written]
  | revoke id' => simp [written]
  | check _ _ | list => exact h.elim

/-- The check passes for the identity of the last call that touched the client. -/
theorem InMemoryNodeAllowlist.check_after_iff (calls : List AllowlistCall) (id : String)
    (presented : NodeIdentity) : (Run.after step new calls).check id presented = true ↔
      LastOf (Touches id) calls (.allow id presented) := by
  rw [check_iff, lookup_after]
  constructor
  · rintro ⟨call,hlast,hw⟩
    rwa [← (eq_allow_iff hlast.1).mp hw]
  · exact fun hlast => ⟨_,hlast,rfl⟩

/-- The backends answer every call, and give the same answers; encoded identities decode to
themselves; on both of them a check passes exactly for the identity the client was last allowed
with and not revoked since; identities of different kinds with the same text do not match. -/
theorem allowlists_agree (calls : List AllowlistCall) :
    (∀ identity : NodeIdentity, NodeIdentity.decode identity.encode = some identity) ∧
    (∃ as, Replies InMemoryNodeAllowlist.new calls as) ∧
    (∃ bs, Replies RedisNodeAllowlist.new calls bs) ∧
    (∀ as bs, Replies InMemoryNodeAllowlist.new calls as →
      Replies RedisNodeAllowlist.new calls bs → List.Forall₂ AllowlistAnswer.Same as bs) ∧
    (∀ id presented, ((Run.after step InMemoryNodeAllowlist.new calls).check id presented = true ↔
        LastOf (Touches id) calls (.allow id presented)) ∧
      ((Run.after step RedisNodeAllowlist.new calls).check id presented = true ↔
        LastOf (Touches id) calls (.allow id presented))) ∧
    ∀ text, (NodeIdentity.certFingerprint text).matches (.sharedToken text) = false ∧
      (NodeIdentity.sharedToken text).matches (.certFingerprint text) = false := by
  refine ⟨NodeIdentity.decode_encode,exists_gives exists_answer _ _,
    exists_gives exists_answer _ _,fun as bs => mirrors_new.agree,fun id presented => ?_,
    fun text => ⟨rfl,rfl⟩⟩
  have hmemory := InMemoryNodeAllowlist.check_after_iff calls id presented
  have hredis := (mirrors_new.after calls).check_eq id presented
  exact ⟨hmemory,by rw [hredis, hmemory]⟩

end Checks
end ConfluxFL
