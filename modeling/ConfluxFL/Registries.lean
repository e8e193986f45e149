import Mathlib.Data.String.Basic
import Mathlib.Data.Prod.Lex
import ConfluxFL.Lib.StableSort
import ConfluxFL.Registry

/-! The registry backends side by side. The in-process one is a hash map, which lists its
clients in an order of its own; the Redis one is a sorted set, scored with the last sign of life
and listed by score, then by name. -/
namespace ConfluxFL

/-- The members of the sorted set with their scores: whole milliseconds, which a double holds
exactly below 2^53. -/
structure RedisRegistry where
  members : KeyedTable String ℕ

namespace RedisRegistry

def new : RedisRegistry := ⟨.empty⟩

/-- Adding a member that is not there yet. -/
def register (r : RedisRegistry) (id : String) (now : ℕ) : Except RegistryError RedisRegistry :=
  match r.members.lookup id with
  | some _ => .error (.alreadyRegistered id)
  | none => .ok ⟨r.members.upsert id now⟩

/-- Scoring a member that is there, with the number of scores that changed. -/
def rescore (r : RedisRegistry) (id : String) (now : ℕ) : RedisRegistry × ℕ :=
  match r.members.lookup id with
  | some score => (⟨r.members.upsert id now⟩,if score = now then 0 else 1)
  | none => (r,0)

/-- A heartbeat in the millisecond of the last one changes no score either, so the score is
asked for before the client is taken for unknown. -/
def heartbeat (r : RedisRegistry) (id : String) (now : ℕ) : Except RegistryError RedisRegistry :=
  let rescored := r.rescore id now
  if rescored.2 = 0 ∧ rescored.1.members.lookup id = none then .error (.notRegistered id)
  else .ok rescored.1

/-- Everything scored at or below the cutoff goes; the cutoff counts the whole milliseconds of
the lifetime. -/
def evictExpired (r : RedisRegistry) (ttl now : ℕ) : RedisRegistry :=
  ⟨r.members.retain fun row => !decide (row.2+ttl/10^6 ≤ now)⟩

def activeClients (r : RedisRegistry) : List String :=
  (StableSort.sortBy (fun row : String × ℕ => toLex (row.2,row.1)) r.members.rows).map Prod.fst

end RedisRegistry

/-- A listing the hash map can give: its keys, in whatever order. -/
def InMemoryRegistry.Lists (r : InMemoryRegistry) (listing : List String) : Prop :=
  listing.Perm r.clients.keys

inductive AnyRegistry where
  | inMemory (r : InMemoryRegistry)
  | redis (r : RedisRegistry)

namespace AnyRegistry

def register (id : String) (now : ℕ) : AnyRegistry → Except RegistryError AnyRegistry
  | .inMemory r => (r.register id now).map .inMemory
  | .redis r => (r.register id now).map .redis

def heartbeat (id : String) (now : ℕ) : AnyRegistry → Except RegistryError AnyRegistry
  | .inMemory r => (r.heartbeat id now).map .inMemory
  | .redis r => (r.heartbeat id now).map .redis

def evictExpired (ttl now : ℕ) : AnyRegistry → AnyRegistry
  | .inMemory r => .inMemory (r.evictExpired ttl now)
  | .redis r => .redis (r.evictExpired ttl now)

/-- The answers `active_clients` can give. -/
def Lists (listing : List String) : AnyRegistry → Prop
  | .inMemory r => r.Lists listing
  | .redis r => listing = r.activeClients

/-- The clients the registry knows, in the order of its table. -/
def ids : AnyRegistry → List String
  | .inMemory r => r.clients.keys
  | .redis r => r.members.keys

/-- The last sign of life the registry has on record. -/
def lastSeen (id : String) : AnyRegistry → Option ℕ
  | .inMemory r => (r.clients.lookup id).map ClientInfo.lastHeartbeat
  | .redis r => r.members.lookup id

/-- The registry after a call that may be refused. -/
def orSame (r : AnyRegistry) : Except RegistryError AnyRegistry → AnyRegistry
  | .ok r' => r'
  | .error _ => r

variable {r : AnyRegistry} {listing : List String}

theorem Lists.perm (h : r.Lists listing) : listing.Perm r.ids := by
  cases r with
  | inMemory r => exact h
  | redis r =>
    cases h
    exact StableSort.sortBy_perm.map Prod.fst

theorem Lists.mem_iff (h : r.Lists listing) (c : String) : c ∈ listing ↔ c ∈ r.ids :=
  h.perm.mem_iff

theorem nodup_ids (r : AnyRegistry) : r.ids.Nodup := by
  cases r with
  | inMemory r => exact r.clients.nodup
  | redis r => exact r.members.nodup

theorem Lists.nodup (h : r.Lists listing) : listing.Nodup := h.perm.nodup_iff.mpr r.nodup_ids

/-- A registration adds the client, whether or not it was there already. -/
theorem mem_ids_register (r : AnyRegistry) (id c : String) (now : ℕ) :
    c ∈ (r.orSame (r.register id now)).ids ↔ c = id ∨ c ∈ r.ids := by
  cases r with
  | inMemory r =>
    cases h : r.clients.lookup id with
    | some info =>
      simp only [register, InMemoryRegistry.register, h, Except.map, orSame]
      exact (KeyedTable.eq_or_mem_keys_iff h).symm
    | none =>
      simp only [register, InMemoryRegistry.register, h, Except.map, orSame, ids,
        KeyedTable.mem_keys_upsert]
  | redis r =>
    cases h : r.members.lookup id with
    | some score =>
      simp only [register, RedisRegistry.register, h, Except.map, orSame]
      exact (KeyedTable.eq_or_mem_keys_iff h).symm
    | none =>
      simp only [register, RedisRegistry.register, h, Except.map, orSame, ids,
        KeyedTable.mem_keys_upsert]

/-- A heartbeat brings nobody in and lets nobody go. -/
theorem mem_ids_heartbeat (r : AnyRegistry) (id c : String) (now : ℕ) :
    c ∈ (r.orSame (r.heartbeat id now)).ids ↔ c ∈ r.ids := by
  cases r with
  | inMemory r =>
    cases h : r.clients.lookup id with
    | none => simp only [heartbeat, InMemoryRegistry.heartbeat, h, Except.map, orSame]
    | some info =>
      simp only [heartbeat, InMemoryRegistry.heartbeat, h, Except.map, orSame, ids,
        KeyedTable.mem_keys_upsert]
      exact KeyedTable.eq_or_mem_keys_iff h
  | redis r =>
    cases h : r.members.lookup id with
    | none =>
      simp [heartbeat, RedisRegistry.heartbeat, RedisRegistry.rescore, h, Except.map, orSame]
    | some score =>
      simp only [heartbeat, RedisRegistry.heartbeat, RedisRegistry.rescore, h,
        KeyedTable.lookup_upsert_self, reduceCtorEq, and_false, if_false, Except.map, orSame, ids,
        KeyedTable.mem_keys_upsert]
      exact KeyedTable.eq_or_mem_keys_iff h

end AnyRegistry
end ConfluxFL
