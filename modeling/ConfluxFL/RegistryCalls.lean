import ConfluxFL.Registries
import ConfluxFL.Lib.Calls

/-! The two registry backends behind one clock. Each of them is a partial map from clients to
their last sign of life; they differ in how they compare an age with a lifetime. -/
namespace ConfluxFL
open Transcript

inductive RegistryCall where
  | register (id : String)
  | heartbeat (id : String)
  /-- The lifetime is in nanoseconds. -/
  | evictExpired (ttl : ℕ)
  | activeClients
  | elapse (millis : ℕ)
  deriving DecidableEq

inductive RegistryAnswer where
  | silent
  | result (r : Except RegistryError Unit)
  | clients (listing : List String)

/-- Listings are compared as sets. -/
def RegistryAnswer.Same : RegistryAnswer → RegistryAnswer → Prop
  | .clients l,.clients l' => ∀ c, c ∈ l ↔ c ∈ l'
  | a,b => a = b

/-- A backend and the milliseconds its clock shows. -/
structure TimedRegistry where
  registry : AnyRegistry
  now : ℕ

namespace AnyRegistry
variable (r : AnyRegistry) (id c : String) (now : ℕ)

theorem mem_ids_iff : c ∈ r.ids ↔ r.lastSeen c ≠ none := by
  cases r with
  | inMemory r =>
    rw [lastSeen, Ne, Option.map_eq_none_iff, KeyedTable.lookup_eq_none_iff, not_not]
    rfl
  | redis r =>
    rw [lastSeen, Ne, KeyedTable.lookup_eq_none_iff, not_not]
    rfl

/-- What a registration answers. -/
theorem register_result : (r.register id now).map (fun _ => ()) =
    if r.lastSeen id = none then .ok () else .error (.alreadyRegistered id) := by
  cases r with
  | inMemory r =>
    cases h : r.clients.lookup id <;>
      simp [register, InMemoryRegistry.register, lastSeen, h, Except.map]
  | redis r =>
    cases h : r.members.lookup id <;>
      simp [register, RedisRegistry.register, lastSeen, h, Except.map]

/-- A registration records the moment for a client that is not known, and nothing else. -/
theorem lastSeen_register : (r.orSame (r.register id now)).lastSeen c =
    if c = id ∧ r.lastSeen id = none then some now else r.lastSeen c := by
  cases r with
  | inMemory r =>
    cases h : r.clients.lookup id with
    | some info => simp [register, InMemoryRegistry.register, h, Except.map, orSame, lastSeen]
    | none =>
      simp only [register, InMemoryRegistry.register, h, Except.map, orSame, lastSeen]
      by_cases hc : c = id
      · simp [hc]
      · simp [hc, KeyedTable.lookup_upsert_ne _ hc]
  | redis r =>
    cases h : r.members.lookup id with
    | some score => simp [register, RedisRegistry.register, h, Except.map, orSame, lastSeen]
    | none =>
      simp only [register, RedisRegistry.register, h, Except.map, orSame, lastSeen]
      by_cases hc : c = id
      · simp [hc]
      · simp [hc, KeyedTable.lookup_upsert_ne _ hc]

theorem heartbeat_result : (r.heartbeat id now).map (fun _ => ()) =
    if r.lastSeen id = none then .error (.notRegistered id) else .ok () := by
  cases r with
  | inMemory r =>
    cases h : r.clients.lookup id <;>
      simp [heartbeat, InMemoryRegistry.heartbeat, lastSeen, h, Except.map]
  | redis r =>
    cases h : r.members.lookup id <;>
      simp [heartbeat, RedisRegistry.heartbeat, RedisRegistry.rescore, lastSeen, h, Except.map]

/-- A heartbeat records the moment for a client that is known, and nothing else. -/
theorem lastSeen_heartbeat : (r.orSame (r.heartbeat id now)).lastSeen c =
    if c = id ∧ r.lastSeen id ≠ none then some now else r.lastSeen c := by
  cases r with
  | inMemory r =>
    cases h : r.clients.lookup id with
    | none => simp [heartbeat, InMemoryRegistry.heartbeat, h, Except.map, orSame, lastSeen]
    | some info =>
      simp only [heartbeat, InMemoryRegistry.heartbeat, h, Except.map, orSame, lastSeen]
      by_cases hc : c = id
      · simp [hc]
      · simp [hc, KeyedTable.lookup_upsert_ne _ hc]
  | redis r =>
    cases h : r.members.lookup id with
    | none =>
      simp [heartbeat, RedisRegistry.heartbeat, RedisRegistry.rescore, h, Except.map, orSame,
        lastSeen]
    | some score =>
      simp only [heartbeat, RedisRegistry.heartbeat, RedisRegistry.rescore, h,
        KeyedTable.lookup_upsert_self, reduceCtorEq, and_false, if_false, Except.map, orSame,
        lastSeen]
      by_cases hc : c = id
      · simp [hc]
      · simp [hc, KeyedTable.lookup_upsert_ne _ hc]

/-- The hash map keeps who is younger than the lifetime. -/
theorem lastSeen_evictExpired_inMemory (r : InMemoryRegistry) (ttl : ℕ) :
    ((inMemory r).evictExpired ttl now).lastSeen c =
      ((inMemory r).lastSeen c).filter fun seen => (now-seen)*10^6 < ttl := by
  simp only [evictExpired, lastSeen, InMemoryRegistry.evictExpired,
    KeyedTable.lookup_retain_eq_filter]
  cases r.clients.lookup c with
  | none => rfl
  | some info =>
    simp only [Option.map_some, Option.filter]
    split <;> rfl

/-- The sorted set keeps who is younger than the whole milliseconds of the lifetime. -/
theorem lastSeen_evictExpired_redis (r : RedisRegistry) (ttl : ℕ) :
    ((redis r).evictExpired ttl now).lastSeen c =
      ((redis r).lastSeen c).filter fun seen => now < seen+ttl/10^6 := by
  simp only [evictExpired, lastSeen, RedisRegistry.evictExpired,
    KeyedTable.lookup_retain_eq_filter, ← decide_not, not_le]

end AnyRegistry

namespace TimedRegistry

def step (s : TimedRegistry) : RegistryCall → TimedRegistry
  | .register id => { s with registry := s.registry.orSame (s.registry.register id s.now) }
  | .heartbeat id => { s with registry := s.registry.orSame (s.registry.heartbeat id s.now) }
  | .evictExpired ttl => { s with registry := s.registry.evictExpired ttl s.now }
  | .activeClients => s
  | .elapse millis => { s with now := s.now+millis }

/-- The answers a call can get: a listing comes in any order the backend can give it in. -/
def Answers (s : TimedRegistry) : RegistryCall → RegistryAnswer → Prop
  | .register id,a => a = .result ((s.registry.register id s.now).map fun _ => ())
  | .heartbeat id,a => a = .result ((s.registry.heartbeat id s.now).map fun _ => ())
  | .activeClients,a => ∃ listing, s.registry.Lists listing ∧ a = .clients listing
  | _,a => a = .silent

/-- Before any call, at the same reading of the clock. -/
def inMemory (now : ℕ) : TimedRegistry := ⟨.inMemory .new,now⟩
def redis (now : ℕ) : TimedRegistry := ⟨.redis .new,now⟩

/-- No lifetime of a sweep ends inside the millisecond a client on record was last seen in: it
is a whole number of milliseconds, or nobody is exactly that many milliseconds old. -/
def SweepsWhole (s : TimedRegistry) : RegistryCall → Prop
  | .evictExpired ttl => 10^6 ∣ ttl ∨
      ∀ c seen, s.registry.lastSeen c = some seen → s.now-seen ≠ ttl/10^6
  | _ => True

/-- The hash map and the sorted set hold the same clients with the same signs of life, none of
them from the future. -/
structure Alike (s t : TimedRegistry) : Prop where
  memory : ∃ r, s.registry = .inMemory r
  redis : ∃ r, t.registry = .redis r
  now : s.now = t.now
  seen : ∀ c, s.registry.lastSeen c = t.registry.lastSeen c
  past : ∀ c seen, s.registry.lastSeen c = some seen → seen ≤ s.now

variable {s t : TimedRegistry}

theorem alike_new (now : ℕ) : Alike (inMemory now) (TimedRegistry.redis now) :=
  ⟨⟨_,rfl⟩,⟨_,rfl⟩,rfl,fun _ => rfl,fun _ _ h => by cases h⟩

/-- Related backends give the same answers. -/
theorem Alike.same (h : Alike s t) {i : RegistryCall} {a b : RegistryAnswer}
    (ha : s.Answers i a) (hb : t.Answers i b) : a.Same b := by
  cases i with
  | register id =>
    obtain rfl : a = _ := ha
    obtain rfl : b = _ := hb
    rw [AnyRegistry.register_result, AnyRegistry.register_result, h.seen]
    rfl
  | heartbeat id =>
    obtain rfl : a = _ := ha
    obtain rfl : b = _ := hb
    rw [AnyRegistry.heartbeat_result, AnyRegistry.heartbeat_result, h.seen]
    rfl
  | activeClients =>
    obtain ⟨l,hl,rfl⟩ := ha
    obtain ⟨l',hl',rfl⟩ := hb
    intro c
    rw [hl.mem_iff, hl'.mem_iff, AnyRegistry.mem_ids_iff, AnyRegistry.mem_ids_iff, h.seen]
  | evictExpired ttl | elapse millis =>
    obtain rfl : a = _ := ha
    obtain rfl : b = _ := hb
    rfl

/-- An age in whole milliseconds is compared alike unless it is the lifetime cut short. -/
theorem sweep_iff {age ttl : ℕ} : (age*10^6 < ttl ↔ age < ttl/10^6) ↔
    10^6 ∣ ttl ∨ age ≠ ttl/10^6 := by omega

theorem filter_eq_filter_iff {α : Type} (a : α) (p q : α → Bool) :
    (some a).filter p = (some a).filter q ↔ (p a = true ↔ q a = true) := by
  cases hp : p a <;> cases hq : q a <;> simp [Option.filter, hp, hq]

/-- A sweep treats a client alike exactly when the lifetime does not end inside the millisecond
it was last seen in. -/
theorem Alike.sweep_seen_iff_of_seen (h : Alike s t) (ttl : ℕ) {c : String} {seen : ℕ}
    (hc : s.registry.lastSeen c = some seen) :
    (s.step (.evictExpired ttl)).registry.lastSeen c =
      (t.step (.evictExpired ttl)).registry.lastSeen c ↔
        10^6 ∣ ttl ∨ s.now-seen ≠ ttl/10^6 := by
  obtain ⟨m,hm⟩ := h.memory
  obtain ⟨q,hq⟩ := h.redis
  have hpast := h.past c seen hc
  have hct := (h.seen c).symm.trans hc
  rw [hm] at hc
  rw [hq] at hct
  have hage : s.now < seen+ttl/10^6 ↔ s.now-seen < ttl/10^6 := by omega
  rw [← sweep_iff, ← hage, step, step, hm, hq, AnyRegistry.lastSeen_evictExpired_inMemory,
    AnyRegistry.lastSeen_evictExpired_redis, hc, hct, filter_eq_filter_iff,
    decide_eq_true_iff, decide_eq_true_iff, ← h.now]

/-- After a sweep the backends hold the same clients exactly when it meets the condition. -/
theorem Alike.sweep_seen_iff (h : Alike s t) (ttl : ℕ) :
    (∀ c, (s.step (.evictExpired ttl)).registry.lastSeen c =
      (t.step (.evictExpired ttl)).registry.lastSeen c) ↔ s.SweepsWhole (.evictExpired ttl) := by
  constructor
  · intro hall
    by_cases hd : 10^6 ∣ ttl
    · exact .inl hd
    · exact .inr fun c seen hc =>
        ((h.sweep_seen_iff_of_seen ttl hc).mp (hall c)).resolve_left hd
  · intro hwhole c
    cases hc : s.registry.lastSeen c with
    | none =>
      obtain ⟨m,hm⟩ := h.memory
      obtain ⟨q,hq⟩ := h.redis
      have hct := (h.seen c).symm.trans hc
      rw [hm] at hc
      rw [hq] at hct
      rw [step, step, hm, hq, AnyRegistry.lastSeen_evictExpired_inMemory,
        AnyRegistry.lastSeen_evictExpired_redis, hc, hct, Option.filter_none, Option.filter_none]
    | some seen =>
      exact (h.sweep_seen_iff_of_seen ttl hc).mpr (hwhole.imp_right fun hall => hall c seen hc)

/-- A call stays in its backend. -/
theorem exists_inMemory_step {m : InMemoryRegistry} (h : s.registry = .inMemory m)
    (i : RegistryCall) : ∃ m', (s.step i).registry = .inMemory m' := by
  cases i with
  | register id =>
    simp only [step, h, AnyRegistry.register]
    cases m.register id s.now <;> exact ⟨_,rfl⟩
  | heartbeat id =>
    simp only [step, h, AnyRegistry.heartbeat]
    cases m.heartbeat id s.now <;> exact ⟨_,rfl⟩
  | evictExpired ttl => exact ⟨m.evictExpired ttl s.now,by rw [step, h]; rfl⟩
  | activeClients | elapse millis => exact ⟨m,h⟩

theorem exists_redis_step {q : RedisRegistry} (h : s.registry = .redis q) (i : RegistryCall) :
    ∃ q', (s.step i).registry = .redis q' := by
  cases i with
  | register id =>
    simp only [step, h, AnyRegistry.register]
    cases q.register id s.now <;> exact ⟨_,rfl⟩
  | heartbeat id =>
    simp only [step, h, AnyRegistry.heartbeat]
    cases q.heartbeat id s.now <;> exact ⟨_,rfl⟩
  | evictExpired ttl => exact ⟨q.evictExpired ttl s.now,by rw [step, h]; rfl⟩
  | activeClients | elapse millis => exact ⟨q,h⟩

/-- A call that meets the condition leaves related backends with the same signs of life. -/
theorem Alike.step_seen (h : Alike s t) {i : RegistryCall} (hw : s.SweepsWhole i) (c : String) :
    (s.step i).registry.lastSeen c = (t.step i).registry.lastSeen c := by
  cases i with
  | register id =>
    simp only [TimedRegistry.step, AnyRegistry.lastSeen_register, h.seen, h.now]
  | heartbeat id =>
    simp only [TimedRegistry.step, AnyRegistry.lastSeen_heartbeat, h.seen, h.now]
  | evictExpired ttl => exact (h.sweep_seen_iff ttl).mpr hw c
  | activeClients | elapse millis => exact h.seen c

theorem Alike.step_past (h : Alike s t) {i : RegistryCall} {c : String} {seen : ℕ}
    (hs : (s.step i).registry.lastSeen c = some seen) : seen ≤ (s.step i).now := by
  cases i with
  | register id | heartbeat id =>
    simp only [TimedRegistry.step, AnyRegistry.lastSeen_register,
      AnyRegistry.lastSeen_heartbeat] at hs ⊢
    split at hs
    · exact (Option.some.inj hs).ge
    · exact h.past c seen hs
  | evictExpired ttl =>
    obtain ⟨m,hm⟩ := h.memory
    simp only [TimedRegistry.step, hm, AnyRegistry.lastSeen_evictExpired_inMemory] at hs
    exact h.past c seen (by rw [hm]; exact (Option.filter_eq_some_iff.mp hs).1)
  | activeClients => exact h.past c seen hs
  | elapse millis => exact (h.past c seen hs).trans (Nat.le_add_right _ _)

/-- What one call keeps. -/
theorem Alike.step (h : Alike s t) {i : RegistryCall} (hw : s.SweepsWhole i) :
    Alike (s.step i) (t.step i) := by
  obtain ⟨m,hm⟩ := h.memory
  obtain ⟨q,hq⟩ := h.redis
  refine ⟨exists_inMemory_step hm i,exists_redis_step hq i,?_,h.step_seen hw,
    fun c seen => h.step_past⟩
  cases i <;> simp only [TimedRegistry.step, h.now]

/-- Every call gets some answer. -/
theorem exists_answer (s : TimedRegistry) (i : RegistryCall) : ∃ a, s.Answers i a := by
  cases i with
  | activeClients =>
    cases hr : s.registry with
    | inMemory r => exact ⟨_,r.clients.keys,by rw [hr]; exact List.Perm.refl _,rfl⟩
    | redis r => exact ⟨_,r.activeClients,by rw [hr]; rfl,rfl⟩
  | _ => exact ⟨_,rfl⟩

/-- The answers along a list of calls. -/
def Replies (s : TimedRegistry) (calls : List RegistryCall) (as : List RegistryAnswer) : Prop :=
  Gives TimedRegistry.step Answers s calls as

/-- The backends cannot be told apart by the calls, nor by asking for the clients after any of
them. -/
def Indistinct (s t : TimedRegistry) (calls : List RegistryCall) : Prop :=
  ∀ pre, pre <+: calls → ∀ as bs, s.Replies (pre++[.activeClients]) as →
    t.Replies (pre++[.activeClients]) bs → List.Forall₂ RegistryAnswer.Same as bs

theorem indistinct_of_sweepsWhole (h : Alike s t) {calls : List RegistryCall}
    (hw : Run.Always TimedRegistry.step SweepsWhole s calls) : Indistinct s t calls := by
  rintro pre ⟨post,rfl⟩ as bs ha hb
  refine Gives.agree (Q := SweepsWhole) (fun s t i hst a b => hst.same)
    (fun s t i hst hi => hst.step hi) ?_ h ha hb
  exact Run.always_append.mpr ⟨(Run.always_append.mp hw).1,trivial,trivial⟩

theorem filter_eq_of_ne_none_iff {α : Type} {o : Option α} {p q : α → Bool}
    (h : o.filter p ≠ none ↔ o.filter q ≠ none) : o.filter p = o.filter q := by
  cases o with
  | none => rfl
  | some a => cases hp : p a <;> cases hq : q a <;> simp_all [Option.filter]

/-- Sweeps after which the listings are the same sets met the condition. -/
theorem Alike.sweepsWhole_of_same (h : Alike s t) {i : RegistryCall}
    (hsame : ∀ l l', (s.step i).registry.Lists l → (t.step i).registry.Lists l' →
      ∀ c, c ∈ l ↔ c ∈ l') : s.SweepsWhole i := by
  cases i with
  | evictExpired ttl =>
    obtain ⟨m,hm⟩ := h.memory
    obtain ⟨q,hq⟩ := h.redis
    apply (h.sweep_seen_iff ttl).mp
    intro c
    obtain ⟨_,l,hl,-⟩ := exists_answer (s.step (.evictExpired ttl)) .activeClients
    obtain ⟨_,l',hl',-⟩ := exists_answer (t.step (.evictExpired ttl)) .activeClients
    have hc := hsame l l' hl hl' c
    rw [hl.mem_iff, hl'.mem_iff, AnyRegistry.mem_ids_iff, AnyRegistry.mem_ids_iff] at hc
    have hseen := h.seen c
    rw [hm, hq] at hseen
    simp only [TimedRegistry.step, hm, hq, AnyRegistry.lastSeen_evictExpired_inMemory,
      AnyRegistry.lastSeen_evictExpired_redis, hseen] at hc ⊢
    exact filter_eq_of_ne_none_iff hc
  | _ => trivial

/-- Backends that cannot be told apart meet the condition at every sweep. -/
theorem sweepsWhole_of_indistinct (h : Alike s t) {calls : List RegistryCall}
    (hi : Indistinct s t calls) : Run.Always TimedRegistry.step SweepsWhole s calls := by
  induction calls generalizing s t with
  | nil => trivial
  | cons i calls ih =>
    obtain ⟨a,ha⟩ := exists_answer s i
    obtain ⟨b,hb⟩ := exists_answer t i
    have hw : s.SweepsWhole i := h.sweepsWhole_of_same fun l l' hl hl' => by
      have hall := hi [i] ⟨calls,rfl⟩ [a,.clients l] [b,.clients l']
        ⟨ha,⟨l,hl,rfl⟩,trivial⟩ ⟨hb,⟨l',hl',rfl⟩,trivial⟩
      exact (List.forall₂_cons.mp (List.forall₂_cons.mp hall).2).1
    refine ⟨hw,ih (h.step hw) fun pre hpre as bs has hbs => ?_⟩
    have hall := hi (i::pre) (List.cons_prefix_cons.mpr ⟨rfl,hpre⟩) (a::as) (b::bs)
      ⟨ha,has⟩ ⟨hb,hbs⟩
    exact (List.forall₂_cons.mp hall).2

/-- From the start of a deployment on, over any calls at the same readings of the clock, the
backends give the same answers exactly when every sweep meets the condition. -/
theorem indistinct_iff_sweepsWhole (now : ℕ) (calls : List RegistryCall) :
    Indistinct (inMemory now) (redis now) calls ↔
      Run.Always TimedRegistry.step SweepsWhole (inMemory now) calls :=
  ⟨sweepsWhole_of_indistinct (alike_new now),indistinct_of_sweepsWhole (alike_new now)⟩

/-- A client one millisecond old and a lifetime of one and a half: the hash map keeps it, the
sorted set lets it go. -/
theorem not_indistinct_halfMillisecond : ¬Indistinct (inMemory 0) (redis 0)
    [.register "a",.elapse 1,.evictExpired 1500000] := by
  intro h
  have hall := h _ (List.prefix_refl _) [.result (.ok ()),.silent,.silent,.clients ["a"]]
    [.result (.ok ()),.silent,.silent,.clients []]
    ⟨rfl,rfl,rfl,⟨_,List.Perm.refl _,rfl⟩,trivial⟩ ⟨rfl,rfl,rfl,⟨_,rfl,rfl⟩,trivial⟩
  cases hall with
  | cons _ hall => cases hall with
    | cons _ hall => cases hall with
      | cons _ hall => cases hall with
        | cons hsame _ => exact List.not_mem_nil ((hsame "a").mp List.mem_cons_self)

end TimedRegistry
end ConfluxFL
