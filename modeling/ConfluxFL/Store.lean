import ConfluxFL.Lib.KeyedTable
import ConfluxFL.Lib.Decimal
import ConfluxFL.Lib.StableSort
import ConfluxFL.Proto

/-! Checkpoint stores. A Postgres table keeps one row per round, keyed by the signed cast of
the round number; an S3 bucket keeps one object per round, named after it; the in-memory store
keeps the newest checkpoint only. All of them serve the checkpoint of the highest round. -/
namespace ConfluxFL

inductive StoreError where
  | noCheckpoint
  | io (path source : String)
  | malformedCheckpoint (path : String) (len : ℕ)
  | backend (message : String)
  deriving DecidableEq, Repr

def StoreError.text : StoreError → String
  | .noCheckpoint => "no checkpoint has been saved yet"
  | .io path source => s!"I/O error at {path}: {source}"
  | .malformedCheckpoint path len =>
    s!"checkpoint file {path} has a truncated weight buffer ({len} bytes, not a multiple of 4)"
  | .backend message => s!"store backend error: {message}"

/-- A stored blob back into weights; `path` names where it was found. -/
def decodeCheckpoint (path : String) (bytes : List UInt8) : Except StoreError (List F32) :=
  if bytes.length % 4 = 0 then .ok (words bytes)
  else .error (.malformedCheckpoint path bytes.length)

theorem decodeCheckpoint_encodeWeights (path : String) (ws : List F32) :
    decodeCheckpoint path (encodeWeights ws) = .ok ws := by
  have h : (encodeWeights ws).length % 4 = 0 := by rw [length_encodeWeights]; omega
  rw [decodeCheckpoint, if_pos h, words_encodeWeights]

/-- The cast of a 64-bit round number to a signed column. -/
def asI64 (round : ℕ) : ℤ :=
  if round % 2^64 < 2^63 then (round % 2^64 : ℕ) else (round % 2^64 : ℕ)-2^64

theorem asI64_of_lt {round : ℕ} (h : round < 2^63) : asI64 round = round := by
  have hm : round % 2^64 = round := Nat.mod_eq_of_lt (by omega)
  rw [asI64, hm, if_pos h]

/-- The cast of a column value back to a round number. -/
def asU64 (column : ℤ) : ℕ := (column % 2^64).toNat

structure InMemoryStore where
  latest : ℕ × List F32

structure PostgresStore where
  table : String
  rows : KeyedTable ℤ (List UInt8)

/-- The bucket's objects by key; `keyPath` is the prefix checkpoints are filed under. -/
structure S3Store where
  keyPath : String
  objects : KeyedTable String (List UInt8)

namespace InMemoryStore

def new (initialWeights : List F32) : InMemoryStore := ⟨(0,initialWeights)⟩
def loadLatestWeights (s : InMemoryStore) : Except StoreError (List F32) := .ok s.latest.2
def saveCheckpoint (s : InMemoryStore) (round : ℕ) (weights : List F32) : InMemoryStore :=
  if s.latest.1 ≤ round then ⟨(round,weights)⟩ else s

end InMemoryStore

namespace PostgresStore

def loadLatestWeights (s : PostgresStore) : Except StoreError (List F32) :=
  match s.rows.latest with
  | some row => decodeCheckpoint s!"postgres table {s.table}" row.2
  | none => .error .noCheckpoint

/-- Ordered by the column, then cast. -/
def listCheckpoints (s : PostgresStore) : List ℕ := (StableSort.sortBy id s.rows.keys).map asU64

def loadCheckpoint (s : PostgresStore) (round : ℕ) : Except StoreError (List F32) :=
  match s.rows.lookup (asI64 round) with
  | some bytes => decodeCheckpoint s!"postgres table {s.table}" bytes
  | none => .error .noCheckpoint

def saveCheckpoint (s : PostgresStore) (round : ℕ) (weights : List F32) : PostgresStore :=
  { s with rows := s.rows.upsert (asI64 round) (encodeWeights weights) }

end PostgresStore

namespace S3Store

def listPath (s : S3Store) : String := s.keyPath++"/checkpoint-"
def keyFor (s : S3Store) (round : ℕ) : String := s.listPath++(toString round++".bin")

/-- The round an object key stands for, if it is a checkpoint's. -/
def roundOf (s : S3Store) (key : String) : Option ℕ :=
  (Decimal.stripPrefix s.listPath key).bind fun rest =>
    (Decimal.stripSuffix ".bin" rest).bind Decimal.parseU64

def rounds (s : S3Store) : List ℕ := StableSort.sortBy id (s.objects.keys.filterMap s.roundOf)

def fetch (s : S3Store) (round : ℕ) : Except StoreError (List F32) :=
  match s.objects.lookup (s.keyFor round) with
  | some bytes => decodeCheckpoint (s.keyFor round) bytes
  | none => .error (.backend "service error")

def loadLatestWeights (s : S3Store) : Except StoreError (List F32) :=
  match s.rounds.getLast? with
  | some round => s.fetch round
  | none => .error .noCheckpoint

def listCheckpoints (s : S3Store) : List ℕ := s.rounds

/-- A missing round is found missing in the listing, before its object is asked for. -/
def loadCheckpoint (s : S3Store) (round : ℕ) : Except StoreError (List F32) :=
  if round ∈ s.rounds then s.fetch round else .error .noCheckpoint

def saveCheckpoint (s : S3Store) (round : ℕ) (weights : List F32) : S3Store :=
  { s with objects := s.objects.upsert (s.keyFor round) (encodeWeights weights) }

theorem roundOf_keyFor (s : S3Store) {round : ℕ} (h : round < 2^64) :
    s.roundOf (s.keyFor round) = some round := by
  rw [roundOf, keyFor, Decimal.stripPrefix_append, Option.bind_some,
    Decimal.stripSuffix_append, Option.bind_some, Decimal.parseU64_toString h]

theorem mem_rounds {s : S3Store} {r : ℕ} :
    r ∈ s.rounds ↔ ∃ key ∈ s.objects.keys, s.roundOf key = some r := by
  rw [rounds, StableSort.mem_sortBy, List.mem_filterMap]

theorem roundOf_saveCheckpoint (s : S3Store) (round : ℕ) (weights : List F32) (key : String) :
    (s.saveCheckpoint round weights).roundOf key = s.roundOf key := rfl

theorem mem_rounds_saveCheckpoint (s : S3Store) {round r : ℕ} (weights : List F32)
    (h : round < 2^64) : r ∈ (s.saveCheckpoint round weights).rounds ↔ r = round ∨ r ∈ s.rounds := by
  simp only [mem_rounds, roundOf_saveCheckpoint]
  constructor
  · rintro ⟨key,hk,hr⟩
    rcases (KeyedTable.mem_keys_upsert _ _ _ _).mp hk with rfl | hk
    · rw [roundOf_keyFor s h, Option.some.injEq] at hr
      exact .inl hr.symm
    · exact .inr ⟨key,hk,hr⟩
  · rintro (rfl | ⟨key,hk,hr⟩)
    · exact ⟨s.keyFor r,(KeyedTable.mem_keys_upsert _ _ _ _).mpr (.inl rfl),roundOf_keyFor s h⟩
    · exact ⟨key,(KeyedTable.mem_keys_upsert _ _ _ _).mpr (.inr hk),hr⟩

/-- The last entry of an ascending list is the greatest one. -/
theorem getLast?_rounds {s : S3Store} {m : ℕ} (hm : m ∈ s.rounds) (hle : ∀ r ∈ s.rounds, r ≤ m) :
    s.rounds.getLast? = some m := by
  have hs : s.rounds.Pairwise (· ≤ ·) := StableSort.sortBy_sorted (κ := ℕ)
  obtain ⟨l,a,hla⟩ := List.eq_nil_or_concat s.rounds |>.resolve_left (List.ne_nil_of_mem hm)
  rw [List.concat_eq_append] at hla
  rw [hla] at hs hm hle ⊢
  have ha : a ≤ m := hle a (by simp)
  have hma : m ≤ a := by
    rcases List.mem_append.mp hm with hm | hm
    · exact (List.pairwise_append.mp hs).2.2 m hm a (by simp)
    · simp only [List.mem_singleton] at hm
      omega
  simp [le_antisymm ha hma]

end S3Store

inductive AnyStore where
  | inMemory (s : InMemoryStore)
  | postgres (s : PostgresStore)
  | s3 (s : S3Store)

namespace AnyStore

def loadLatestWeights : AnyStore → Except StoreError (List F32)
  | .inMemory s => s.loadLatestWeights
  | .postgres s => s.loadLatestWeights
  | .s3 s => s.loadLatestWeights

def saveCheckpoint (round : ℕ) (weights : List F32) : AnyStore → AnyStore
  | .inMemory s => .inMemory (s.saveCheckpoint round weights)
  | .postgres s => .postgres (s.saveCheckpoint round weights)
  | .s3 s => .s3 (s.saveCheckpoint round weights)

/-- No checkpoint is filed above `round`, in the order the backend compares rounds by. -/
def RoundsAtMost (round : ℕ) : AnyStore → Prop
  | .inMemory s => s.latest.1 ≤ round
  | .postgres s => ∀ k ∈ s.rows.keys, k ≤ asI64 round
  | .s3 s => ∀ r ∈ s.rounds, r ≤ round

instance (round : ℕ) : (store : AnyStore) → Decidable (store.RoundsAtMost round)
  | .inMemory s => inferInstanceAs (Decidable (s.latest.1 ≤ round))
  | .postgres s => inferInstanceAs (Decidable (∀ k ∈ s.rows.keys, k ≤ asI64 round))
  | .s3 s => inferInstanceAs (Decidable (∀ r ∈ s.rounds, r ≤ round))

theorem RoundsAtMost.mono {store : AnyStore} {a b : ℕ} (h : store.RoundsAtMost a) (hab : a ≤ b)
    (hb : b < 2^63) : store.RoundsAtMost b := by
  cases store with
  | inMemory s => exact le_trans h hab
  | postgres s =>
    intro k hk
    have hka := h k hk
    rw [asI64_of_lt (by omega)] at hka ⊢
    omega
  | s3 s => exact fun r hr => (h r hr).trans hab

/-- Saving at or above everything stored is what the next load returns. -/
theorem loadLatestWeights_saveCheckpoint {store : AnyStore} {round : ℕ} (weights : List F32)
    (h : store.RoundsAtMost round) (hr : round < 2^63) :
    (store.saveCheckpoint round weights).loadLatestWeights = .ok weights := by
  cases store with
  | inMemory s =>
    have hs : s.latest.1 ≤ round := h
    simp [saveCheckpoint, InMemoryStore.saveCheckpoint, hs, loadLatestWeights,
      InMemoryStore.loadLatestWeights]
  | postgres s =>
    have hl := KeyedTable.latest_upsert_of_le s.rows (encodeWeights weights) h
    simp only [saveCheckpoint, loadLatestWeights, PostgresStore.loadLatestWeights,
      PostgresStore.saveCheckpoint, hl, decodeCheckpoint_encodeWeights]
  | s3 s =>
    have h64 : round < 2^64 := by omega
    have hm : round ∈ (s.saveCheckpoint round weights).rounds :=
      (S3Store.mem_rounds_saveCheckpoint s weights h64).mpr (.inl rfl)
    have hle : ∀ r ∈ (s.saveCheckpoint round weights).rounds, r ≤ round := by
      intro r hr'
      rcases (S3Store.mem_rounds_saveCheckpoint s weights h64).mp hr' with rfl | hr'
      · exact le_rfl
      · exact h r hr'
    simp only [saveCheckpoint, loadLatestWeights, S3Store.loadLatestWeights,
      S3Store.getLast?_rounds hm hle, S3Store.fetch]
    have hk : (s.saveCheckpoint round weights).objects.lookup
        ((s.saveCheckpoint round weights).keyFor round) = some (encodeWeights weights) :=
      KeyedTable.lookup_upsert_self _ _ _
    rw [hk]
    exact decodeCheckpoint_encodeWeights _ weights

theorem RoundsAtMost.saveCheckpoint {store : AnyStore} {round : ℕ} (weights : List F32)
    (h : store.RoundsAtMost round) (hr : round < 2^63) :
    (store.saveCheckpoint round weights).RoundsAtMost round := by
  cases store with
  | inMemory s =>
    have hs : s.latest.1 ≤ round := h
    simp [AnyStore.saveCheckpoint, InMemoryStore.saveCheckpoint, hs, RoundsAtMost]
  | postgres s =>
    intro k hk
    rcases (KeyedTable.mem_keys_upsert _ _ _ _).mp hk with rfl | hk
    · exact le_rfl
    · exact h k hk
  | s3 s =>
    have h64 : round < 2^64 := by omega
    intro r hr'
    rcases (S3Store.mem_rounds_saveCheckpoint s weights h64).mp hr' with rfl | hr'
    · exact le_rfl
    · exact h r hr'

end AnyStore
end ConfluxFL
