import Mathlib.Data.List.MinMax
import ConfluxFL.FileStore
import ConfluxFL.Lib.LastWrite
import ConfluxFL.Lib.Calls

/-! The checkpoint stores under the same saves. What a list of saves leaves on record is, for
each round, the weights of its last save; three backends keep all of it and the in-process one
its highest round. -/
namespace ConfluxFL
open LastWrite Transcript

/-- The round and the weights of one save. -/
abbrev Save := ℕ × List F32

/-- What is on record for each round. -/
abbrev History := ℕ → Option (List F32)

namespace History

def save (h : History) (s : Save) : History := Function.update h s.1 (some s.2)

def of (saves : List Save) : History := Run.after save (fun _ => none) saves

/-- `round` is on record, and no round above it is. -/
def Highest (h : History) (round : ℕ) : Prop := h round ≠ none ∧ ∀ r, h r ≠ none → r ≤ round

theorem of_eq_some_iff {saves : List Save} {r : ℕ} {weights : List F32} :
    of saves r = some weights ↔ LastOf (fun s => s.1 = r) saves (r,weights) := by
  have hwrite : ∀ (h : History) (s : Save), s.1 = r → h.save s r = some s.2 := by
    rintro h s rfl
    exact Function.update_self ..
  have hframe : ∀ (h : History) (s : Save), ¬s.1 = r → h.save s r = h r :=
    fun h s hs => Function.update_of_ne (Ne.symm hs) ..
  refine (cell_after (fun h : History => h r) (fun s : Save => some s.2) hwrite hframe rfl).trans
    ⟨?_,fun h => ⟨_,h,rfl⟩⟩
  rintro ⟨⟨r',w⟩,hlast,hw⟩
  obtain rfl : r' = r := hlast.1
  rwa [← Option.some.inj hw]

theorem of_ne_none_iff {saves : List Save} {r : ℕ} :
    of saves r ≠ none ↔ r ∈ saves.map Prod.fst := by
  rw [Option.ne_none_iff_exists']
  constructor
  · rintro ⟨weights,h⟩
    obtain ⟨s,hs,rfl⟩ := exists_lastOf_iff.mp ⟨_,of_eq_some_iff.mp h⟩
    exact List.mem_map_of_mem hs
  · intro h
    obtain ⟨s,hs,hr⟩ := List.mem_map.mp h
    obtain ⟨⟨r',weights⟩,hlast⟩ : ∃ w, LastOf (fun s : Save => s.1 = r) saves w :=
      exists_lastOf_iff.mpr ⟨s,hs,hr⟩
    obtain rfl : r' = r := hlast.1
    exact ⟨weights,of_eq_some_iff.mpr hlast⟩

theorem exists_highest {saves : List Save} (h : saves ≠ []) : ∃ r, Highest (of saves) r := by
  have hpos : 0 < (saves.map Prod.fst).length := by
    rw [List.length_map]
    exact List.length_pos_of_ne_nil h
  refine ⟨List.maximum_of_length_pos hpos,of_ne_none_iff.mpr (List.maximum_of_length_pos_mem hpos),
    fun r hr => ?_⟩
  exact List.le_maximum_of_length_pos_of_mem (of_ne_none_iff.mp hr) hpos

end History

/-- What a backend that keeps every round answers when `h` is on record. -/
structure Serves (h : History) (latest : Except StoreError (List F32)) (listing : List ℕ)
    (load : ℕ → Except StoreError (List F32)) : Prop where
  ascending : listing.Pairwise (· < ·)
  mem_iff : ∀ r, r ∈ listing ↔ h r ≠ none
  load_eq : ∀ r < 2^64, load r = (h r).elim (.error .noCheckpoint) .ok
  latest_eq : ∀ r weights, h.Highest r → h r = some weights → latest = .ok weights

section Filed
variable {κ : Type} [DecidableEq κ] {name : ℕ → κ} {roundOf : κ → Option ℕ} {bound : ℕ}
  {t t' : KeyedTable κ (List UInt8)} {h : History} {r : ℕ} {weights : List F32}

/-- A table holds the encodings of a history whose rounds are below `bound`, each under its name.
Rows that name no round may be there too. -/
structure Filed (name : ℕ → κ) (roundOf : κ → Option ℕ) (bound : ℕ)
    (t : KeyedTable κ (List UInt8)) (h : History) : Prop where
  roundOf_name : ∀ r < 2^64, roundOf (name r) = some r
  named : ∀ key ∈ t.keys, ∀ r, roundOf key = some r → h r ≠ none ∧ key = name r
  rows : ∀ r < 2^64, t.lookup (name r) = (h r).map encodeWeights
  bounded : ∀ r, h r ≠ none → r < bound
  bound_le : bound ≤ 2^64

namespace Filed

/-- Nothing is on record in a table whose keys name no round. -/
theorem empty (hbound : bound ≤ 2^64) (hname : ∀ r < 2^64, roundOf (name r) = some r)
    (ht : ∀ key ∈ t.keys, roundOf key = none) : Filed name roundOf bound t fun _ => none := by
  refine ⟨hname,fun key hkey r hr => ?_,fun r hr => ?_,fun r hr => absurd rfl hr,hbound⟩
  · rw [ht key hkey] at hr
    cases hr
  · rw [Option.map_none, KeyedTable.lookup_eq_none_iff]
    intro hmem
    have hnone := ht _ hmem
    rw [hname r hr] at hnone
    cases hnone

theorem lt (hf : Filed name roundOf bound t h) (hr : h r ≠ none) : r < 2^64 :=
  (hf.bounded r hr).trans_le hf.bound_le

theorem name_inj (hf : Filed name roundOf bound t h) {r' : ℕ} (hr : r < 2^64) (hr' : r' < 2^64)
    (he : name r = name r') : r = r' := by
  have hname := hf.roundOf_name r hr
  rw [he, hf.roundOf_name r' hr'] at hname
  exact (Option.some.inj hname).symm

/-- What leaves the rows of all rounds alone leaves what is on record. -/
theorem frame (hf : Filed name roundOf bound t h)
    (hframe : ∀ key, roundOf key ≠ none → t'.lookup key = t.lookup key) :
    Filed name roundOf bound t' h := by
  refine ⟨hf.roundOf_name,fun key hkey r hr => ?_,fun r hr => ?_,hf.bounded,hf.bound_le⟩
  · refine hf.named key ?_ r hr
    by_contra hold
    rw [← KeyedTable.lookup_eq_none_iff, ← hframe key (by simp [hr]),
      KeyedTable.lookup_eq_none_iff] at hold
    exact hold hkey
  · rw [hframe _ (by simp [hf.roundOf_name r hr]), hf.rows r hr]

/-- A save writes the row of its round and leaves the rows of the others. -/
theorem save (hf : Filed name roundOf bound t h) (hr : r < bound)
    (hself : t'.lookup (name r) = some (encodeWeights weights))
    (hframe : ∀ key, roundOf key ≠ none → key ≠ name r → t'.lookup key = t.lookup key) :
    Filed name roundOf bound t' (h.save (r,weights)) := by
  have hlt : r < 2^64 := hr.trans_le hf.bound_le
  refine ⟨hf.roundOf_name,fun key hkey r' hr' => ?_,fun r' hr' => ?_,fun r' hr' => ?_,hf.bound_le⟩
  · by_cases he : key = name r
    · have hsome := hf.roundOf_name r hlt
      rw [← he, hr'] at hsome
      obtain rfl := Option.some.inj hsome
      exact ⟨by simp [History.save],he⟩
    · have hold : t.lookup key ≠ none := by
        rw [← hframe key (by simp [hr']) he, Ne, KeyedTable.lookup_eq_none_iff, not_not]
        exact hkey
      rw [Ne, KeyedTable.lookup_eq_none_iff, not_not] at hold
      obtain ⟨hh,hname⟩ := hf.named key hold r' hr'
      have hne : r' ≠ r := fun hrr => he (hrr ▸ hname)
      exact ⟨by rwa [History.save, Function.update_of_ne hne],hname⟩
  · by_cases he : r' = r
    · subst he
      rw [hself, History.save, Function.update_self, Option.map_some]
    · have hne : name r' ≠ name r := fun hnn => he (hf.name_inj hr' hlt hnn)
      rw [hframe _ (by simp [hf.roundOf_name r' hr']) hne, hf.rows r' hr', History.save,
        Function.update_of_ne he]
  · by_cases he : r' = r
    · exact he ▸ hr
    · exact hf.bounded r' (by rwa [History.save, Function.update_of_ne he] at hr')

theorem mem_rounds (hf : Filed name roundOf bound t h) :
    r ∈ t.keys.filterMap roundOf ↔ h r ≠ none := by
  rw [List.mem_filterMap]
  constructor
  · rintro ⟨key,hkey,hr⟩
    exact (hf.named key hkey r hr).1
  · intro hr
    have hlt := hf.lt hr
    refine ⟨name r,?_,hf.roundOf_name r hlt⟩
    by_contra hmem
    rw [← KeyedTable.lookup_eq_none_iff, hf.rows r hlt, Option.map_eq_none_iff] at hmem
    exact hr hmem

theorem rounds_nodup (hf : Filed name roundOf bound t h) : (t.keys.filterMap roundOf).Nodup := by
  rw [List.Nodup, List.pairwise_filterMap]
  refine (List.Pairwise.imp_of_mem ?_ t.nodup : t.keys.Pairwise _)
  rintro a b ha hb hab r hr r' hr' rfl
  exact hab ((hf.named a ha r hr).2.trans (hf.named b hb r hr').2.symm)

end Filed
end Filed

namespace InMemoryStore
variable {s : InMemoryStore} {h : History}

/-- The store holds the highest round of a history. -/
structure KeepsHighest (s : InMemoryStore) (h : History) : Prop where
  highest : ∀ r, h r ≠ none → r ≤ s.latest.1 ∧ h s.latest.1 = some s.latest.2
  fresh : (∀ r, h r = none) → s.latest.1 = 0

def saveAll (s : InMemoryStore) (saves : List Save) : InMemoryStore :=
  Run.after (fun s save => s.saveCheckpoint save.1 save.2) s saves

theorem KeepsHighest.save (hk : KeepsHighest s h) (r : ℕ) (weights : List F32) :
    KeepsHighest (s.saveCheckpoint r weights) (h.save (r,weights)) := by
  have hsome : h.save (r,weights) r = some weights := Function.update_self ..
  by_cases hle : s.latest.1 ≤ r
  · rw [saveCheckpoint, if_pos hle]
    refine ⟨fun r' hr' => ⟨?_,hsome⟩,fun hnone => ?_⟩
    · by_cases he : r' = r
      · exact he.le
      · rw [History.save, Function.update_of_ne he] at hr'
        exact ((hk.highest r' hr').1).trans hle
    · rw [hnone r] at hsome
      cases hsome
  · rw [saveCheckpoint, if_neg hle]
    have hex : ∃ r', h r' ≠ none := by
      by_contra hall
      have := hk.fresh fun r' => not_not.mp fun hr' => hall ⟨r',hr'⟩
      omega
    obtain ⟨r₀,hr₀⟩ := hex
    refine ⟨fun r' hr' => ⟨?_,?_⟩,fun hnone => ?_⟩
    · by_cases he : r' = r
      · omega
      · rw [History.save, Function.update_of_ne he] at hr'
        exact (hk.highest r' hr').1
    · rw [History.save, Function.update_of_ne (by omega)]
      exact (hk.highest r₀ hr₀).2
    · rw [hnone r] at hsome
      cases hsome

theorem KeepsHighest.latest_eq (hk : KeepsHighest s h) {r : ℕ} {weights : List F32}
    (hr : h.Highest r) (hw : h r = some weights) : s.loadLatestWeights = .ok weights := by
  obtain ⟨hle,hs⟩ := hk.highest r hr.1
  have hge := hr.2 s.latest.1 (by simp [hs])
  have he : s.latest.1 = r := le_antisymm hge hle
  rw [he, hw] at hs
  rw [loadLatestWeights, Option.some.inj hs]

end InMemoryStore

namespace FileStore
variable {s : FileStore} {bound : ℕ} {h : History}

theorem roundOf_checkpointName {round : ℕ} (hr : round < 2^64) :
    roundOf (checkpointName round) = some round := by
  rw [roundOf, checkpointName, Decimal.stripPrefix_append, Option.bind_some,
    Decimal.stripSuffix_append, Option.bind_some, Decimal.parseU64_toString hr]

/-- A temporary file names no round. -/
theorem roundOf_tmpName (round : ℕ) : roundOf (tmpName round) = none := by
  have htail : Decimal.stripSuffix ".bin" (toString round++".bin"++".tmp") = none := by
    rw [Decimal.stripSuffix, List.isSuffixOf?, String.toList_append, List.reverse_append]
    rfl
  rw [roundOf, tmpName, checkpointName, String.append_assoc, Decimal.stripPrefix_append,
    Option.bind_some, htail]
  rfl

/-- The directory holds the encodings of a history. -/
def FiledIn (s : FileStore) (bound : ℕ) (h : History) : Prop :=
  Filed checkpointName roundOf bound s.files h

def saveAll (s : FileStore) (saves : List Save) : FileStore :=
  Run.after (fun s save => (s.saveCheckpoint .never save.1 save.2).2) s saves

/-- The files after a save: the round's own is written, the temporary one is gone. -/
theorem lookup_saveCheckpoint (s : FileStore) (round : ℕ) (weights : List F32) (key : String) :
    (s.saveCheckpoint .never round weights).2.files.lookup key =
      if key = checkpointName round then some (encodeWeights weights)
      else if key = tmpName round then none else s.files.lookup key := by
  have hw : (s.write (tmpName round) (encodeWeights weights)).files.lookup (tmpName round) =
      some (encodeWeights weights) := KeyedTable.lookup_upsert_self _ _ _
  simp only [saveCheckpoint, DiskFault.never, rename, hw, KeyedTable.lookup_upsert,
    KeyedTable.lookup_retain_ne]
  rw [write, KeyedTable.lookup_upsert]
  split
  · rfl
  · split <;> simp_all

theorem FiledIn.save (hs : s.FiledIn bound h) {r : ℕ} (hr : r < bound) (weights : List F32) :
    (s.saveCheckpoint .never r weights).2.FiledIn bound (h.save (r,weights)) := by
  refine Filed.save hs hr ?_ fun key hkey hne => ?_
  · rw [lookup_saveCheckpoint, if_pos rfl]
  · have htmp : key ≠ tmpName r := fun he => hkey (he ▸ roundOf_tmpName r)
    rw [lookup_saveCheckpoint, if_neg hne, if_neg htmp]

/-- The scan for the highest number ends with it. -/
theorem foldl_latest_eq {l : List ℕ} {m : ℕ} {latest : Option ℕ} (hm : m ∈ l ∨ latest = some m)
    (hl : ∀ r ∈ l, r ≤ m) (hlatest : ∀ r, latest = some r → r ≤ m) :
    l.foldl (fun latest round => some (latest.elim round (max · round))) latest = some m := by
  induction l generalizing latest with
  | nil => exact hm.resolve_left List.not_mem_nil
  | cons a l ih =>
    have ha := hl a List.mem_cons_self
    rw [List.foldl_cons]
    refine ih ?_ (fun r hr => hl r (List.mem_cons_of_mem a hr)) ?_
    · rcases hm with hm | rfl
      · rcases List.mem_cons.mp hm with rfl | hm
        · cases latest with
          | none => exact .inr rfl
          | some b => exact .inr (by simpa using hlatest b rfl)
        · exact .inl hm
      · exact .inr (by simpa using ha)
    · intro r hr
      cases latest with
      | none => exact (Option.some.inj hr) ▸ ha
      | some b =>
        have hb := hlatest b rfl
        rw [← Option.some.inj hr]
        exact max_le hb ha

theorem loadCheckpointFile_eq (hs : s.FiledIn bound h) {r : ℕ} (hr : r < 2^64) {weights : List F32}
    (hw : h r = some weights) : s.loadCheckpointFile r = .ok weights := by
  have hrow := hs.rows r hr
  rw [hw, Option.map_some] at hrow
  rw [loadCheckpointFile, read, hrow]
  exact decodeCheckpoint_encodeWeights _ weights

theorem FiledIn.mem_listCheckpoints_iff (hs : s.FiledIn bound h) {r : ℕ} :
    r ∈ s.listCheckpoints ↔ h r ≠ none := StableSort.mem_sortBy.trans hs.mem_rounds

theorem FiledIn.serves (hs : s.FiledIn bound h) :
    Serves h s.loadLatestWeights s.listCheckpoints s.loadCheckpoint := by
  refine ⟨StableSort.sortBy_id_ascending hs.rounds_nodup,fun r => hs.mem_listCheckpoints_iff,
    fun r hr => ?_,fun r weights hr hw => ?_⟩
  · have hrow := hs.rows r hr
    cases hw : h r with
    | none =>
      rw [hw, Option.map_none, KeyedTable.lookup_eq_none_iff] at hrow
      rw [loadCheckpoint, if_neg hrow]
      rfl
    | some weights =>
      rw [hw, Option.map_some] at hrow
      rw [loadCheckpoint, if_pos (KeyedTable.mem_keys_of_lookup hrow),
        loadCheckpointFile_eq hs hr hw]
      rfl
  · have hlatest : s.latestRoundIn = some r :=
      foldl_latest_eq (.inl (hs.mem_rounds.mpr hr.1)) (fun r' hr' => hr.2 r' (hs.mem_rounds.mp hr'))
        (fun r' hr' => by cases hr')
    simp only [loadLatestWeights, hlatest]
    exact loadCheckpointFile_eq hs (hs.lt hr.1) hw

end FileStore

namespace S3Store
variable {s : S3Store} {h : History}

def Holds (s : S3Store) (h : History) : Prop := Filed s.keyFor s.roundOf (2^63) s.objects h

def saveAll (s : S3Store) (saves : List Save) : S3Store :=
  Run.after (fun s save => s.saveCheckpoint save.1 save.2) s saves

theorem Holds.save (hs : s.Holds h) {r : ℕ} (hr : r < 2^63) (weights : List F32) :
    (s.saveCheckpoint r weights).Holds (h.save (r,weights)) :=
  Filed.save hs hr (KeyedTable.lookup_upsert_self _ _ _)
    fun _ _ hne => KeyedTable.lookup_upsert_ne _ hne _

theorem fetch_eq (hs : s.Holds h) {r : ℕ} (hr : r < 2^64) {weights : List F32}
    (hw : h r = some weights) : s.fetch r = .ok weights := by
  have hrow := hs.rows r hr
  rw [hw, Option.map_some] at hrow
  rw [fetch, hrow]
  exact decodeCheckpoint_encodeWeights _ weights

theorem Holds.mem_rounds_iff (hs : s.Holds h) {r : ℕ} : r ∈ s.rounds ↔ h r ≠ none :=
  StableSort.mem_sortBy.trans (Filed.mem_rounds hs)

theorem Holds.serves (hs : s.Holds h) :
    Serves h s.loadLatestWeights s.listCheckpoints s.loadCheckpoint := by
  refine ⟨StableSort.sortBy_id_ascending (Filed.rounds_nodup hs),fun r => hs.mem_rounds_iff,
    fun r hr => ?_,fun r weights hr hw => ?_⟩
  · cases hw : h r with
    | none => exact if_neg fun hmem => hs.mem_rounds_iff.mp hmem hw
    | some weights =>
      have hmem : r ∈ s.rounds := hs.mem_rounds_iff.mpr (by simp [hw])
      exact (if_pos hmem).trans (fetch_eq hs hr hw)
  · have hlatest := getLast?_rounds (hs.mem_rounds_iff.mpr hr.1)
      fun r' hr' => hr.2 r' (hs.mem_rounds_iff.mp hr')
    rw [loadLatestWeights, hlatest]
    exact fetch_eq hs (hs.lt hr.1) hw

end S3Store

namespace PostgresStore
variable {s : PostgresStore} {h : History}

/-- The casts to a signed column and back give the round number. -/
theorem asU64_asI64 {round : ℕ} (hr : round < 2^64) : asU64 (asI64 round) = round := by
  have hm : round % 2^64 = round := Nat.mod_eq_of_lt hr
  rw [asU64, asI64, hm]
  split <;> omega

def Holds (s : PostgresStore) (h : History) : Prop :=
  Filed asI64 (fun column => some (asU64 column)) (2^63) s.rows h

def saveAll (s : PostgresStore) (saves : List Save) : PostgresStore :=
  Run.after (fun s save => s.saveCheckpoint save.1 save.2) s saves

theorem Holds.save (hs : s.Holds h) {r : ℕ} (hr : r < 2^63) (weights : List F32) :
    (s.saveCheckpoint r weights).Holds (h.save (r,weights)) :=
  Filed.save hs hr (KeyedTable.lookup_upsert_self _ _ _)
    fun _ _ hne => KeyedTable.lookup_upsert_ne _ hne _

/-- The columns on record are rounds, uncast. -/
theorem Holds.column (hs : s.Holds h) {column : ℤ} (hc : column ∈ s.rows.keys) :
    h (asU64 column) ≠ none ∧ column = asU64 column := by
  obtain ⟨hh,hname⟩ := hs.named column hc _ rfl
  refine ⟨hh,?_⟩
  rwa [asI64_of_lt (hs.bounded _ hh)] at hname

theorem Holds.mem_listCheckpoints_iff (hs : s.Holds h) {r : ℕ} :
    r ∈ s.listCheckpoints ↔ h r ≠ none := by
  rw [listCheckpoints, List.mem_map, ← Filed.mem_rounds hs, List.mem_filterMap]
  simp only [StableSort.mem_sortBy, Option.some.injEq]

theorem Holds.ascending (hs : s.Holds h) : s.listCheckpoints.Pairwise (· < ·) := by
  rw [listCheckpoints, List.pairwise_map]
  refine (StableSort.sortBy_id_ascending s.rows.nodup).imp_of_mem fun {a b} ha hb hab => ?_
  have hca := (hs.column (StableSort.mem_sortBy.mp ha)).2
  have hcb := (hs.column (StableSort.mem_sortBy.mp hb)).2
  omega

theorem Holds.serves (hs : s.Holds h) :
    Serves h s.loadLatestWeights s.listCheckpoints s.loadCheckpoint := by
  refine ⟨hs.ascending,fun r => hs.mem_listCheckpoints_iff,fun r hr => ?_,
    fun r weights hr hw => ?_⟩
  · have hrow := hs.rows r hr
    rw [loadCheckpoint, hrow]
    cases h r with
    | none => rfl
    | some weights => exact decodeCheckpoint_encodeWeights _ weights
  · have hlt := hs.bounded r hr.1
    have hrow := hs.rows r (hs.lt hr.1)
    rw [hw, Option.map_some, KeyedTable.lookup_eq_some_iff] at hrow
    have hlatest : s.rows.latest = some (asI64 r,encodeWeights weights) := by
      refine KeyedTable.latest_eq_some _ hrow fun row hmem => ?_
      obtain ⟨hh,hc⟩ := hs.column (List.mem_map_of_mem hmem : row.1 ∈ s.rows.keys)
      have hle := hr.2 _ hh
      have hcast := asI64_of_lt hlt
      simp only
      omega
    rw [loadLatestWeights, hlatest]
    exact decodeCheckpoint_encodeWeights _ weights

end PostgresStore

section Agreement
/-- The last save of the highest round. -/
def Newest (saves : List Save) (save : Save) : Prop :=
  LastOf (fun s => s.1 = save.1) saves save ∧ ∀ s ∈ saves, s.1 ≤ save.1

/-- A backend lists the rounds that were saved, strictly ascending, and loads for each round its
last save, and nothing for the others. -/
structure KeepsAll (saves : List Save) (listing : List ℕ)
    (load : ℕ → Except StoreError (List F32)) : Prop where
  ascending : listing.Pairwise (· < ·)
  mem_iff : ∀ r, r ∈ listing ↔ r ∈ saves.map Prod.fst
  load_ok_iff : ∀ r < 2^64, ∀ weights,
    load r = .ok weights ↔ LastOf (fun s => s.1 = r) saves (r,weights)
  load_none_iff : ∀ r < 2^64, load r = .error .noCheckpoint ↔ r ∉ saves.map Prod.fst

theorem Serves.keepsAll {saves : List Save} {latest : Except StoreError (List F32)}
    {listing : List ℕ} {load : ℕ → Except StoreError (List F32)}
    (hs : Serves (History.of saves) latest listing load) : KeepsAll saves listing load := by
  refine ⟨hs.ascending,fun r => (hs.mem_iff r).trans History.of_ne_none_iff,
    fun r hr weights => ?_,fun r hr => ?_⟩
  · rw [hs.load_eq r hr, ← History.of_eq_some_iff]
    cases History.of saves r <;> simp
  · rw [hs.load_eq r hr, ← History.of_ne_none_iff]
    cases History.of saves r <;> simp

theorem exists_newest {saves : List Save} (hne : saves ≠ []) : ∃ save, Newest saves save ∧
    (History.of saves).Highest save.1 ∧ History.of saves save.1 = some save.2 := by
  obtain ⟨r,hr⟩ := History.exists_highest hne
  obtain ⟨weights,hw⟩ := Option.ne_none_iff_exists'.mp hr.1
  refine ⟨(r,weights),⟨History.of_eq_some_iff.mp hw,fun s hs => ?_⟩,hr,hw⟩
  exact hr.2 s.1 (History.of_ne_none_iff.mpr (List.mem_map_of_mem hs))

theorem FileStore.filedIn_saveAll {s : FileStore}
    (hs : ∀ name ∈ s.files.keys, roundOf name = none) {saves : List Save}
    (hbound : ∀ save ∈ saves, save.1 < 2^63) :
    (s.saveAll saves).FiledIn (2^63) (History.of saves) :=
  related_after (R := (FileStore.FiledIn · (2^63))) (Run.always_of_forall_mem hbound)
    (fun _ _ save hs hr => hs.save hr save.2)
    (.empty (by decide) (fun _ hr => roundOf_checkpointName hr) hs)

theorem S3Store.holds_saveAll {s : S3Store} (hs : ∀ key ∈ s.objects.keys, s.roundOf key = none)
    {saves : List Save} (hbound : ∀ save ∈ saves, save.1 < 2^63) :
    (s.saveAll saves).Holds (History.of saves) :=
  related_after (R := S3Store.Holds) (Run.always_of_forall_mem hbound)
    (fun _ _ save hs hr => hs.save hr save.2)
    (.empty (by decide) (fun _ hr => s.roundOf_keyFor hr) hs)

theorem PostgresStore.holds_saveAll (table : String) {saves : List Save}
    (hbound : ∀ save ∈ saves, save.1 < 2^63) :
    (PostgresStore.saveAll ⟨table,.empty⟩ saves).Holds (History.of saves) :=
  related_after (R := PostgresStore.Holds) (Run.always_of_forall_mem hbound)
    (fun _ _ save hs hr => hs.save hr save.2)
    (.empty (by decide) (fun _ hr => congrArg some (asU64_asI64 hr))
      fun _ hkey => absurd hkey List.not_mem_nil)

theorem InMemoryStore.keepsHighest_saveAll (initialWeights : List F32) (saves : List Save) :
    KeepsHighest ((new initialWeights).saveAll saves) (History.of saves) :=
  related_after (R := KeepsHighest) (Run.always_of_forall_mem (p := fun _ => True) (by simp))
    (fun _ _ save hs _ => hs.save save.1 save.2) ⟨fun _ hr => absurd rfl hr,fun _ => rfl⟩

/-- After the same saves, in whatever order of rounds, the four backends serve the last save of
the highest round, and the three with a history list and load the same rounds. The directory, the
bucket and the table hold no checkpoint to begin with. -/
theorem stores_agree (saves : List Save) (hne : saves ≠ [])
    (hbound : ∀ save ∈ saves, save.1 < 2^63) (initialWeights : List F32) (directory : FileStore)
    (hdirectory : ∀ name ∈ directory.files.keys, FileStore.roundOf name = none) (table : String)
    (bucket : S3Store) (hbucket : ∀ key ∈ bucket.objects.keys, bucket.roundOf key = none) :
    (∃ save, Newest saves save ∧
      ((InMemoryStore.new initialWeights).saveAll saves).loadLatestWeights = .ok save.2 ∧
      (directory.saveAll saves).loadLatestWeights = .ok save.2 ∧
      (PostgresStore.saveAll ⟨table,.empty⟩ saves).loadLatestWeights = .ok save.2 ∧
      (bucket.saveAll saves).loadLatestWeights = .ok save.2) ∧
    KeepsAll saves (directory.saveAll saves).listCheckpoints
      (directory.saveAll saves).loadCheckpoint ∧
    KeepsAll saves (PostgresStore.saveAll ⟨table,.empty⟩ saves).listCheckpoints
      (PostgresStore.saveAll ⟨table,.empty⟩ saves).loadCheckpoint ∧
    KeepsAll saves (bucket.saveAll saves).listCheckpoints
      (bucket.saveAll saves).loadCheckpoint := by
  have hmemory := InMemoryStore.keepsHighest_saveAll initialWeights saves
  have hfiles := (FileStore.filedIn_saveAll hdirectory hbound).serves
  have hrows := (PostgresStore.holds_saveAll table hbound).serves
  have hobjects := (S3Store.holds_saveAll hbucket hbound).serves
  obtain ⟨save,hnewest,hhighest,hw⟩ := exists_newest hne
  exact ⟨⟨save,hnewest,hmemory.latest_eq hhighest hw,hfiles.latest_eq _ _ hhighest hw,
    hrows.latest_eq _ _ hhighest hw,hobjects.latest_eq _ _ hhighest hw⟩,
    hfiles.keepsAll,hrows.keepsAll,hobjects.keepsAll⟩

/-- Two rounds saved in the wrong order, and the higher one again. -/
theorem stores_agree_outOfOrder :
    let saves : List Save := [(2,[F32.one]),(1,[F32.zero]),(2,[F32.zero])]
    let directory : FileStore := ⟨"checkpoints",.empty⟩
    let bucket : S3Store := ⟨"run",.empty⟩
    (∃ save, Newest saves save ∧
      ((InMemoryStore.new []).saveAll saves).loadLatestWeights = .ok save.2 ∧
      (directory.saveAll saves).loadLatestWeights = .ok save.2 ∧
      (PostgresStore.saveAll ⟨"weights",.empty⟩ saves).loadLatestWeights = .ok save.2 ∧
      (bucket.saveAll saves).loadLatestWeights = .ok save.2) ∧
    KeepsAll saves (directory.saveAll saves).listCheckpoints
      (directory.saveAll saves).loadCheckpoint ∧
    KeepsAll saves (PostgresStore.saveAll ⟨"weights",.empty⟩ saves).listCheckpoints
      (PostgresStore.saveAll ⟨"weights",.empty⟩ saves).loadCheckpoint ∧
    KeepsAll saves (bucket.saveAll saves).listCheckpoints (bucket.saveAll saves).loadCheckpoint :=
  stores_agree [(2,[F32.one]),(1,[F32.zero]),(2,[F32.zero])] (List.cons_ne_nil _ _)
    (by simp) [] ⟨"checkpoints",.empty⟩ (fun _ h => absurd h List.not_mem_nil) "weights"
    ⟨"run",.empty⟩ (fun _ h => absurd h List.not_mem_nil)

end Agreement
end ConfluxFL
