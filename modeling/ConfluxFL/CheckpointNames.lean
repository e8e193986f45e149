import ConfluxFL.StoreHistory

/-! Which file names the directory scan takes for checkpoints. The reader of the number takes a
plus sign and leading zeros, which the writer never prints. -/
namespace ConfluxFL
namespace FileStore

/-- A checkpoint's name with the number spelled another way: a plus sign before the digits, or
a zero before other digits. -/
def Respelled (name : String) : Prop :=
  ∃ ds : List Char, ds ≠ [] ∧ ds.all Char.isDigit = true ∧ Nat.ofDigitChars 10 ds 0 < 2^64 ∧
    (name = "checkpoint-"++(String.ofList ('+'::ds)++".bin") ∨
      (1 < ds.length ∧ ds.head? = some '0') ∧ name = "checkpoint-"++(String.ofList ds++".bin"))

/-- The files under the names that saves write. -/
def own (s : FileStore) : FileStore :=
  { s with files := s.files.retain fun row => (roundOf row.1).any fun r => row.1 = checkpointName r }

/-- The scan reports a round because of the name a save gives it and of no other, so it reports
no round twice and none without its file, and foreign files do not matter to the newest
weights. -/
structure ReadsExactly (s : FileStore) : Prop where
  reported_iff : ∀ name ∈ s.files.keys, ∀ r < 2^64, roundOf name = some r ↔ name = checkpointName r
  nodup : s.listCheckpoints.Nodup
  existing : ∀ r ∈ s.listCheckpoints, checkpointName r ∈ s.files.keys
  latest : s.loadLatestWeights = s.own.loadLatestWeights

variable {s : FileStore} {name : String} {r : ℕ}

theorem roundOf_eq_some_iff : roundOf name = some r ↔
    ∃ number, name = "checkpoint-"++(number++".bin") ∧ Decimal.parseU64 number = some r := by
  simp only [roundOf, Option.bind_eq_some_iff, Decimal.stripPrefix_eq_some_iff,
    Decimal.stripSuffix_eq_some_iff]
  constructor
  · rintro ⟨rest,rfl,number,rfl,h⟩
    exact ⟨number,rfl,h⟩
  · rintro ⟨number,rfl,h⟩
    exact ⟨_,rfl,number,rfl,h⟩

/-- The number is digits, with or without a plus sign. -/
theorem exists_digits {number : String} (h : Decimal.parseU64 number = some r) :
    r < 2^64 ∧ ∃ ds : List Char, ds ≠ [] ∧ ds.all Char.isDigit = true ∧
      Nat.ofDigitChars 10 ds 0 = r ∧
      (number = String.ofList ('+'::ds) ∨ number = String.ofList ds) := by
  have hdigits {cs : List Char} (hcs : (Decimal.digits cs).filter (fun n => decide (n < 2^64)) =
      some r) : r < 2^64 ∧ cs ≠ [] ∧ cs.all Char.isDigit = true ∧ Nat.ofDigitChars 10 cs 0 = r := by
    obtain ⟨hd,hlt⟩ := Option.filter_eq_some_iff.mp hcs
    unfold Decimal.digits at hd
    split at hd
    · rename_i hcond
      exact ⟨of_decide_eq_true hlt,hcond.1,hcond.2,Option.some.inj hd⟩
    · cases hd
  unfold Decimal.parseU64 at h
  dsimp only at h
  split at h
  · rename_i cs hcs
    obtain ⟨hlt,hne,hall,hval⟩ := hdigits h
    exact ⟨hlt,cs,hne,hall,hval,.inl (String.toList_inj.mp (by rw [hcs, String.toList_ofList]))⟩
  · obtain ⟨hlt,hne,hall,hval⟩ := hdigits h
    exact ⟨hlt,_,hne,hall,hval,.inr (String.ofList_toList).symm⟩

/-- What the scan reads is the name of a save or a respelling of one. -/
theorem eq_or_respelled (h : roundOf name = some r) :
    r < 2^64 ∧ (name = checkpointName r ∨ Respelled name) := by
  obtain ⟨number,rfl,hnumber⟩ := roundOf_eq_some_iff.mp h
  obtain ⟨hlt,ds,hne,hall,rfl,rfl | rfl⟩ := exists_digits hnumber
  · exact ⟨hlt,.inr ⟨ds,hne,hall,hlt,.inl rfl⟩⟩
  refine ⟨hlt,?_⟩
  by_cases hplain : Decimal.Plain ds
  · left
    rw [checkpointName, Nat.toString_eq_ofList_toDigits,
      Decimal.toDigits_ofDigitChars hne hall hplain]
  · right
    obtain ⟨hhead,hlen⟩ := Classical.not_imp.mp hplain
    have hpos := List.length_pos_iff.mpr hne
    exact ⟨ds,hne,hall,hlt,.inr ⟨⟨by omega,hhead⟩,rfl⟩⟩

theorem checkpointName_ne_of_digits {ds : List Char} (h : ds ≠ Nat.toDigits 10 r) :
    "checkpoint-"++(String.ofList ds++".bin") ≠ checkpointName r := by
  intro he
  rw [checkpointName, String.append_right_inj, String.append_left_inj,
    Nat.toString_eq_ofList_toDigits, String.ofList_inj] at he
  exact h he

/-- A respelling is read as a round, and is no name of a save. -/
theorem exists_of_respelled (h : Respelled name) :
    ∃ r < 2^64, roundOf name = some r ∧ name ≠ checkpointName r := by
  obtain ⟨ds,hne,hall,hlt,hname⟩ := h
  have hdigits : (Decimal.digits ds).filter (fun n => decide (n < 2^64)) =
      some (Nat.ofDigitChars 10 ds 0) := by
    rw [Decimal.digits, if_pos ⟨hne,hall⟩]
    simpa [Option.filter_some] using hlt
  refine ⟨_,hlt,?_⟩
  rcases hname with rfl | ⟨⟨hlen,hhead⟩,rfl⟩
  · refine ⟨roundOf_eq_some_iff.mpr ⟨_,rfl,?_⟩,checkpointName_ne_of_digits fun he => ?_⟩
    · rw [Decimal.parseU64, String.toList_ofList]
      exact hdigits
    · have hplus : '+'.isDigit = true :=
        Decimal.isDigit_of_mem_toDigits (by rw [← he]; exact List.mem_cons_self)
      exact absurd hplus (by decide)
  · refine ⟨roundOf_eq_some_iff.mpr ⟨_,rfl,?_⟩,checkpointName_ne_of_digits fun he => ?_⟩
    · obtain ⟨rest,rfl⟩ := List.head?_eq_some_iff.mp hhead
      rw [Decimal.parseU64, String.toList_ofList]
      exact hdigits
    · have hone := (he ▸ Decimal.plain_toDigits _ : Decimal.Plain ds) hhead
      omega

/-- One name: the scan and the writer agree on it exactly when it is no respelling. -/
theorem roundOf_iff_checkpointName :
    (∀ r < 2^64, roundOf name = some r ↔ name = checkpointName r) ↔ ¬Respelled name := by
  constructor
  · intro h hresp
    obtain ⟨r,hr,hround,hne⟩ := exists_of_respelled hresp
    exact hne ((h r hr).mp hround)
  · intro hresp r hr
    constructor
    · exact fun h => (eq_or_respelled h).2.resolve_right hresp
    · rintro rfl
      exact roundOf_checkpointName hr

/-- The highest round is one of those the scan came by. -/
theorem mem_of_foldl_latest {l : List ℕ} {m : ℕ} {latest : Option ℕ}
    (h : l.foldl (fun latest round => some (latest.elim round (max · round))) latest = some m) :
    m ∈ l ∨ latest = some m := by
  induction l generalizing latest with
  | nil => exact .inr h
  | cons a l ih =>
    rw [List.foldl_cons] at h
    rcases ih h with hm | hm
    · exact .inl (List.mem_cons_of_mem a hm)
    · cases latest with
      | none => exact .inl (Option.some.inj hm ▸ List.mem_cons_self)
      | some b =>
        rcases max_choice b a with hmax | hmax
        · exact .inr (by rw [← hm, Option.elim_some, hmax])
        · left
          rw [Option.elim_some, hmax] at hm
          exact Option.some.inj hm ▸ List.mem_cons_self

theorem mem_of_latestRoundIn (h : s.latestRoundIn = some r) :
    r ∈ s.files.keys.filterMap roundOf :=
  (mem_of_foldl_latest h).resolve_right nofun

section Foreign
variable (h : ∀ name ∈ s.files.keys, ¬Respelled name)
include h

theorem eq_checkpointName (hname : name ∈ s.files.keys) (hr : roundOf name = some r) :
    name = checkpointName r := (eq_or_respelled hr).2.resolve_right (h name hname)

theorem rounds_own :
    s.own.files.keys.filterMap roundOf = s.files.keys.filterMap roundOf := by
  have hkeys : s.own.files.keys = s.files.keys.filter fun name =>
      (roundOf name).any fun r => name = checkpointName r := by
    rw [own, KeyedTable.keys, KeyedTable.keys, KeyedTable.retain, List.filter_map]
    rfl
  rw [hkeys, List.filterMap_filter]
  refine List.filterMap_congr fun name hname => ?_
  cases hr : roundOf name with
  | none => rfl
  | some r => simp [eq_checkpointName h hname hr]

theorem mem_of_listed (hr : r ∈ s.listCheckpoints) :
    checkpointName r ∈ s.files.keys ∧ r < 2^64 := by
  obtain ⟨name,hname,hround⟩ := List.mem_filterMap.mp (StableSort.mem_sortBy.mp hr)
  exact ⟨eq_checkpointName h hname hround ▸ hname,(eq_or_respelled hround).1⟩

theorem listed_nodup : s.listCheckpoints.Nodup := by
  refine StableSort.sortBy_perm.nodup_iff.mpr ?_
  rw [List.Nodup, List.pairwise_filterMap]
  refine (List.Pairwise.imp_of_mem ?_ s.files.nodup : s.files.keys.Pairwise _)
  rintro a b ha hb hab r hr r' hr' rfl
  exact hab ((eq_checkpointName h ha hr).trans (eq_checkpointName h hb hr').symm)

theorem loadLatestWeights_own : s.own.loadLatestWeights = s.loadLatestWeights := by
  have hlatest : s.own.latestRoundIn = s.latestRoundIn := by
    rw [latestRoundIn, rounds_own h, latestRoundIn]
  rw [loadLatestWeights, hlatest, loadLatestWeights]
  cases hr : s.latestRoundIn with
  | none => rfl
  | some r =>
    have hlisted := mem_of_latestRoundIn hr
    obtain ⟨-,hlt⟩ := mem_of_listed h (StableSort.mem_sortBy.mpr hlisted)
    have hread : s.own.read (checkpointName r) = s.read (checkpointName r) := by
      unfold read own
      rw [KeyedTable.lookup_retain _ fun _ => by simp [roundOf_checkpointName hlt]]
    simp only [loadCheckpointFile, hread]
    rfl

end Foreign

/-- The scan and the writer agree on a name exactly when it is no respelling, and on a directory
exactly when it holds none. -/
theorem readsExactly_iff (s : FileStore) (name : String) :
    ((∀ r < 2^64, roundOf name = some r ↔ name = checkpointName r) ↔ ¬Respelled name) ∧
      (s.ReadsExactly ↔ ∀ name ∈ s.files.keys, ¬Respelled name) := by
  refine ⟨roundOf_iff_checkpointName,fun h name hname => ?_,fun h => ?_⟩
  · exact roundOf_iff_checkpointName.mp (h.reported_iff name hname)
  · exact ⟨fun name hname => roundOf_iff_checkpointName.mpr (h name hname),listed_nodup h,
      fun r hr => (mem_of_listed h hr).1,(loadLatestWeights_own h).symm⟩

/-- A copy under a padded number is reported as round 7, and the newest weights cannot be loaded
for want of the file of that round. -/
theorem not_readsExactly_padded :
    let s : FileStore := ⟨"checkpoints",⟨[("checkpoint-3.bin",[]),("checkpoint-007.bin",[])],by
      decide⟩⟩
    s.listCheckpoints = [3,7] ∧
      s.loadLatestWeights = .error (.io "checkpoints/checkpoint-7.bin"
        "No such file or directory (os error 2)") ∧
      ¬s.ReadsExactly := by
  intro s
  have hlist : s.listCheckpoints = [3,7] := by decide +kernel
  have hload : s.loadLatestWeights = .error (.io "checkpoints/checkpoint-7.bin"
      "No such file or directory (os error 2)") := by
    decide +kernel
  refine ⟨hlist,hload,fun h => ?_⟩
  have hmem := h.existing 7 (by rw [hlist]; decide)
  exact absurd hmem (by decide +kernel)

end FileStore
end ConfluxFL
