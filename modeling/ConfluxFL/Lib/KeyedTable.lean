import Mathlib.Order.Lattice
import Mathlib.Data.List.Nodup
import Mathlib.Data.List.Perm.Basic

/-! Tables with one row per key: insertion that overwrites the row of an existing key, lookup
by key, and the row of the greatest key. -/

/-- Rows whose keys are pairwise distinct. -/
structure KeyedTable (κ β : Type*) where
  rows : List (κ × β)
  nodup : (rows.map Prod.fst).Nodup

namespace KeyedTable
variable {κ β : Type*}

def empty : KeyedTable κ β := ⟨[],List.nodup_nil⟩
def keys (t : KeyedTable κ β) : List κ := t.rows.map Prod.fst

/-- Keep the rows that pass a test. -/
def retain (t : KeyedTable κ β) (p : κ × β → Bool) : KeyedTable κ β :=
  ⟨t.rows.filter p,t.nodup.sublist (List.filter_sublist.map Prod.fst)⟩

section Upsert
variable [DecidableEq κ]

/-- Replace the row of `k`, or append one. -/
def upsertRows (k : κ) (v : β) : List (κ × β) → List (κ × β)
  | [] => [(k,v)]
  | (k',v')::rows => if k' = k then (k,v)::rows else (k',v')::upsertRows k v rows

theorem mem_upsertRows_keys (k a : κ) (v : β) (rows : List (κ × β)) :
    a ∈ (upsertRows k v rows).map Prod.fst ↔ a = k ∨ a ∈ rows.map Prod.fst := by
  induction rows with
  | nil => simp [upsertRows]
  | cons r rows ih =>
    obtain ⟨k',v'⟩ := r
    by_cases h : k' = k
    · subst h
      simp [upsertRows]
    · simp only [upsertRows, h, if_false, List.map_cons, List.mem_cons, ih]
      tauto

theorem upsertRows_nodup (k : κ) (v : β) {rows : List (κ × β)}
    (h : (rows.map Prod.fst).Nodup) : ((upsertRows k v rows).map Prod.fst).Nodup := by
  induction rows with
  | nil => simp [upsertRows]
  | cons r rows ih =>
    obtain ⟨k',v'⟩ := r
    rw [List.map_cons, List.nodup_cons] at h
    by_cases hk : k' = k
    · subst hk
      simpa [upsertRows] using h
    · simp only [upsertRows, hk, if_false, List.map_cons, List.nodup_cons]
      refine ⟨fun hm => ?_,ih h.2⟩
      rcases (mem_upsertRows_keys k k' v rows).mp hm with hm | hm
      · exact hk hm
      · exact h.1 hm

def upsert (t : KeyedTable κ β) (k : κ) (v : β) : KeyedTable κ β :=
  ⟨upsertRows k v t.rows,upsertRows_nodup k v t.nodup⟩

@[simp] theorem mem_keys_upsert (t : KeyedTable κ β) (k a : κ) (v : β) :
    a ∈ (t.upsert k v).keys ↔ a = k ∨ a ∈ t.keys := mem_upsertRows_keys k a v t.rows

/-- The value stored under a key. -/
def lookup (t : KeyedTable κ β) (k : κ) : Option β :=
  (t.rows.find? fun r => r.1 = k).map Prod.snd

theorem find?_upsertRows (k : κ) (v : β) (rows : List (κ × β)) :
    (upsertRows k v rows).find? (fun r => r.1 = k) = some (k,v) := by
  induction rows with
  | nil => simp [upsertRows]
  | cons r rows ih =>
    obtain ⟨k',v'⟩ := r
    by_cases h : k' = k
    · simp [upsertRows, h]
    · simp [upsertRows, h, ih]

@[simp] theorem lookup_upsert_self (t : KeyedTable κ β) (k : κ) (v : β) :
    (t.upsert k v).lookup k = some v := by
  simp [lookup, upsert, find?_upsertRows]

theorem find?_upsertRows_ne {k k' : κ} (h : k' ≠ k) (v : β) (rows : List (κ × β)) :
    (upsertRows k v rows).find? (fun r => r.1 = k') = rows.find? fun r => r.1 = k' := by
  induction rows with
  | nil => simp [upsertRows, h.symm]
  | cons r rows ih =>
    obtain ⟨a,w⟩ := r
    by_cases ha : a = k
    · subst ha
      simp [upsertRows, h.symm]
    · by_cases hk : a = k'
      · subst hk
        simp [upsertRows, h]
      · simp [upsertRows, ha, hk, ih]

theorem lookup_upsert_ne (t : KeyedTable κ β) {k k' : κ} (h : k' ≠ k) (v : β) :
    (t.upsert k v).lookup k' = t.lookup k' := by
  simp only [lookup, upsert, find?_upsertRows_ne h]

theorem lookup_upsert (t : KeyedTable κ β) (k k' : κ) (v : β) :
    (t.upsert k v).lookup k' = if k' = k then some v else t.lookup k' := by
  by_cases h : k' = k
  · rw [if_pos h, h, lookup_upsert_self]
  · rw [if_neg h, lookup_upsert_ne t h]

/-- A test that passes every row of a key does not change what is stored under it. -/
theorem lookup_retain (t : KeyedTable κ β) {p : κ × β → Bool} {k : κ}
    (h : ∀ v, p (k,v) = true) : (t.retain p).lookup k = t.lookup k := by
  have hp : (fun r : κ × β => decide (p r = true ∧ decide (r.1 = k) = true)) =
      fun r => decide (r.1 = k) := by
    funext ⟨a,w⟩
    by_cases ha : a = k
    · subst ha
      simp [h w]
    · simp [ha]
  rw [lookup, lookup, retain, List.find?_filter, hp]

/-- Distinct keys: what is found under a key is the one row that has it. -/
theorem lookup_eq_some_iff {t : KeyedTable κ β} {k : κ} {v : β} :
    t.lookup k = some v ↔ (k,v) ∈ t.rows := by
  constructor
  · intro h
    obtain ⟨r,hr,rfl⟩ := Option.map_eq_some_iff.mp h
    have hk : r.1 = k := by simpa using List.find?_some hr
    subst hk
    exact List.mem_of_find?_eq_some hr
  · intro h
    obtain ⟨r,hr⟩ := Option.isSome_iff_exists.mp
      (List.find?_isSome.mpr ⟨(k,v),h,by simp⟩ : (t.rows.find? fun r => r.1 = k).isSome)
    have hk : r.1 = k := by simpa using List.find?_some hr
    have he : r = (k,v) :=
      List.inj_on_of_nodup_map t.nodup (List.mem_of_find?_eq_some hr) h hk
    rw [lookup, hr, he]
    rfl

theorem lookup_retain_eq_filter (t : KeyedTable κ β) (p : κ × β → Bool) (k : κ) :
    (t.retain p).lookup k = (t.lookup k).filter fun v => p (k,v) := by
  ext v
  rw [lookup_eq_some_iff, Option.filter_eq_some_iff,
    lookup_eq_some_iff, retain, List.mem_filter]

/-- Dropping the row of one key. -/
theorem lookup_retain_ne (t : KeyedTable κ β) (k k' : κ) :
    (t.retain fun row => row.1 ≠ k).lookup k' = if k' = k then none else t.lookup k' := by
  rw [lookup_retain_eq_filter]
  by_cases h : k' = k <;> cases t.lookup k' <;> simp [h]

theorem lookup_eq_none_iff (t : KeyedTable κ β) (k : κ) : t.lookup k = none ↔ k ∉ t.keys := by
  simp only [lookup, Option.map_eq_none_iff, List.find?_eq_none, decide_eq_true_eq, keys,
    List.mem_map, not_exists, not_and]

theorem mem_keys_of_lookup {t : KeyedTable κ β} {k : κ} {v : β} (h : t.lookup k = some v) :
    k ∈ t.keys := by
  by_contra hk
  rw [(t.lookup_eq_none_iff k).mpr hk] at h
  cases h

theorem eq_or_mem_keys_iff {t : KeyedTable κ β} {k a : κ} {v : β} (h : t.lookup k = some v) :
    a = k ∨ a ∈ t.keys ↔ a ∈ t.keys := or_iff_right_of_imp fun ha => ha ▸ mem_keys_of_lookup h

end Upsert

section Latest
variable [LinearOrder κ]

/-- The row with the greatest key. -/
def latestRow : List (κ × β) → Option (κ × β)
  | [] => none
  | r::rows =>
    match latestRow rows with
    | none => some r
    | some m => if m.1 < r.1 then some r else some m

def latest (t : KeyedTable κ β) : Option (κ × β) := latestRow t.rows

theorem latestRow_eq_none {rows : List (κ × β)} : latestRow rows = none ↔ rows = [] := by
  cases rows with
  | nil => simp [latestRow]
  | cons r rows =>
    simp only [latestRow]
    split
    · simp
    · split <;> simp

/-- The greatest row is a row, and no key exceeds its key. -/
theorem latestRow_spec {rows : List (κ × β)} {m : κ × β} (h : latestRow rows = some m) :
    m ∈ rows ∧ ∀ r ∈ rows, r.1 ≤ m.1 := by
  induction rows generalizing m with
  | nil => simp [latestRow] at h
  | cons r rows ih =>
    cases hr : latestRow rows with
    | none =>
      rw [latestRow_eq_none] at hr
      subst hr
      simp only [latestRow, Option.some.injEq] at h
      subst h
      simp
    | some m' =>
      obtain ⟨hm,hle⟩ := ih hr
      simp only [latestRow, hr] at h
      split_ifs at h with hlt
      · simp only [Option.some.injEq] at h
        subst h
        refine ⟨by simp,fun x hx => ?_⟩
        rcases List.mem_cons.mp hx with rfl | hx
        · exact le_rfl
        · exact (hle x hx).trans hlt.le
      · simp only [Option.some.injEq] at h
        subst h
        refine ⟨List.mem_cons_of_mem _ hm,fun x hx => ?_⟩
        rcases List.mem_cons.mp hx with rfl | hx
        · exact not_lt.mp hlt
        · exact hle x hx

/-- Distinct keys make the greatest row the only one with that property. -/
theorem latest_eq_some (t : KeyedTable κ β) {m : κ × β} (hm : m ∈ t.rows)
    (hle : ∀ r ∈ t.rows, r.1 ≤ m.1) : t.latest = some m := by
  cases h : latestRow t.rows with
  | none =>
    rw [latestRow_eq_none] at h
    rw [h] at hm
    simp at hm
  | some m' =>
    obtain ⟨hm',hle'⟩ := latestRow_spec h
    have hk : m.1 = m'.1 := le_antisymm (hle' m hm) (hle m' hm')
    have he : m = m' := List.inj_on_of_nodup_map t.nodup hm hm' hk
    rw [latest, h, he]

theorem mem_upsertRows_self (k : κ) (v : β) (rows : List (κ × β)) :
    (k,v) ∈ upsertRows k v rows :=
  List.mem_of_find?_eq_some (find?_upsertRows k v rows)

/-- Writing at or above every stored key makes the written row the latest one. -/
theorem latest_upsert_of_le (t : KeyedTable κ β) {k : κ} (v : β) (h : ∀ a ∈ t.keys, a ≤ k) :
    (t.upsert k v).latest = some (k,v) := by
  apply latest_eq_some _ (mem_upsertRows_self k v t.rows)
  intro r hr
  have hk : r.1 ∈ (t.upsert k v).keys := List.mem_map_of_mem hr
  rcases (mem_keys_upsert t k r.1 v).mp hk with he | hm
  · exact he.le
  · exact h r.1 hm

end Latest
end KeyedTable
