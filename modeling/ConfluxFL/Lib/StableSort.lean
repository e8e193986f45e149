import Mathlib.Data.List.Sort
import Mathlib.Data.List.Basic

/-! Stable sorting by a key. Sorting moves the groups of equal keys into key order and keeps
every group as it was, so a sorted list is known once its groups are known. -/
namespace StableSort
variable {α κ : Type*} [LinearOrder κ] (key : α → κ)

/-- The stable sort by ascending key. -/
def sortBy (l : List α) : List α := l.insertionSort fun a b => key a ≤ key b

/-- The entries with a given key, in their order. -/
def group (k : κ) (l : List α) : List α := l.filter fun a => key a = k

def SortedBy (l : List α) : Prop := l.Pairwise fun a b => key a ≤ key b

variable {key} {l m : List α} {k : κ}

theorem mem_group {a : α} : a ∈ group key k l ↔ a ∈ l ∧ key a = k := by
  simp [group]

theorem sortBy_perm : (sortBy key l).Perm l := List.perm_insertionSort _ l

theorem mem_sortBy {a : α} : a ∈ sortBy key l ↔ a ∈ l := sortBy_perm.mem_iff

theorem sortBy_sorted : SortedBy key (sortBy key l) := by
  have : Std.Total fun a b : α => key a ≤ key b := ⟨fun a b => le_total (key a) (key b)⟩
  have : IsTrans α fun a b : α => key a ≤ key b := ⟨fun _ _ _ => le_trans⟩
  exact List.pairwise_insertionSort _ l

theorem group_orderedInsert (a : α) (l : List α) :
    group key k (l.orderedInsert (fun a b => key a ≤ key b) a) = group key k (a::l) := by
  induction l with
  | nil => rfl
  | cons b l ih =>
    rw [List.orderedInsert_cons]
    split_ifs with h
    · rfl
    · have hne : key a ≠ key b := fun he => h he.le
      simp only [group, List.filter_cons] at ih ⊢
      rw [ih]
      by_cases hb : key b = k
      · have ha : key a ≠ k := fun he => hne (he.trans hb.symm)
        simp [ha, hb]
      · simp [hb]

/-- Sorting is stable: every group comes out in its original order. -/
theorem group_sortBy (l : List α) : group key k (sortBy key l) = group key k l := by
  induction l with
  | nil => rfl
  | cons a l ih =>
    change group key k ((sortBy key l).orderedInsert _ a) = _
    rw [group_orderedInsert]
    simp only [group, List.filter_cons] at ih ⊢
    rw [ih]

theorem SortedBy.head_le {a b : α} (h : SortedBy key (a::l)) (hb : b ∈ a::l) :
    key a ≤ key b := by
  rcases List.mem_cons.mp hb with rfl | hb
  · exact le_rfl
  · exact (List.pairwise_cons.mp h).1 b hb

theorem exists_mem_key_of_group (hg : ∀ k, group key k l = group key k m) {a : α}
    (ha : a ∈ l) : ∃ b ∈ m, key b = key a := by
  have hm : a ∈ group key (key a) m := by
    rw [← hg]
    exact mem_group.mpr ⟨ha,rfl⟩
  exact ⟨a,(mem_group.mp hm).1,rfl⟩

/-- Two sorted lists with the same groups are the same list. -/
theorem SortedBy.ext (hl : SortedBy key l) (hm : SortedBy key m)
    (hg : ∀ k, group key k l = group key k m) : l = m := by
  induction l generalizing m with
  | nil =>
    cases m with
    | nil => rfl
    | cons b m =>
      obtain ⟨c,hc,_⟩ := exists_mem_key_of_group (fun k => (hg k).symm)
        (List.mem_cons_self : b ∈ b::m)
      simp at hc
  | cons a l ih =>
    cases m with
    | nil =>
      obtain ⟨c,hc,_⟩ := exists_mem_key_of_group hg (List.mem_cons_self : a ∈ a::l)
      simp at hc
    | cons b m =>
      obtain ⟨c,hc,hca⟩ := exists_mem_key_of_group hg (List.mem_cons_self : a ∈ a::l)
      obtain ⟨d,hd,hdb⟩ := exists_mem_key_of_group (fun k => (hg k).symm)
        (List.mem_cons_self : b ∈ b::m)
      have hab : key a = key b :=
        le_antisymm (hdb ▸ hl.head_le hd) (hca ▸ hm.head_le hc)
      have hhead := hg (key a)
      simp only [group, List.filter_cons, hab, decide_true, if_true] at hhead
      obtain ⟨he,_⟩ := List.cons_eq_cons.mp hhead
      subst he
      have htail : ∀ k, group key k l = group key k m := by
        intro k
        have hk := hg k
        simp only [group, List.filter_cons] at hk ⊢
        split_ifs at hk with h
        · exact (List.cons_eq_cons.mp hk).2
        · exact hk
      have he : l = m := ih (List.Pairwise.of_cons hl) (List.Pairwise.of_cons hm) htail
      rw [he]

/-- Sorting distinct values leaves them strictly ascending. -/
theorem sortBy_id_ascending {l : List κ} (hl : l.Nodup) :
    (sortBy id l).Pairwise (· < ·) := by
  have hs : (sortBy id l).Pairwise (· ≤ ·) := @sortBy_sorted κ κ _ id l
  have hn : (sortBy id l).Nodup := sortBy_perm.nodup_iff.mpr hl
  exact (hs.and hn).imp fun h => lt_of_le_of_ne h.1 h.2

/-- A sorted list is left as it is. -/
theorem SortedBy.sortBy_eq (hl : SortedBy key l) : sortBy key l = l :=
  sortBy_sorted.ext hl fun _ => group_sortBy l

/-- With distinct keys there is one sorted order, whatever order the entries come in. -/
theorem SortedBy.sortBy_eq_of_perm (hl : SortedBy key l) (hn : (l.map key).Nodup)
    (h : m.Perm l) : sortBy key m = l := by
  refine List.Perm.eq_of_pairwise (fun a b ha hb hab hba => ?_) sortBy_sorted hl
    (sortBy_perm.trans h)
  have ha : a ∈ l := h.mem_iff.mp (mem_sortBy.mp ha)
  exact List.inj_on_of_nodup_map hn ha hb (le_antisymm hab hba)

end StableSort
