import Mathlib.Algebra.Order.BigOperators.Group.List
import Mathlib.Algebra.Order.Field.Basic
import Mathlib.Data.Finset.Max
import Mathlib.Data.Finset.Range
import Mathlib.Data.List.Sort
import Mathlib.Tactic.FieldSimp
import Mathlib.Tactic.Linarith

/-! Order statistics of a list some of whose entries may have been chosen by an adversary: far
enough from both ends of the sorted list, an entry lies between two honest ones. -/
namespace OrderStatistics
variable {α : Type*} [LinearOrder α]

section Sorted
variable {l : List α} {k : ℕ}

/-- An entry with fewer values below the bound than its position is not below it. -/
theorem le_getElem_of_countP (hl : l.Pairwise (· ≤ ·)) {lo : α} (hk : k < l.length)
    (hc : l.countP (fun x => decide (x < lo)) ≤ k) : lo ≤ l[k] := by
  by_contra hlt
  have hall : ∀ x ∈ l.take (k+1), decide (x < lo) = true := by
    intro x hx
    obtain ⟨i,hi,rfl⟩ := List.mem_iff_getElem.mp hx
    rw [List.length_take] at hi
    rw [List.getElem_take, decide_eq_true_iff]
    refine lt_of_le_of_lt ?_ (not_le.mp hlt)
    rcases Nat.lt_or_eq_of_le (show i ≤ k by omega) with h | h
    · exact List.pairwise_iff_getElem.mp hl i k (by omega) hk h
    · simp only [h, le_refl]
  have hcount := (List.take_sublist (k+1) l).countP_le (p := fun x => decide (x < lo))
  rw [List.countP_eq_length.mpr hall, List.length_take] at hcount
  omega

theorem getElem_le_of_countP (hl : l.Pairwise (· ≤ ·)) {hi : α} (hk : k < l.length)
    (hc : l.countP (fun x => decide (hi < x))+k < l.length) : l[k] ≤ hi := by
  by_contra hlt
  have hall : ∀ x ∈ l.drop k, decide (hi < x) = true := by
    intro x hx
    obtain ⟨i,hi',rfl⟩ := List.mem_iff_getElem.mp hx
    rw [List.length_drop] at hi'
    rw [List.getElem_drop, decide_eq_true_iff]
    refine lt_of_lt_of_le (not_le.mp hlt) ?_
    rcases Nat.eq_zero_or_pos i with h | h
    · simp only [h, Nat.add_zero, le_refl]
    · exact List.pairwise_iff_getElem.mp hl k (k+i) hk (by omega) (by omega)
  have hcount := (List.drop_sublist k l).countP_le (p := fun x => decide (hi < x))
  rw [List.countP_eq_length.mpr hall, List.length_drop] at hcount
  omega

end Sorted

/-- How many of the first `n` positions are not honest. -/
def corrupted (honest : ℕ → Bool) (n : ℕ) : ℕ := (List.range n).countP fun i => !honest i

/-- With fewer corrupted positions than positions, one is honest. -/
theorem exists_honest {honest : ℕ → Bool} {n : ℕ} (h : corrupted honest n < n) :
    ∃ i < n, honest i = true := by
  by_contra hnone
  push Not at hnone
  refine h.ne ?_
  rw [corrupted, List.countP_eq_length.mpr fun i hi => ?_, List.length_range]
  rw [Bool.not_eq_true']
  exact Bool.eq_false_of_not_eq_true (hnone i (List.mem_range.mp hi))

/-- Seen from a corrupted position, one corrupted position fewer. -/
theorem countP_others_lt {honest : ℕ → Bool} {n i : ℕ} (hi : i < n) (h : honest i = false) :
    (List.range n).countP (fun j => !honest j && decide (j ≠ i)) < corrupted honest n := by
  have hsplit : corrupted honest n = (List.range n).countP (fun j => !honest j && decide (j ≠ i))+
      (List.range n).countP (fun j => !honest j && decide (j = i)) := by
    rw [corrupted, List.countP_eq_countP_filter_add _ _ fun j => decide (j ≠ i)]
    rw [List.countP_filter, List.countP_filter]
    congr 1
    refine List.countP_congr fun j _ => ?_
    simp
  have hpos : 0 < (List.range n).countP (fun j => !honest j && decide (j = i)) :=
    List.countP_pos_iff.mpr ⟨i,List.mem_range.mpr hi,by simp [h]⟩
  omega

/-- Not below every honest entry, and not above every one. -/
def Between (honest : ℕ → Bool) (values : List α) (x : α) : Prop :=
  (∃ i a, values[i]? = some a ∧ honest i = true ∧ a ≤ x) ∧
    ∃ i b, values[i]? = some b ∧ honest i = true ∧ x ≤ b

section Honest
variable {honest : ℕ → Bool} {values : List α}

omit [LinearOrder α] in
/-- What no honest entry satisfies, only corrupted ones can. -/
theorem countP_le_corrupted {p : α → Bool}
    (h : ∀ i a, values[i]? = some a → honest i = true → p a = false) :
    values.countP p ≤ corrupted honest values.length := by
  have hfst : values = values.zipIdx.map Prod.fst := by simp
  have hsnd : List.range values.length = values.zipIdx.map Prod.snd := by
    simp [List.range_eq_range']
  rw [corrupted, hsnd]
  conv_lhs => rw [hfst]
  rw [List.countP_map, List.countP_map]
  refine List.countP_mono_left fun q hq hp => ?_
  have hget := List.mem_zipIdx_iff_getElem?.mp hq
  rw [Function.comp_apply, Bool.not_eq_true']
  by_contra hne
  have := h q.2 q.1 hget (Bool.eq_true_of_not_eq_false hne)
  rw [Function.comp_apply, this] at hp
  cases hp

/-- The honest entries have a least and a greatest one, and these decide. -/
theorem exists_bounds (h : ∃ i < values.length, honest i = true) : ∃ lo hi : α,
    (∀ i a, values[i]? = some a → honest i = true → lo ≤ a ∧ a ≤ hi) ∧
      ∀ x, Between honest values x ↔ lo ≤ x ∧ x ≤ hi := by
  obtain ⟨i₀,hi₀,hh₀⟩ := h
  let positions := (Finset.range values.length).filter fun i => honest i = true
  let value : ℕ → α := fun i => values.getD i values[i₀]
  have hget {i : ℕ} (hi : i < values.length) : values[i]? = some (value i) := by
    simp [value,List.getElem?_eq_getElem hi]
  have hmem {i : ℕ} : i ∈ positions ↔ i < values.length ∧ honest i = true := by
    simp [positions]
  have hne : positions.Nonempty := ⟨i₀,hmem.mpr ⟨hi₀,hh₀⟩⟩
  obtain ⟨i,hi,hleast⟩ := positions.exists_min_image value hne
  obtain ⟨j,hj,hmost⟩ := positions.exists_max_image value hne
  have hbounds (k : ℕ) (a : α) (hk : values[k]? = some a) (hh : honest k = true) :
      value i ≤ a ∧ a ≤ value j := by
    have hlt := (List.getElem?_eq_some_iff.mp hk).1
    obtain rfl : value k = a := Option.some_inj.mp ((hget hlt).symm.trans hk)
    exact ⟨hleast k (hmem.mpr ⟨hlt,hh⟩),hmost k (hmem.mpr ⟨hlt,hh⟩)⟩
  refine ⟨value i,value j,hbounds,fun x => ⟨?_,fun ⟨hlo,hhi⟩ => ?_⟩⟩
  · rintro ⟨⟨k,a,hk,hh,hle⟩,l,b,hl,hh',hle'⟩
    exact ⟨(hbounds k a hk hh).1.trans hle,hle'.trans (hbounds l b hl hh').2⟩
  · exact ⟨⟨i,_,hget (hmem.mp hi).1,(hmem.mp hi).2,hlo⟩,j,_,hget (hmem.mp hj).1,(hmem.mp hj).2,hhi⟩

/-- With at most `t` entries corrupted, the sorted list is honest between its first and its last
`t` places. -/
theorem between_sorted (hsome : ∃ i < values.length, honest i = true) {sorted : List α}
    (hperm : sorted.Perm values) (hsorted : sorted.Pairwise (· ≤ ·)) {t k : ℕ}
    (hc : corrupted honest values.length ≤ t) (ht : t ≤ k) (hk : k+t < values.length) :
    Between honest values (sorted.get ⟨k,by rw [hperm.length_eq]; omega⟩) := by
  obtain ⟨lo,hi,hbounds,hiff⟩ := exists_bounds hsome
  have hlen := hperm.length_eq
  refine (hiff _).mpr ⟨?_,?_⟩
  · refine le_getElem_of_countP hsorted (by omega) ?_
    rw [hperm.countP_eq]
    refine ((countP_le_corrupted fun i a hi hh => ?_).trans hc).trans ht
    exact decide_eq_false (hbounds i a hi hh).1.not_gt
  · refine getElem_le_of_countP hsorted (by omega) ?_
    rw [hperm.countP_eq, hlen]
    have hcount : values.countP (fun x => decide (hi < x)) ≤ corrupted honest values.length :=
      countP_le_corrupted fun i a hi hh => decide_eq_false (hbounds i a hi hh).2.not_gt
    omega

end Honest

section Mean
variable {κ : Type*} [Field κ] [LinearOrder κ] [IsStrictOrderedRing κ]

/-- A mean is between bounds that hold for every entry. -/
theorem mean_bounds {xs : List κ} (hne : xs ≠ []) {lo hi : κ} (h : ∀ x ∈ xs, lo ≤ x ∧ x ≤ hi) :
    lo ≤ xs.sum/xs.length ∧ xs.sum/xs.length ≤ hi := by
  have hpos : (0 : κ) < xs.length := Nat.cast_pos.mpr (List.length_pos_iff.mpr hne)
  have hlow := xs.card_nsmul_le_sum lo fun x hx => (h x hx).1
  have hhigh := xs.sum_le_card_nsmul hi fun x hx => (h x hx).2
  rw [nsmul_eq_mul] at hlow hhigh
  constructor
  · rw [le_div_iff₀ hpos, mul_comm]
    exact hlow
  · rw [div_le_iff₀ hpos, mul_comm]
    exact hhigh

section Least
variable {l : List κ} {q : ℕ}

/-- The `q` least entries, with at most as many above the bound as are left out. -/
theorem sum_take_le (hl : l.Pairwise (· ≤ ·)) {hi : κ}
    (hc : l.countP (fun x => decide (hi < x))+q ≤ l.length) : (l.take q).sum ≤ q*hi := by
  have hlen : (l.take q).length = q := by
    rw [List.length_take]
    omega
  have hsum := (l.take q).sum_le_card_nsmul hi fun x hx => ?_
  · rwa [hlen, nsmul_eq_mul] at hsum
  · obtain ⟨k,hk,rfl⟩ := List.mem_iff_getElem.mp hx
    rw [List.getElem_take]
    exact getElem_le_of_countP hl (by omega) (by omega)

omit [LinearOrder κ] [IsStrictOrderedRing κ] in
/-- The `q` least entries in two parts. -/
theorem sum_take_eq (l : List κ) (q t : ℕ) :
    (l.take q).sum = (l.take (min t q)).sum+((l.take q).drop t).sum := by
  rw [← List.take_take, ← List.sum_append, List.take_append_drop]

/-- The `q` least entries, with a bound for the first `t` and one for all. -/
theorem sum_take_le_add (hl : l.Pairwise (· ≤ ·)) {hi top : κ} {t : ℕ} (htop : ∀ x ∈ l, x ≤ top)
    (hc : l.countP (fun x => decide (hi < x))+t ≤ l.length) (hq : q ≤ l.length) :
    (l.take q).sum ≤ (min t q : ℕ)*hi+(q-t : ℕ)*top := by
  rw [sum_take_eq l q t]
  refine add_le_add (sum_take_le hl (by omega)) ?_
  have hrest := ((l.take q).drop t).sum_le_card_nsmul top fun x hx =>
    htop x (List.mem_of_mem_take (List.mem_of_mem_drop hx))
  rwa [nsmul_eq_mul, List.length_drop, List.length_take, Nat.min_eq_left hq] at hrest

/-- The `q` least entries, when at most `t` are below the bound. -/
theorem le_sum_take (hl : l.Pairwise (· ≤ ·)) {bottom lo : κ} {t : ℕ} (hbottom : ∀ x ∈ l, bottom ≤ x)
    (hc : l.countP (fun x => decide (x < lo)) ≤ t) (hq : q ≤ l.length) :
    (min t q : ℕ)*bottom+(q-t : ℕ)*lo ≤ (l.take q).sum := by
  rw [sum_take_eq l q t]
  refine add_le_add ?_ ?_
  · have hfirst := (l.take (min t q)).card_nsmul_le_sum bottom fun x hx =>
      hbottom x (List.mem_of_mem_take hx)
    rwa [nsmul_eq_mul, List.length_take, Nat.min_eq_left ((Nat.min_le_right t q).trans hq)] at hfirst
  · have hrest := ((l.take q).drop t).card_nsmul_le_sum lo fun x hx => ?_
    · rwa [nsmul_eq_mul, List.length_drop, List.length_take, Nat.min_eq_left hq] at hrest
    · obtain ⟨k,hk,rfl⟩ := List.mem_iff_getElem.mp hx
      rw [List.getElem_drop, List.getElem_take]
      exact le_getElem_of_countP hl _ (hc.trans (Nat.le_add_right t k))

end Least

variable {honest : ℕ → Bool} {values : List κ}

theorem between_mean (hsome : ∃ i < values.length, honest i = true) {xs : List κ} (hne : xs ≠ [])
    (h : ∀ x ∈ xs, Between honest values x) : Between honest values (xs.sum/xs.length) := by
  obtain ⟨lo,hi,-,hiff⟩ := exists_bounds hsome
  exact (hiff _).mpr (mean_bounds hne fun x hx => (hiff x).mp (h x hx))

end Mean
end OrderStatistics
