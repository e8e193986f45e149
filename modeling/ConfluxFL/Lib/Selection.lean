import Mathlib.Data.List.GetD
import Mathlib.Data.List.Perm.Basic
import Mathlib.Data.List.Perm.Subperm
import Mathlib.Data.List.Sort
import Mathlib.Logic.Function.Iterate
import ConfluxFL.Lib.Floating
import ConfluxFL.Lib.StableSort

/-! Choosing by value: what the position of a least value is, once the comparison is the order of
some key, and that the first of a sorted list are not above the rest. Then greedy selection: entries
are moved from a pool to a selection one at a time, each time the one at the position a rule picks
for what is left in the pool. -/
namespace Floating
variable {α κ : Type} [Floating α] [LinearOrder κ]

/-- Position `i` holds the first of the least keys. -/
structure FirstLeast (key : α → κ) (xs : List α) (i : ℕ) : Prop where
  lt_length : i < xs.length
  least : ∀ j < xs.length, key (xs.getD i 0) ≤ key (xs.getD j 0)
  first : ∀ j < i, key (xs.getD i 0) < key (xs.getD j 0)

namespace FirstLeast
variable {key : α → κ} {xs : List α} {i j : ℕ}

theorem unique (hi : FirstLeast key xs i) (hj : FirstLeast key xs j) : i = j := by
  rcases lt_trichotomy i j with hlt | heq | hgt
  · exact absurd (hj.first i hlt) (hi.least j hj.lt_length).not_gt
  · exact heq
  · exact absurd (hi.first j hgt) (hj.least i hi.lt_length).not_gt

end FirstLeast

/-- The scan for a least value stops at the first one. -/
theorem firstLeast_argMin {key : α → κ} {xs : List α} (hne : xs ≠ [])
    (hlt : ∀ a ∈ xs, ∀ b ∈ xs, lt a b = decide (key a < key b)) :
    FirstLeast key xs (argMin xs) := by
  have hmem (i : ℕ) (hi : i < xs.length) : xs.getD i 0 ∈ xs := by
    rw [List.getD_eq_getElem _ _ hi]
    exact List.getElem_mem hi
  have hpos : 0 < xs.length := List.length_pos_iff.mpr hne
  -- after `n` positions, the best so far is the first least among them
  have hscan (n : ℕ) (hn : n ≤ xs.length) (best : ℕ) (hbest : best = (List.range n).foldl
      (fun best i => if lt (xs.getD i 0) (xs.getD best 0) then i else best) 0) :
      (best < n ∨ best = 0) ∧ (∀ j < n, key (xs.getD best 0) ≤ key (xs.getD j 0)) ∧
        ∀ j < best, key (xs.getD best 0) < key (xs.getD j 0) := by
    induction n generalizing best with
    | zero =>
      subst hbest
      exact ⟨.inr rfl,nofun,nofun⟩
    | succ n ih =>
      rw [List.range_succ, List.foldl_append, List.foldl_cons, List.foldl_nil] at hbest
      obtain ⟨hbelow,hleast,hfirst⟩ := ih (Nat.le_of_succ_le hn) _ rfl
      generalize (List.range n).foldl _ 0 = old at *
      rw [hlt _ (hmem n hn) _ (hmem old (by omega))] at hbest
      split at hbest
      · rename_i hdecide
        have hless := of_decide_eq_true hdecide
        subst hbest
        refine ⟨by omega,fun j hj => ?_,fun j hj => hless.trans_le (hleast j hj)⟩
        rcases Nat.lt_succ_iff_lt_or_eq.mp hj with hj | hj
        · exact hless.le.trans (hleast j hj)
        · rw [hj]
      · rename_i hdecide
        have hless := of_decide_eq_false (Bool.eq_false_of_not_eq_true hdecide)
        subst hbest
        refine ⟨by omega,fun j hj => ?_,hfirst⟩
        rcases Nat.lt_succ_iff_lt_or_eq.mp hj with hj | hj
        · exact hleast j hj
        · rw [hj]
          exact not_lt.mp hless
  obtain ⟨hbelow,hleast,hfirst⟩ := hscan xs.length le_rfl _ rfl
  have hlen : argMin xs < xs.length ∨ argMin xs = 0 := hbelow
  exact ⟨by omega,hleast,hfirst⟩

end Floating

namespace StableSort

/-- What is among the first of a sorted list is not above what is not. -/
theorem le_of_mem_take {α κ : Type*} [LinearOrder κ] {key : α → κ} {l : List α} {k : ℕ} {a b : α}
    (ha : a ∈ (sortBy key l).take k) (hb : b ∈ l) (hrest : b ∉ (sortBy key l).take k) :
    key a ≤ key b := by
  have hsorted : SortedBy key (sortBy key l) := sortBy_sorted
  have hmem : b ∈ sortBy key l := mem_sortBy.mpr hb
  rw [SortedBy, ← List.take_append_drop k (sortBy key l), List.pairwise_append] at hsorted
  rw [← List.take_append_drop k (sortBy key l), List.mem_append] at hmem
  exact hsorted.2.2 a ha b (hmem.resolve_left hrest)

end StableSort

namespace Greedy
variable {ι : Type*} (best : List ι → ℕ)

/-- One move; the rule has to pick a position of the pool. -/
def move (p : List ι × List ι) : List ι × List ι :=
  (p.1.eraseIdx (best p.1),p.2++(p.1[best p.1]?).toList)

/-- A rule that picks a position of every pool it is given. -/
def Picks : Prop := ∀ pool, pool ≠ [] → best pool < pool.length

theorem perm_move (p : List ι × List ι) :
    ((move best p).1++(move best p).2).Perm (p.1++p.2) := by
  unfold move
  by_cases h : best p.1 < p.1.length
  · rw [List.getElem?_eq_getElem h, Option.toList_some]
    have hfront : (p.1.eraseIdx (best p.1)++(p.2++[p.1[best p.1]])).Perm
        (p.1[best p.1]::(p.1.eraseIdx (best p.1)++p.2)) := by
      rw [← List.append_assoc]
      exact List.perm_append_singleton _ _
    exact hfront.trans ((List.getElem_cons_eraseIdx_perm h).append_right p.2)
  · rw [List.getElem?_eq_none (Nat.le_of_not_lt h), List.eraseIdx_of_length_le (Nat.le_of_not_lt h)]
    simp

theorem perm_iterate (k : ℕ) (p : List ι × List ι) :
    (((move best)^[k] p).1++((move best)^[k] p).2).Perm (p.1++p.2) := by
  induction k generalizing p with
  | zero => rfl
  | succ k ih => exact (ih (move best p)).trans (perm_move best p)

variable {best}

theorem length_move (hbest : Picks best) {p : List ι × List ι} (hne : p.1 ≠ []) :
    (move best p).1.length = p.1.length-1 ∧ (move best p).2.length = p.2.length+1 := by
  have hlt := hbest p.1 hne
  unfold move
  rw [List.getElem?_eq_getElem hlt, List.length_eraseIdx_of_lt hlt, List.length_append]
  exact ⟨rfl,rfl⟩

/-- As long as the pool lasts, every move makes it one smaller. -/
theorem length_iterate (hbest : Picks best) {k : ℕ} {p : List ι × List ι} (hk : k ≤ p.1.length) :
    ((move best)^[k] p).1.length = p.1.length-k ∧
      ((move best)^[k] p).2.length = p.2.length+k := by
  induction k generalizing p with
  | zero => exact ⟨rfl,rfl⟩
  | succ k ih =>
    have hne : p.1 ≠ [] := List.ne_nil_of_length_pos (by omega)
    obtain ⟨hpool,hsel⟩ := length_move hbest hne
    obtain ⟨hpool',hsel'⟩ := ih (p := move best p) (by omega)
    rw [Function.iterate_succ_apply]
    omega

/-- While the rule keeps to the front, the front is what is selected. -/
theorem iterate_front (core outer selected : List ι)
    (h : ∀ i < core.length, best (core.drop i++outer) = 0) :
    (move best)^[core.length] (core++outer,selected) = (outer,selected++core) := by
  induction core generalizing selected with
  | nil => simp
  | cons x core ih =>
    have hfirst : best (x::(core++outer)) = 0 := h 0 (Nat.zero_lt_succ _)
    have hmove : move best (x::core++outer,selected) = (core++outer,selected++[x]) := by
      simp [move,hfirst]
    rw [List.length_cons, Function.iterate_succ_apply, hmove,
      ih (selected++[x]) fun i hi => h (i+1) (Nat.succ_lt_succ hi)]
    simp

/-- The last entry of a pool is picked whatever the rule. -/
theorem iterate_last (hbest : Picks best) {k : ℕ} {p : List ι × List ι} (hk : p.1.length = k+1) :
    ((move best)^[k+1] p).2 = ((move best)^[k] p).2++((move best)^[k] p).1 := by
  have hlen := (length_iterate hbest (k := k) (p := p) (by omega)).1
  rw [Function.iterate_succ_apply']
  generalize (move best)^[k] p = q at hlen ⊢
  obtain ⟨x,hx⟩ := List.length_eq_one_iff.mp (hlen.trans (show p.1.length-k = 1 by omega))
  have hzero : best [x] = 0 := Nat.lt_one_iff.mp (hbest [x] (List.cons_ne_nil x []))
  simp [move,hx,hzero]

/-- A selection of everything is the pool again. -/
theorem perm_of_all (hbest : Picks best) (pool : List ι) :
    ((move best)^[pool.length] (pool,[])).2.Perm pool := by
  have hperm := perm_iterate best pool.length (pool,[])
  have hlen := (length_iterate hbest (p := (pool,[])) (Nat.le_refl pool.length)).1
  rw [Nat.sub_self, List.length_eq_zero_iff] at hlen
  rwa [hlen, List.nil_append, List.append_nil] at hperm

end Greedy
