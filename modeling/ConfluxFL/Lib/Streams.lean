import Mathlib.Algebra.GroupWithZero.Nat
import Mathlib.Data.List.Pairwise

/-! Readers of streams. Each reads one stream from its start, and every read takes the next part
the reader has not used; readers keep no record of each other. -/
namespace Streams
variable {ι σ : Type*}

/-- A part of a stream: `size` draws, from the one numbered `start`. -/
structure Part (σ : Type*) where
  source : σ
  start : ℕ
  size : ℕ
  deriving DecidableEq, Repr

/-- Two parts have a draw in common. -/
def Part.Shares (p q : Part σ) : Prop :=
  p.source = q.source ∧
    ∃ k, (p.start ≤ k ∧ k < p.start+p.size) ∧ q.start ≤ k ∧ k < q.start+q.size

theorem Part.Shares.symm {p q : Part σ} (h : p.Shares q) : q.Shares p := by
  obtain ⟨hs,k,hp,hq⟩ := h
  exact ⟨hs.symm,k,hq,hp⟩

theorem Part.Shares.size_ne_zero {p q : Part σ} (h : p.Shares q) : p.size ≠ 0 ∧ q.size ≠ 0 := by
  obtain ⟨-,k,hp,hq⟩ := h
  omega

/-- Parts that are not empty and stand at the start of one stream share their first draw. -/
theorem Part.shares_of_start {p q : Part σ} (hs : p.source = q.source) (hp : p.start = 0)
    (hq : q.start = 0) (hpn : p.size ≠ 0) (hqn : q.size ≠ 0) : p.Shares q :=
  ⟨hs,0,by omega,by omega⟩

variable [DecidableEq ι]

/-- How much of its stream a reader has used. -/
def used (log : List (ι × Part σ)) (i : ι) : ℕ :=
  ((log.filter fun x => x.1 = i).map fun x => x.2.size).sum

@[simp] theorem used_nil (i : ι) : used ([] : List (ι × Part σ)) i = 0 := rfl

theorem used_concat (log : List (ι × Part σ)) (j : ι) (p : Part σ) (i : ι) :
    used (log++[(j,p)]) i = used log i+(if j = i then p.size else 0) := by
  unfold used
  by_cases h : j = i <;> simp [List.filter_append, h]

theorem used_le_concat (log : List (ι × Part σ)) (x : ι × Part σ) (i : ι) :
    used log i ≤ used (log++[x]) i := by
  rw [used_concat]
  exact Nat.le_add_right _ _

/-- A log of reads, `source` saying which stream each reader reads. -/
inductive Reads (source : ι → σ) : List (ι × Part σ) → Prop
  | nil : Reads source []
  | snoc {log : List (ι × Part σ)} (h : Reads source log) (i : ι) (n : ℕ) :
      Reads source (log++[(i,⟨source i,used log i,n⟩)])

namespace Reads
variable {source : ι → σ} {log : List (ι × Part σ)} {x : ι × Part σ}

theorem source_eq (h : Reads source log) (hx : x ∈ log) : x.2.source = source x.1 := by
  induction h with
  | nil => cases hx
  | snoc _ i n ih =>
    rcases List.mem_append.mp hx with hx | hx
    · exact ih hx
    · rw [List.mem_singleton.mp hx]

/-- What was read lies before what is read next. -/
theorem end_le_used (h : Reads source log) (hx : x ∈ log) :
    x.2.start+x.2.size ≤ used log x.1 := by
  induction h with
  | nil => cases hx
  | snoc _ i n ih =>
    rcases List.mem_append.mp hx with hx | hx
    · exact Nat.le_trans (ih hx) (used_le_concat ..)
    · obtain rfl := List.mem_singleton.mp hx
      apply Nat.le_of_eq
      rw [used_concat, if_pos rfl]

/-- A reader that has read something has read the start of its stream. -/
theorem exists_start (h : Reads source log) {i : ι} (hi : used log i ≠ 0) :
    ∃ x ∈ log, x.1 = i ∧ x.2.start = 0 ∧ x.2.size ≠ 0 := by
  induction h with
  | nil => exact (hi rfl).elim
  | @snoc log _ j n ih =>
    by_cases hold : used log i = 0
    · rw [used_concat, hold, Nat.zero_add] at hi
      obtain rfl : j = i := by
        by_contra hne
        exact hi (if_neg hne)
      rw [if_pos rfl] at hi
      exact ⟨_,List.mem_append_right _ (List.mem_singleton.mpr rfl),rfl,hold,hi⟩
    · obtain ⟨x,hx,hxi⟩ := ih hold
      exact ⟨x,List.mem_append_left _ hx,hxi⟩

theorem used_ne_zero (h : Reads source log) (hx : x ∈ log) (hn : x.2.size ≠ 0) :
    used log x.1 ≠ 0 := by
  have := h.end_le_used hx
  omega

/-- No draw is read twice exactly when readers that read something have streams of their own. -/
theorem pairwise_not_shares_iff (h : Reads source log) :
    (log.Pairwise fun x y => ¬x.2.Shares y.2) ↔
      ∀ x ∈ log, ∀ y ∈ log, x.2.size ≠ 0 → y.2.size ≠ 0 → source x.1 = source y.1 →
        x.1 = y.1 := by
  constructor
  · intro hp x hx y hy hxn hyn hsource
    by_contra hne
    obtain ⟨a,ha,hax,ha0,han⟩ := h.exists_start (h.used_ne_zero hx hxn)
    obtain ⟨b,hb,hby,hb0,hbn⟩ := h.exists_start (h.used_ne_zero hy hyn)
    have hab : a ≠ b := fun hab => hne (by rw [← hax, ← hby, hab])
    have hs : a.2.source = b.2.source := by
      rw [h.source_eq ha, h.source_eq hb, hax, hby, hsource]
    have : Std.Symm fun x y : ι × Part σ => ¬x.2.Shares y.2 := ⟨fun _ _ hn hs => hn hs.symm⟩
    exact hp.forall ha hb hab (Part.shares_of_start hs ha0 hb0 han hbn)
  · intro hown
    induction h with
    | nil => exact .nil
    | snoc h i n ih =>
      refine List.pairwise_append.mpr ⟨ih fun x hx y hy => hown x (List.mem_append_left _ hx) y
        (List.mem_append_left _ hy),List.pairwise_singleton ..,?_⟩
      intro x hx y hy hshares
      obtain rfl := List.mem_singleton.mp hy
      obtain ⟨hxn,hyn⟩ := hshares.size_ne_zero
      have hreader : x.1 = i := hown x (List.mem_append_left _ hx) _ (by simp) hxn hyn
        ((h.source_eq hx).symm.trans hshares.1)
      -- one reader's parts follow each other
      have hend := h.end_le_used hx
      obtain ⟨-,k,hk,hk'⟩ := hshares
      rw [hreader] at hend
      exact absurd (Nat.lt_of_lt_of_le hk.2 hend) (Nat.not_lt.mpr hk'.1)

end Reads
end Streams
