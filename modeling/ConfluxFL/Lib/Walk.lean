import Mathlib.Data.List.Nodup

/-! Walks along a function that may be undefined: from every node at most one step leads on, so
a walk either ends where the function is undefined or comes back to a node it has left. Then loops
that end with a result. -/
namespace Walk
variable {α : Type*} (next : α → Option α)

/-- The nodes left on the way from one node to another. -/
inductive Path : α → List α → α → Prop
  | nil (a : α) : Path a [] a
  | cons {a b c : α} {l : List α} (h : next a = some b) (hp : Path b l c) : Path a (a::l) c

/-- Nothing leads on from the last node. -/
def EndsAt (a : α) (l : List α) (b : α) : Prop := Path next a l b ∧ next b = none
/-- Some walk comes back to a node it has left. -/
def Revisits (a : α) : Prop := ∃ l b, Path next a l b ∧ b ∈ l

variable {next} {a b c : α} {l m : List α}

theorem Path.concat (hp : Path next a l b) (h : next b = some c) : Path next a (l++[b]) c := by
  induction hp with
  | nil a => exact .cons h (.nil c)
  | cons h' _ ih => exact .cons h' (ih h)

theorem Path.mem_start (hp : Path next a l b) (hl : l ≠ []) : a ∈ l := by
  cases hp with
  | nil => exact absurd rfl hl
  | cons => exact List.mem_cons_self

/-- Another function that leads on alike from every node left has the same walk. -/
theorem Path.congr {next' : α → Option α} (hp : Path next a l b)
    (h : ∀ x ∈ l, ∀ y, next x = some y → next' x = some y) : Path next' a l b := by
  induction hp with
  | nil a => exact .nil a
  | cons h' _ ih =>
    exact .cons (h _ List.mem_cons_self _ h') (ih fun x hx => h x (List.mem_cons_of_mem _ hx))

/-- A walk up to a node that it leaves. -/
theorem Path.upTo (hp : Path next a (l++c::m) b) : Path next a l c := by
  induction l generalizing a with
  | nil =>
    cases hp
    exact .nil c
  | cons x l ih =>
    cases hp with
    | cons h hp => exact .cons h (ih hp)

/-- Every node left leads to another one left, or to the last. -/
theorem Path.next_of_mem (hp : Path next a l b) (hc : c ∈ l) :
    ∃ d, next c = some d ∧ (d ∈ l ∨ d = b) := by
  induction hp with
  | nil => cases hc
  | cons h hp ih =>
    rcases List.mem_cons.mp hc with rfl | hc
    · refine ⟨_,h,?_⟩
      cases hp with
      | nil => exact .inr rfl
      | cons => exact .inl (List.mem_cons_of_mem _ List.mem_cons_self)
    · obtain ⟨d,hd,hm⟩ := ih hc
      exact ⟨d,hd,hm.imp_left (List.mem_cons_of_mem _)⟩

/-- A set of nodes that is closed under the steps keeps the walk. -/
theorem Path.mem_of_closed {p : α → Prop} (hp : Path next a l b) (ha : p a)
    (hclosed : ∀ x y, p x → next x = some y → p y) : p b := by
  induction hp with
  | nil => exact ha
  | cons h _ ih => exact ih (hclosed _ _ ha h)

theorem EndsAt.unique (h : EndsAt next a l b) (h' : EndsAt next a m c) : l = m ∧ b = c := by
  obtain ⟨hp,hb⟩ := h
  obtain ⟨hp',hc⟩ := h'
  induction hp generalizing m with
  | nil a =>
    cases hp' with
    | nil => exact ⟨rfl,rfl⟩
    | cons h _ =>
      rw [hb] at h
      cases h
  | cons h hp ih =>
    cases hp' with
    | nil =>
      rw [hc] at h
      cases h
    | cons h' hp' =>
      obtain rfl := Option.some.inj (h.symm.trans h')
      obtain ⟨rfl,rfl⟩ := ih hb hp'
      exact ⟨rfl,rfl⟩

/-- A walk that comes back never ends. -/
theorem Revisits.not_endsAt (h : Revisits next a) : ¬ EndsAt next a l b := by
  rintro ⟨hp,hb⟩
  obtain ⟨m,c,hm,hc⟩ := h
  have hclosed : ∀ x y, x ∈ m → next x = some y → y ∈ m := by
    intro x y hx hy
    obtain ⟨d,hd,hdm⟩ := hm.next_of_mem hx
    obtain rfl := Option.some.inj (hd.symm.trans hy)
    rcases hdm with hdm | rfl
    · exact hdm
    · exact hc
  have hmem : b ∈ m := hp.mem_of_closed (p := (· ∈ m))
    (hm.mem_start (List.ne_nil_of_mem hc)) hclosed
  obtain ⟨d,hd,-⟩ := hm.next_of_mem hmem
  rw [hb] at hd
  cases hd

end Walk

/-! One turn of a loop either goes on in a new state or leaves the loop; an invariant and a measure
that falls at every turn bound the number of turns, and what the invariant gives where the loop is
left holds of the result. -/
namespace Loops
variable {σ ρ : Type*} (turn : σ → σ ⊕ ρ)

/-- At most so many turns. -/
def run : ℕ → σ → Option ρ
  | 0, _ => none
  | n+1, s =>
    match turn s with
    | .inl s' => run n s'
    | .inr r => some r

variable {turn} {s : σ}

theorem isSome_run (Inv : σ → Prop) (measure : σ → ℕ)
    (hturn : ∀ s s', Inv s → turn s = .inl s' → Inv s' ∧ measure s' < measure s)
    (hs : Inv s) {n : ℕ} (hn : measure s < n) : (run turn n s).isSome := by
  induction n generalizing s with
  | zero => omega
  | succ n ih =>
    cases ht : turn s with
    | inl s' =>
      obtain ⟨hs',hlt⟩ := hturn s s' hs ht
      rw [run, ht]
      exact ih hs' (by omega)
    | inr r => simp [run, ht]

theorem run_of_invariant {Inv : σ → Prop} {Post : ρ → Prop}
    (hturn : ∀ s s', Inv s → turn s = .inl s' → Inv s')
    (hend : ∀ s r, Inv s → turn s = .inr r → Post r) (hs : Inv s) {n : ℕ} {r : ρ}
    (hr : run turn n s = some r) : Post r := by
  induction n generalizing s with
  | zero => cases hr
  | succ n ih =>
    cases ht : turn s with
    | inl s' =>
      rw [run, ht] at hr
      exact ih (hturn s s' hs ht) hr
    | inr r' =>
      rw [run, ht] at hr
      obtain rfl := Option.some.inj hr
      exact hend s r' hs ht

end Loops
