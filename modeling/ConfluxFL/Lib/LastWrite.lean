import Mathlib.Data.List.Induction
import ConfluxFL.Lib.Run

/-! Histories of writes to one cell of a machine: the last entry that touches the cell decides
what it holds. -/
namespace LastWrite
variable {σ ι β : Type*} {touches : ι → Prop} {is : List ι} {i j : ι}

/-- `i` is the last entry that touches the cell. -/
def LastOf (touches : ι → Prop) (is : List ι) (i : ι) : Prop :=
  touches i ∧ ∃ pre post, is = pre++i::post ∧ ∀ j ∈ post, ¬touches j

theorem not_lastOf_nil : ¬LastOf touches [] i := by
  rintro ⟨_,pre,post,h,_⟩
  exact List.append_ne_nil_of_right_ne_nil pre (List.cons_ne_nil i post) h.symm

/-- One more entry either is the last to touch the cell or leaves the last one as it was. -/
theorem lastOf_concat : LastOf touches (is++[j]) i ↔
    touches j ∧ i = j ∨ ¬touches j ∧ LastOf touches is i := by
  constructor
  · rintro ⟨hi,pre,post,he,hpost⟩
    rcases List.eq_nil_or_concat post with rfl | ⟨post,b,rfl⟩
    · obtain ⟨-,h⟩ := List.append_inj' he rfl
      obtain rfl : j = i := List.cons.inj h |>.1
      exact .inl ⟨hi,rfl⟩
    · rw [List.concat_eq_append] at he hpost
      rw [← List.cons_append, ← List.append_assoc] at he
      obtain ⟨rfl,h⟩ := List.append_inj' he rfl
      obtain rfl : j = b := List.cons.inj h |>.1
      exact .inr ⟨hpost j (by simp),hi,pre,post,rfl,
        fun a ha => hpost a (List.mem_append_left _ ha)⟩
  · rintro (⟨hj,rfl⟩ | ⟨hj,hi,pre,post,rfl,hpost⟩)
    · exact ⟨hj,is,[],rfl,by simp⟩
    · refine ⟨hi,pre,post++[j],by simp,fun a ha => ?_⟩
      rcases List.mem_append.mp ha with ha | ha
      · exact hpost a ha
      · rwa [List.mem_singleton.mp ha]

/-- A history touches the cell exactly when it has a last entry that does. -/
theorem exists_lastOf_iff : (∃ i, LastOf touches is i) ↔ ∃ i ∈ is, touches i := by
  constructor
  · rintro ⟨i,hi,pre,post,rfl,-⟩
    exact ⟨i,by simp,hi⟩
  · induction is using List.reverseRecOn with
    | nil => simp
    | append_singleton is j ih =>
      rintro ⟨i,hi,ht⟩
      by_cases hj : touches j
      · exact ⟨j,lastOf_concat.mpr (.inl ⟨hj,rfl⟩)⟩
      · rcases List.mem_append.mp hi with hi | hi
        · obtain ⟨k,hk⟩ := ih ⟨i,hi,ht⟩
          exact ⟨k,lastOf_concat.mpr (.inr ⟨hj,hk⟩)⟩
        · exact absurd (List.mem_singleton.mp hi ▸ ht) hj

/-- What a cell holds after a run from where it was empty: what the last entry to touch it
wrote, if any did. -/
theorem cell_after_of_mem {step : σ → ι → σ} (cell : σ → Option β) (written : ι → Option β)
    (hwrite : ∀ s, ∀ i ∈ is, touches i → cell (step s i) = written i)
    (hframe : ∀ s, ∀ i ∈ is, ¬touches i → cell (step s i) = cell s) {s : σ} (hs : cell s = none)
    {b : β} :
    cell (Run.after step s is) = some b ↔ ∃ i, LastOf touches is i ∧ written i = some b := by
  induction is using List.reverseRecOn with
  | nil =>
    rw [Run.after_nil, hs]
    constructor
    · intro h
      cases h
    · rintro ⟨i,hi,-⟩
      exact (not_lastOf_nil hi).elim
  | append_singleton is j ih =>
    have hlast : j ∈ is++[j] := List.mem_append_right _ List.mem_cons_self
    have ih := ih (fun s i hi => hwrite s i (List.mem_append_left _ hi))
      fun s i hi => hframe s i (List.mem_append_left _ hi)
    rw [Run.after_append, Run.after_cons, Run.after_nil]
    by_cases hj : touches j
    · rw [hwrite _ _ hlast hj]
      constructor
      · exact fun h => ⟨j,lastOf_concat.mpr (.inl ⟨hj,rfl⟩),h⟩
      · rintro ⟨i,hi,hb⟩
        rcases lastOf_concat.mp hi with ⟨-,rfl⟩ | ⟨hn,-⟩
        · exact hb
        · exact absurd hj hn
    · rw [hframe _ _ hlast hj, ih]
      refine exists_congr fun i => and_congr_left fun _ => ?_
      rw [lastOf_concat]
      exact ⟨fun h => .inr ⟨hj,h⟩,fun h => (h.resolve_left fun h => hj h.1).2⟩

theorem cell_after {step : σ → ι → σ} (cell : σ → Option β) (written : ι → Option β)
    (hwrite : ∀ s i, touches i → cell (step s i) = written i)
    (hframe : ∀ s i, ¬touches i → cell (step s i) = cell s) {s : σ} (hs : cell s = none)
    {b : β} :
    cell (Run.after step s is) = some b ↔ ∃ i, LastOf touches is i ∧ written i = some b :=
  cell_after_of_mem cell written (fun s i _ => hwrite s i) (fun s i _ => hframe s i) hs

/-- There is at most one last entry. -/
theorem LastOf.unique (hi : LastOf touches is i) (hj : LastOf touches is j) : i = j := by
  induction is using List.reverseRecOn with
  | nil => exact (not_lastOf_nil hi).elim
  | append_singleton is k ih =>
    rcases lastOf_concat.mp hi with ⟨hk,rfl⟩ | ⟨hk,hi⟩
    · exact ((lastOf_concat.mp hj).resolve_right fun h => h.1 hk).2.symm
    · exact ih hi ((lastOf_concat.mp hj).resolve_left fun h => hk h.1).2

theorem LastOf.mem (hi : LastOf touches is i) : i ∈ is := by
  obtain ⟨-,pre,post,rfl,-⟩ := hi
  exact List.mem_append_right _ List.mem_cons_self

end LastWrite
