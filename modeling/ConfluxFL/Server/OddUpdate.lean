import ConfluxFL.Lib.FloatOverflow
import ConfluxFL.Server.BatchContent

/-! An update of the wrong size among those the reputation filter scores. The mean that all are
scored against has the size of whichever update sorts first and adds up the beginnings of all
others, so the size of one update decides about the rest. -/
namespace ConfluxFL

/-- A vector in which at most the first coordinate differs from zero. -/
def spike (x : F32) : ℕ → List F32
  | 0 => []
  | k+1 => x::List.replicate k F32.zero

section Spike
variable (x y : F32) (k l : ℕ)

@[simp] theorem length_spike : (spike x k).length = k := by
  cases k with
  | zero => rfl
  | succ k => rw [spike, List.length_cons, List.length_replicate]

theorem zero_add_zero : F32.zero+F32.zero = F32.zero := by decide +kernel

theorem zero_mul_zero : F32.zero*F32.zero = F32.zero := by decide +kernel

theorem addInto_zeros : addInto (List.replicate l F32.zero) (List.replicate k F32.zero) =
    List.replicate l F32.zero := by
  induction l generalizing k with
  | zero =>
    cases k <;> rfl
  | succ l ih =>
    cases k with
    | zero => rfl
    | succ k =>
      simp only [List.replicate_succ]
      rw [addInto, zero_add_zero, ih]

theorem addInto_spike : addInto (spike x (l+1)) (spike y (k+1)) = spike (x+y) (l+1) := by
  simp only [spike]
  rw [addInto, addInto_zeros]

theorem zipWith_spike : (spike x k).zipWith (· * ·) (spike y k) = spike (x*y) k := by
  cases k with
  | zero => rfl
  | succ k => simp [spike, zero_mul_zero]

theorem map_sq_spike : (spike x k).map (fun w => w*w) = spike (x*x) k := by
  cases k with
  | zero => rfl
  | succ k => simp [spike, zero_mul_zero]

variable {x}

theorem sum_spike (hneg : F32.negZero+x = x) (hzero : x+F32.zero = x) :
    F32.sum (spike x (k+1)) = x := by
  have hfold : (List.replicate k F32.zero).foldl (· + ·) x = x := by
    induction k with
    | zero => rfl
    | succ k ih => rw [List.replicate_succ, List.foldl_cons, hzero, ih]
  rw [F32.sum, spike, List.foldl_cons, hneg, hfold]

/-- Zeros add nothing. -/
theorem foldl_zeros {updates : List (String × List F32)}
    (h : ∀ u ∈ updates, ∃ j, u.2 = spike F32.zero j) (hx : x+F32.zero = x) :
    updates.foldl (fun acc (_,w) => addInto acc w) (spike x (k+1)) = spike x (k+1) := by
  induction updates with
  | nil => rfl
  | cons u updates ih =>
    obtain ⟨j,hj⟩ := h u List.mem_cons_self
    have hstep : addInto (spike x (k+1)) u.2 = spike x (k+1) := by
      rw [hj]
      cases j with
      | zero => rfl
      | succ j => rw [addInto_spike, hx]
    rw [List.foldl_cons]
    change updates.foldl _ (addInto (spike x (k+1)) u.2) = _
    rw [hstep]
    exact ih fun v hv => h v (List.mem_cons_of_mem u hv)

end Spike

/-! Scores of such vectors. -/

theorem l2Norm_zeros (k : ℕ) : (l2Norm (spike F32.zero k)).beq F32.zero = true := by
  rw [l2Norm, map_sq_spike, zero_mul_zero]
  cases k with
  | zero => decide +kernel
  | succ k =>
    rw [sum_spike k (by decide +kernel) zero_add_zero]
    decide +kernel

theorem cosineScore_zeros {k : ℕ} {reference : List F32} (h : reference.length = k) :
    cosineScore (spike F32.zero k) reference = F32.zero := by
  have hlen : ¬(spike F32.zero k).length ≠ reference.length := by simp [h]
  simp only [cosineScore, if_neg hlen, l2Norm_zeros, Bool.true_or, if_true]

theorem cosineScore_zero_reference {k : ℕ} {update : List F32} (h : update.length = k) :
    cosineScore update (spike F32.zero k) = F32.zero := by
  have hlen : ¬update.length ≠ (spike F32.zero k).length := by simp [h]
  simp only [cosineScore, if_neg hlen, l2Norm_zeros, Bool.or_true, if_true]

/-- Where every product overflows, infinity is divided by infinity. -/
theorem cosineScore_overflow {x r : F32} {k : ℕ} (hx : x*x = F32.infinity)
    (hxr : x*r = F32.infinity) (hr : r*r = F32.infinity) :
    cosineScore (spike x (k+1)) (spike r (k+1)) = nan := by
  have hsum : F32.sum (spike F32.infinity (k+1)) = F32.infinity :=
    sum_spike k (by decide +kernel) (by decide +kernel)
  have hnorm : F32.infinity.sqrt = F32.infinity := by decide +kernel
  have hlen : ¬(spike x (k+1)).length ≠ (spike r (k+1)).length := by simp
  have hbeq : F32.infinity.beq F32.zero = false := by decide +kernel
  simp only [cosineScore, if_neg hlen, l2Norm, map_sq_spike, zipWith_spike, hx, hxr, hr, hsum,
    hnorm, hbeq, Bool.or_false, Bool.false_eq_true, if_false]
  decide +kernel

/-! The mean of a batch of such vectors. -/

theorem length_meanVector {u : String × List F32} {updates : List (String × List F32)} :
    (meanVector (u::updates)).length = u.2.length := by
  have hadd : ∀ acc w : List F32, (addInto acc w).length = acc.length := by
    intro acc w
    induction acc generalizing w with
    | nil => cases w <;> rfl
    | cons s acc ih =>
      cases w with
      | nil => rfl
      | cons w ws => rw [addInto, List.length_cons, List.length_cons, ih]
  have hfold : ∀ (us : List (String × List F32)) (acc : List F32),
      (us.foldl (fun acc (_,w) => addInto acc w) acc).length = acc.length := by
    intro us
    induction us with
    | nil => exact fun _ => rfl
    | cons v us ih =>
      intro acc
      rw [List.foldl_cons, ih]
      exact hadd acc v.2
  rw [meanVector, List.length_map, hfold, List.length_replicate]

section Mean
variable {x y : F32} {c c' : String} {k l : ℕ} {us vs : List (String × List F32)}
  (hus : ∀ u ∈ us, ∃ j, u.2 = spike F32.zero j) (hx : x+F32.zero = x) (hx' : F32.zero+x = x)
include hus hx hx'

theorem foldl_first : ((c,spike x (l+1))::us).foldl (fun acc (_,w) => addInto acc w)
    (List.replicate (l+1) F32.zero) = spike x (l+1) := by
  rw [List.foldl_cons]
  change us.foldl _ (addInto (spike F32.zero (l+1)) (spike x (l+1))) = _
  rw [addInto_spike, hx', foldl_zeros l hus hx]

/-- Among zeros the first update is the sum. -/
theorem meanVector_first (hzero : F32.zero/F32.ofNat (us.length+1) = F32.zero) :
    meanVector ((c,spike x (l+1))::us) = spike (x/F32.ofNat (us.length+1)) (l+1) := by
  have hfold := foldl_first (c := c) (l := l) hus hx hx'
  have hmean : meanVector ((c,spike x (l+1))::us) =
      (((c,spike x (l+1))::us).foldl (fun acc (_,w) => addInto acc w)
        (List.replicate (spike x (l+1)).length F32.zero)).map fun s =>
          s/F32.ofNat (us.length+1) := rfl
  rw [hmean, length_spike, hfold]
  simp [spike, hzero]

/-- An update that takes the first one back leaves nothing. -/
theorem meanVector_cancelled (hvs : ∀ u ∈ vs, ∃ j, u.2 = spike F32.zero j)
    (hxy : x+y = F32.zero)
    (hzero : F32.zero/F32.ofNat (us.length+vs.length+2) = F32.zero) :
    meanVector ((c,spike x (l+1))::(us++(c',spike y (k+1))::vs)) = spike F32.zero (l+1) := by
  have hfold := foldl_first (c := c) (l := l) hus hx hx'
  have hlen : ((c,spike x (l+1))::(us++(c',spike y (k+1))::vs)).length =
      us.length+vs.length+2 := by
    simp only [List.length_cons, List.length_append]
    omega
  have hmean : meanVector ((c,spike x (l+1))::(us++(c',spike y (k+1))::vs)) =
      (((c,spike x (l+1))::us++(c',spike y (k+1))::vs).foldl (fun acc (_,w) => addInto acc w)
        (List.replicate (spike x (l+1)).length F32.zero)).map fun s =>
          s/F32.ofNat ((c,spike x (l+1))::(us++(c',spike y (k+1))::vs)).length := rfl
  rw [hmean, hlen, length_spike, List.foldl_append, hfold, List.foldl_cons]
  change (vs.foldl _ (addInto (spike x (l+1)) (spike y (k+1)))).map _ = _
  rw [addInto_spike, hxy, foldl_zeros l hvs zero_add_zero]
  simp [spike, hzero]

end Mean

/-! One more update in a batch. -/

/-- The clients of a batch with the sizes of their updates, and a client whose update may be of
any size. A vector has fewer than `2^63` entries. -/
structure BatchShape where
  others : List (String × ℕ)
  client : String
  distinct : (client::others.map Prod.fst).Nodup
  fits : others.length+1 < 2^63

def shapeOf (updates : List (String × List F32)) : List (String × ℕ) :=
  updates.map fun u => (u.1,u.2.length)

/-- The clients that pass the filter: the batch reaches it in client-id order. -/
def passing (config : ResolvedConfig) (updates : List (String × List F32)) : List String :=
  passedIds config (StableSort.sortBy Prod.fst updates)

namespace BatchShape
variable (s : BatchShape)

/-- Whatever the contents and the threshold, an update of the client that has not the dispatched
size changes nothing for the others. -/
def Immune (d : ℕ) : Prop :=
  ∀ (config : ResolvedConfig) (others : List (String × List F32)) (odd : String × List F32),
    config.reputationFilterEnabled.value = true → shapeOf others = s.others →
      odd.1 = s.client → odd.2.length ≠ d → (∀ u ∈ odd::others, u.2.all F32.isFinite = true) →
        ∀ c ∈ others.map Prod.fst, c ∈ passing config (odd::others) ↔ c ∈ passing config others

/-- There are no others, or one of them sorts first, before the client, and is empty. -/
def Inert : Prop :=
  s.others = [] ∨ ∃ first ∈ s.others, first.2 = 0 ∧ first.1 < s.client ∧
    ∀ o ∈ s.others, first.1 ≤ o.1

variable {s} {config : ResolvedConfig} {updates : List (String × List F32)}

/-- With distinct ids a client passes just where its own update does. -/
theorem mem_passing_iff (hids : (updates.map Prod.fst).Nodup) {u : String × List F32}
    (hu : u ∈ updates) : u.1 ∈ passing config updates ↔
      passesReputation config (StableSort.sortBy Prod.fst updates) u.2 = true := by
  rw [passing, mem_passedIds]
  constructor
  · rintro ⟨v,hv,hid,hpass⟩
    have hvu := List.inj_on_of_nodup_map hids (StableSort.mem_sortBy.mp hv) hu hid
    exact hvu ▸ hpass
  · exact fun hpass => ⟨u,StableSort.mem_sortBy.mpr hu,rfl,hpass⟩

theorem map_fst_eq {others : List (String × List F32)} (h : shapeOf others = s.others) :
    others.map Prod.fst = s.others.map Prod.fst := by
  rw [← h, shapeOf, List.map_map]
  rfl

theorem nodup_ids {others : List (String × List F32)} (h : shapeOf others = s.others)
    {odd : String × List F32} (hodd : odd.1 = s.client) : ((odd::others).map Prod.fst).Nodup := by
  rw [List.map_cons, map_fst_eq h, hodd]
  exact s.distinct

/-- The sorted batch starts with whoever's id comes first. -/
theorem exists_sortBy_cons (hids : (updates.map Prod.fst).Nodup) {u : String × List F32}
    (hu : u ∈ updates) (hfirst : ∀ v ∈ updates, u.1 ≤ v.1) :
    ∃ t, StableSort.sortBy Prod.fst updates = u::t ∧ (∀ v ∈ updates, v ∈ u::t) ∧
      (∀ v ∈ t, v ∈ updates) ∧ ((u::t).map Prod.fst).Nodup ∧ t.length+1 = updates.length := by
  have hperm : (StableSort.sortBy Prod.fst updates).Perm updates := StableSort.sortBy_perm
  have hsorted : StableSort.SortedBy Prod.fst (StableSort.sortBy Prod.fst updates) :=
    StableSort.sortBy_sorted
  cases hsort : StableSort.sortBy Prod.fst updates with
  | nil =>
    rw [hsort] at hperm
    rw [hperm.symm.eq_nil] at hu
    cases hu
  | cons v t =>
    rw [hsort] at hperm hsorted
    have hv : v ∈ updates := hperm.mem_iff.mp List.mem_cons_self
    have hkey : v.1 = u.1 :=
      le_antisymm (hsorted.head_le (hperm.mem_iff.mpr hu)) (hfirst v hv)
    obtain rfl := List.inj_on_of_nodup_map hids hv hu hkey
    exact ⟨t,rfl,fun w hw => hperm.mem_iff.mpr hw,
      fun w hw => hperm.mem_iff.mp (List.mem_cons_of_mem v hw),
      (hperm.map Prod.fst).nodup_iff.mpr hids,hperm.length_eq⟩

/-- Where the first update is empty and stays the first, so is every mean. -/
theorem immune_of_inert (d : ℕ) (h : s.Inert) : s.Immune d := by
  intro config others odd _ hshape hodd _ _ c hc
  obtain ⟨v,hv,rfl⟩ := List.mem_map.mp hc
  have hids := nodup_ids hshape hodd
  have hids' : (others.map Prod.fst).Nodup := (List.nodup_cons.mp hids).2
  obtain hnone | ⟨first,hfirst,hempty,hbefore,hleast⟩ := h
  · rw [← hshape, shapeOf, List.map_eq_nil_iff] at hnone
    rw [hnone] at hv
    cases hv
  rw [← hshape] at hfirst hleast
  obtain ⟨u,hu,rfl⟩ := List.mem_map.mp hfirst
  have hfirst' : ∀ w ∈ others, u.1 ≤ w.1 := fun w hw => hleast _ (List.mem_map_of_mem hw)
  obtain ⟨t,hsort,-⟩ := exists_sortBy_cons hids' hu hfirst'
  obtain ⟨t',hsort',-⟩ := exists_sortBy_cons hids (List.mem_cons_of_mem odd hu) fun w hw => by
    rcases List.mem_cons.mp hw with rfl | hw
    · exact hodd ▸ hbefore.le
    · exact hfirst' w hw
  have hmean : ∀ t : List (String × List F32), meanVector (u::t) = [] := fun t =>
    List.length_eq_zero_iff.mp (length_meanVector.trans hempty)
  rw [mem_passing_iff hids (List.mem_cons_of_mem odd hv), mem_passing_iff hids' hv, hsort, hsort',
    passesReputation, passesReputation, hmean, hmean]

/-! Contents that give the odd update away. -/

/-- All zeros, but for the first coordinate of one client. -/
def fill (x : F32) (id : String) (others : List (String × ℕ)) : List (String × List F32) :=
  others.map fun o => (o.1,spike (if o.1 = id then x else F32.zero) o.2)

theorem shapeOf_fill (x : F32) (id : String) (others : List (String × ℕ)) :
    shapeOf (fill x id others) = others := by
  rw [shapeOf, fill, List.map_map]
  conv_rhs => rw [← List.map_id others]
  apply List.map_congr_left
  intro o _
  simp

theorem mem_fill {x : F32} {id : String} {others : List (String × ℕ)} {u : String × List F32}
    (h : u ∈ fill x id others) : ∃ o ∈ others, u.1 = o.1 ∧
      u.2 = spike (if o.1 = id then x else F32.zero) o.2 := by
  obtain ⟨o,ho,rfl⟩ := List.mem_map.mp h
  exact ⟨o,ho,rfl,rfl⟩

theorem isFinite_zero : F32.zero.isFinite = true := by decide +kernel

theorem isFinite_spike {x : F32} (hx : x.isFinite = true) (k : ℕ) :
    (spike x k).all F32.isFinite = true := by
  cases k with
  | zero => rfl
  | succ k =>
    rw [spike, List.all_cons, hx, Bool.true_and, List.all_eq_true]
    intro a ha
    rw [List.eq_of_mem_replicate ha, isFinite_zero]

theorem isFinite_fill {x : F32} (hx : x.isFinite = true) (id : String)
    (others : List (String × ℕ)) : ∀ u ∈ fill x id others, u.2.all F32.isFinite = true := by
  intro u hu
  obtain ⟨o,-,-,ho⟩ := mem_fill hu
  rw [ho]
  split
  · exact isFinite_spike hx o.2
  · exact isFinite_spike isFinite_zero o.2

/-- A configuration that filters, and rejects what scores below zero. -/
def scoring : ResolvedConfig :=
  { ResolvedConfig.ofDefaults .crossSilo .research with
    reputationFilterEnabled := ⟨true,.cli⟩ }

theorem passesReputation_scoring (decoded : List (String × List F32)) (weights : List F32) :
    passesReputation scoring decoded weights =
      F32.zero.le (cosineScore weights (meanVector decoded)) := rfl

section Witness
variable {d : ℕ} {first : String × ℕ} (hmem : first ∈ s.others)
  (hleast : ∀ o ∈ s.others, first.1 ≤ o.1)
include hmem hleast

/-- The filled batch, sorted. -/
theorem exists_sorted_fill (x : F32) : ∃ t,
    StableSort.sortBy Prod.fst (fill x first.1 s.others) = (first.1,spike x first.2)::t ∧
      (∀ u ∈ t, ∃ j, u.2 = spike F32.zero j) ∧ t.length+1 = s.others.length := by
  have hids : ((fill x first.1 s.others).map Prod.fst).Nodup := by
    rw [map_fst_eq (shapeOf_fill x first.1 s.others)]
    exact (List.nodup_cons.mp s.distinct).2
  have hu : (first.1,spike x first.2) ∈ fill x first.1 s.others :=
    List.mem_map.mpr ⟨first,hmem,by rw [if_pos rfl]⟩
  obtain ⟨t,hsort,-,ht,hnodup,hlen⟩ := exists_sortBy_cons hids hu fun v hv => by
    obtain ⟨o,ho,hid,-⟩ := mem_fill hv
    exact hid ▸ hleast o ho
  rw [List.map_cons, List.nodup_cons] at hnodup
  refine ⟨t,hsort,fun u hu => ?_,by rw [hlen, fill, List.length_map]⟩
  obtain ⟨o,-,hid,hw⟩ := mem_fill (ht u hu)
  have hne : o.1 ≠ first.1 := fun heq => hnodup.1 (List.mem_map.mpr ⟨u,hu,hid.trans heq⟩)
  exact ⟨o.2,by rw [hw, if_neg hne]⟩

/-- The filled batch with an update of the client, where it does not come first. -/
theorem exists_sorted_behind (hbehind : first.1 < s.client) (x : F32) (w : List F32) :
    ∃ us vs, StableSort.sortBy Prod.fst ((s.client,w)::fill x first.1 s.others) =
        (first.1,spike x first.2)::(us++(s.client,w)::vs) ∧
      (∀ u ∈ us, ∃ j, u.2 = spike F32.zero j) ∧ (∀ u ∈ vs, ∃ j, u.2 = spike F32.zero j) ∧
        us.length+vs.length+1 = s.others.length := by
  have hids := nodup_ids (shapeOf_fill x first.1 s.others)
    (show ((s.client,w) : String × List F32).1 = s.client from rfl)
  have hu : (first.1,spike x first.2) ∈ fill x first.1 s.others :=
    List.mem_map.mpr ⟨first,hmem,by rw [if_pos rfl]⟩
  obtain ⟨t,hsort,hall,ht,hnodup,hlen⟩ :=
    exists_sortBy_cons hids (List.mem_cons_of_mem _ hu) fun v hv => by
      rcases List.mem_cons.mp hv with rfl | hv
      · exact hbehind.le
      · obtain ⟨o,ho,hid,-⟩ := mem_fill hv
        exact hid ▸ hleast o ho
  have hodd : (s.client,w) ∈ t := by
    refine (List.mem_cons.mp (hall _ List.mem_cons_self)).resolve_left fun heq => ?_
    exact hbehind.ne (congrArg Prod.fst heq).symm
  obtain ⟨us,vs,rfl⟩ := List.append_of_mem hodd
  simp only [List.map_cons, List.map_append, List.nodup_cons, List.nodup_middle,
    List.mem_append, List.mem_cons, List.mem_map] at hnodup
  -- whoever is neither the first nor the client sent zeros
  have hzero : ∀ u ∈ us++vs, ∃ j, u.2 = spike F32.zero j := by
    intro u hu
    have hne : u.1 ≠ first.1 ∧ u.1 ≠ s.client := by
      rcases List.mem_append.mp hu with hu | hu
      · exact ⟨fun heq => hnodup.1 (.inl ⟨u,hu,heq⟩),fun heq => hnodup.2.1 (.inl ⟨u,hu,heq⟩)⟩
      · exact ⟨fun heq => hnodup.1 (.inr (.inr ⟨u,hu,heq⟩)),
          fun heq => hnodup.2.1 (.inr ⟨u,hu,heq⟩)⟩
    have hfill := (List.mem_cons.mp (ht u (List.perm_middle.mem_iff.mpr
      (List.mem_cons_of_mem _ hu)))).resolve_left fun heq => hne.2 (congrArg Prod.fst heq)
    obtain ⟨o,-,hid,hw⟩ := mem_fill hfill
    exact ⟨o.2,by rw [hw, if_neg fun heq => hne.1 (hid.trans heq)]⟩
  refine ⟨us,vs,hsort,fun u hu => hzero u (List.mem_append_left vs hu),
    fun u hu => hzero u (List.mem_append_right us hu),?_⟩
  simp only [List.length_append, List.length_cons, fill, List.length_map] at hlen
  omega

omit hleast in
/-- In an immune batch the first update scores alike with the odd one and without it. -/
theorem Immune.le_iff (h : s.Immune d) {x : F32} (hx : x.isFinite = true) {w : List F32}
    (hw : w.all F32.isFinite = true) (hsize : w.length ≠ d) :
    F32.zero.le (cosineScore (spike x first.2) (meanVector (StableSort.sortBy Prod.fst
        ((s.client,w)::fill x first.1 s.others)))) = true ↔
      F32.zero.le (cosineScore (spike x first.2) (meanVector (StableSort.sortBy Prod.fst
        (fill x first.1 s.others)))) = true := by
  have hshape := shapeOf_fill x first.1 s.others
  have hids := nodup_ids hshape (show ((s.client,w) : String × List F32).1 = s.client from rfl)
  have hu : (first.1,spike x first.2) ∈ fill x first.1 s.others :=
    List.mem_map.mpr ⟨first,hmem,by rw [if_pos rfl]⟩
  have hfinite : ∀ u ∈ (s.client,w)::fill x first.1 s.others, u.2.all F32.isFinite = true := by
    intro u hu
    rcases List.mem_cons.mp hu with rfl | hu
    · exact hw
    · exact isFinite_fill hx first.1 s.others u hu
  have hsame := h scoring _ (s.client,w) rfl hshape rfl hsize hfinite first.1
    (List.mem_map.mpr ⟨_,hu,rfl⟩)
  rwa [mem_passing_iff (u := (first.1,spike x first.2)) hids (List.mem_cons_of_mem _ hu),
    mem_passing_iff (u := (first.1,spike x first.2)) (List.nodup_cons.mp hids).2 hu,
    passesReputation_scoring, passesReputation_scoring] at hsame

/-- From the first place an update makes the mean as long as it is itself. -/
theorem not_immune_of_front (hfront : s.client < first.1) : ¬s.Immune d := by
  intro h
  obtain ⟨t,hsort,-⟩ := exists_sorted_fill hmem hleast F32.zero
  obtain ⟨w,hwdef⟩ : ∃ w, w = spike F32.zero (d+first.2+1) := ⟨_,rfl⟩
  have hlen : w.length = d+first.2+1 := hwdef ▸ length_spike _ _
  have hids := nodup_ids (shapeOf_fill F32.zero first.1 s.others)
    (show ((s.client,w) : String × List F32).1 = s.client from rfl)
  obtain ⟨t',hsort',-⟩ := exists_sortBy_cons hids List.mem_cons_self fun v hv => by
    rcases List.mem_cons.mp hv with rfl | hv
    · exact le_rfl
    · obtain ⟨o,ho,hid,-⟩ := mem_fill hv
      exact hid ▸ hfront.le.trans (hleast o ho)
  have hbefore : F32.zero.le (cosineScore (spike F32.zero first.2)
      (meanVector ((first.1,spike F32.zero first.2)::t))) = true := by
    rw [cosineScore_zeros (length_meanVector.trans (length_spike _ _))]
    decide +kernel
  have hafter : F32.zero.le (cosineScore (spike F32.zero first.2)
      (meanVector ((s.client,w)::t'))) = false := by
    have hne : (spike F32.zero first.2).length ≠ (meanVector ((s.client,w)::t')).length := by
      rw [length_meanVector, length_spike, hlen]
      omega
    rw [cosineScore, if_pos hne]
    decide +kernel
  have hsame := Immune.le_iff hmem h isFinite_zero (hwdef ▸ isFinite_spike isFinite_zero _)
    (show w.length ≠ d by omega)
  rw [hsort, hsort', hbefore, hafter] at hsame
  exact absurd (hsame.mpr rfl) (by decide)

/-- From any other place it takes the first update back. -/
theorem not_immune_of_behind (hbehind : first.1 < s.client) (hsize : first.2 ≠ 0) :
    ¬s.Immune d := by
  intro h
  obtain ⟨l,hl⟩ := Nat.exists_eq_succ_of_ne_zero hsize
  have hfits := s.fits
  have hcount : 0 < s.others.length := List.length_pos_of_mem hmem
  -- the mean of the others is a power of two so large that all its products overflow
  obtain ⟨m,e,hm,hu,hlog,hlow,hhigh⟩ := F32.unpacked_ofNat_full hcount (by omega)
  obtain ⟨x,hx⟩ := F32.exists_full (e := 104) hm hlog (by omega) (by omega) .positive
  obtain ⟨y,hy⟩ := F32.exists_full (e := 104) hm hlog (by omega) (by omega) .negative
  have hr := F32.div_of_same hx hu (by omega) (by omega)
  have hpower : (2^23).log2 = 23 := Nat.log2_two_pow
  have hxx : x*x = F32.infinity := F32.mul_of_large hx hx hlog hlog (by omega)
  have hxr : x*(x/F32.ofNat s.others.length) = F32.infinity :=
    F32.mul_of_large hx hr hlog hpower (by omega)
  have hrr : x/F32.ofNat s.others.length*(x/F32.ofNat s.others.length) = F32.infinity :=
    F32.mul_of_large hr hr hpower hpower (by omega)
  have hxfinite : x.isFinite = true := by
    rw [F32.isFinite_iff, hx]
    rfl
  have hyfinite : y.isFinite = true := by
    rw [F32.isFinite_iff, hy]
    rfl
  obtain ⟨t,hsort,ht,hlen⟩ := exists_sorted_fill hmem hleast x
  obtain ⟨us,vs,hsort',hus,hvs,hlen'⟩ :=
    exists_sorted_behind hmem hleast hbehind x (spike y (d+1))
  rw [hl] at hsort hsort'
  have hbefore : meanVector ((first.1,spike x (l+1))::t) =
      spike (x/F32.ofNat s.others.length) (l+1) := by
    rw [← hlen] at hcount hfits ⊢
    exact meanVector_first ht (F32.add_zero_of_unpacked hx) (F32.zero_add_of_unpacked hx)
      (F32.zero_div_ofNat hcount (by omega))
  have hafter : meanVector ((first.1,spike x (l+1))::(us++(s.client,spike y (d+1))::vs)) =
      spike F32.zero (l+1) :=
    meanVector_cancelled hus (F32.add_zero_of_unpacked hx) (F32.zero_add_of_unpacked hx) hvs
      (F32.add_opposite hx hy) (F32.zero_div_ofNat (by omega) (by omega))
  have hsame := Immune.le_iff hmem h hxfinite (isFinite_spike hyfinite (d+1))
    (show (spike y (d+1)).length ≠ d by rw [length_spike]; omega)
  rw [hl, hsort, hsort', hbefore, hafter, cosineScore_overflow hxx hxr hrr,
    cosineScore_zero_reference (length_spike x (l+1))] at hsame
  exact absurd (hsame.mp (by decide +kernel)) (by decide +kernel)

end Witness

/-- The filter cannot be hijacked just where there is nothing to hijack. -/
theorem immune_iff (d : ℕ) : s.Immune d ↔ s.Inert := by
  refine ⟨fun h => ?_,immune_of_inert d⟩
  by_cases hnone : s.others = []
  · exact .inl hnone
  obtain ⟨first,hmem,hleast⟩ : ∃ first ∈ s.others, ∀ o ∈ s.others, first.1 ≤ o.1 := by
    obtain ⟨first,hmin⟩ := s.others.toFinset.exists_min_image Prod.fst
      (List.toFinset_nonempty_iff _ |>.mpr hnone)
    exact ⟨first,by simpa only [List.mem_toFinset] using hmin⟩
  have hne : first.1 ≠ s.client := fun heq =>
    (List.nodup_cons.mp s.distinct).1 (heq ▸ List.mem_map_of_mem hmem)
  rcases lt_or_gt_of_ne hne with hbehind | hfront
  · by_cases hsize : first.2 = 0
    · exact .inr ⟨first,hmem,hsize,hbehind,hleast⟩
    · exact absurd h (not_immune_of_behind hmem hleast hbehind hsize)
  · exact absurd h (not_immune_of_front hmem hleast hfront)

/-- Two clients with models of two weights, and a third whose id comes before theirs. -/
def pair : BatchShape where
  others := [("b",2),("c",2)]
  client := "a"
  distinct := by decide
  fits := by decide

/-- One update of a single weight shuts out two that agree. -/
theorem not_immune_pair : ¬pair.Immune 2 := by
  intro h
  have hsame := h scoring [("b",[F32.one,F32.zero]),("c",[F32.one,F32.one])] ("a",[F32.one])
    rfl rfl rfl (by decide) (by decide +kernel) "b" (by decide)
  have hbefore : "b" ∈ passing scoring
      [("b",[F32.one,F32.zero]),("c",[F32.one,F32.one])] := by decide +kernel
  have hafter : "b" ∉ passing scoring
      [("a",[F32.one]),("b",[F32.one,F32.zero]),("c",[F32.one,F32.one])] := by decide +kernel
  exact hafter (hsame.mpr hbefore)

end BatchShape
end ConfluxFL
