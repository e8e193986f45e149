import Mathlib.Analysis.Normed.Module.Basic

/-! Means of vectors of bounded length: how long they are, and how far they move when some of the
vectors are exchanged for others. -/
namespace Means
variable {ι E : Type*} [SeminormedAddCommGroup E] [NormedSpace ℝ E] {l l' : List ι} {f : ι → E}
  {weight : ι → ℝ} {bound : ℝ}

/-- The mean by weights, and nothing where there is no weight. -/
noncomputable def weighted (l : List ι) (weight : ι → ℝ) (f : ι → E) : E :=
  (1/(l.map weight).sum)•(l.map fun i => weight i•f i).sum

theorem norm_sum_le (h0 : ∀ i ∈ l, 0 ≤ weight i) (h : ∀ i ∈ l, ‖f i‖ ≤ bound) :
    ‖(l.map fun i => weight i•f i).sum‖ ≤ (l.map weight).sum*bound := by
  induction l with
  | nil => simp
  | cons i l ih =>
    have hrest := ih (fun j hj => h0 j (List.mem_cons_of_mem i hj))
      fun j hj => h j (List.mem_cons_of_mem i hj)
    have hi : ‖weight i•f i‖ ≤ weight i*bound := by
      rw [norm_smul, Real.norm_of_nonneg (h0 i List.mem_cons_self)]
      exact mul_le_mul_of_nonneg_left (h i List.mem_cons_self) (h0 i List.mem_cons_self)
    rw [List.map_cons, List.sum_cons, List.map_cons, List.sum_cons, add_mul]
    exact (norm_add_le _ _).trans (add_le_add hi hrest)

theorem norm_weighted_le (hbound : 0 ≤ bound) (h0 : ∀ i ∈ l, 0 ≤ weight i)
    (h : ∀ i ∈ l, ‖f i‖ ≤ bound) : ‖weighted l weight f‖ ≤ bound := by
  have hsum : 0 ≤ (l.map weight).sum := List.sum_nonneg fun x hx => by
    obtain ⟨i,hi,rfl⟩ := List.mem_map.mp hx
    exact h0 i hi
  unfold weighted
  rw [norm_smul, Real.norm_of_nonneg (one_div_nonneg.mpr hsum), one_div, inv_mul_eq_div]
  exact div_le_of_le_mul₀ hsum hbound (by
    rw [mul_comm]
    exact norm_sum_le h0 h)

/-- The plain mean. -/
noncomputable def mean (l : List ι) (f : ι → E) : E := weighted l (fun _ => 1) f

theorem mean_eq (l : List ι) (f : ι → E) : mean l f = (1/(l.length : ℝ))•(l.map f).sum := by
  simp [mean, weighted]

theorem norm_mean_le (hbound : 0 ≤ bound) (h : ∀ i ∈ l, ‖f i‖ ≤ bound) : ‖mean l f‖ ≤ bound :=
  norm_weighted_le hbound (fun _ _ => zero_le_one) h

omit [NormedSpace ℝ E] in
/-- What two lists share cancels out of the difference of their sums. -/
theorem sum_sub_sum [DecidableEq ι] (l l' : List ι) (f : ι → E) :
    (l.map f).sum-(l'.map f).sum = ((l.diff l').map f).sum-((l'.diff l).map f).sum := by
  have hperm (a b : List ι) : (a.map f).sum = ((a.diff b).map f).sum+((a.bagInter b).map f).sum := by
    have h : a.Perm (a.diff b++a.bagInter b) := by
      rw [← Multiset.coe_eq_coe, ← Multiset.coe_add]
      exact (Multiset.sub_add_inter (a : Multiset ι) b).symm
    rw [(h.map f).sum_eq, List.map_append, List.sum_append]
  have hinter : (l.bagInter l').Perm (l'.bagInter l) :=
    Multiset.coe_eq_coe.mp (Multiset.inter_comm (l : Multiset ι) l')
  rw [hperm l l', hperm l' l, (hinter.map f).sum_eq, add_sub_add_right_eq_sub]

theorem length_diff [DecidableEq ι] (h : l.length = l'.length) :
    (l'.diff l).length = (l.diff l').length := by
  have hcard (a b : List ι) : a.length = (a.diff b).length+(a.bagInter b).length := by
    have h := congrArg Multiset.card (Multiset.sub_add_inter (a : Multiset ι) b).symm
    rwa [Multiset.card_add] at h
  have hinter : (l.bagInter l').length = (l'.bagInter l).length :=
    congrArg Multiset.card (Multiset.inter_comm (l : Multiset ι) l')
  have hl := hcard l l'
  have hl' := hcard l' l
  omega

/-- Exchanging `changed` of the vectors moves the mean by their two shares of it. -/
theorem norm_mean_sub_mean_le [DecidableEq ι] {changed : ℕ} (hlen : l.length = l'.length)
    (hbound : 0 ≤ bound) (h : ∀ i ∈ l, ‖f i‖ ≤ bound) (h' : ∀ i ∈ l', ‖f i‖ ≤ bound)
    (hdiff : (l.diff l').length ≤ changed) :
    ‖mean l f-mean l' f‖ ≤ 2*changed*bound/l.length := by
  have hpart {a b : List ι} (ha : ∀ i ∈ a, ‖f i‖ ≤ bound) (hab : (a.diff b).length ≤ changed) :
      ‖((a.diff b).map f).sum‖ ≤ changed*bound := by
    have hsum := norm_sum_le (l := a.diff b) (fun _ _ => zero_le_one)
      fun i hi => ha i (List.diff_sublist _ _ |>.mem hi)
    simp only [one_smul, List.map_const', List.sum_replicate, nsmul_eq_mul, mul_one] at hsum
    exact hsum.trans (mul_le_mul_of_nonneg_right (Nat.cast_le.mpr hab) hbound)
  rw [mean_eq, mean_eq, ← hlen, ← smul_sub, sum_sub_sum, norm_smul,
    Real.norm_of_nonneg (by positivity), one_div, inv_mul_eq_div]
  refine div_le_div_of_nonneg_right ?_ (Nat.cast_nonneg _)
  calc ‖((l.diff l').map f).sum-((l'.diff l).map f).sum‖
    _ ≤ changed*bound+changed*bound := (norm_sub_le _ _).trans
      (add_le_add (hpart h hdiff) (hpart h' ((length_diff hlen).trans_le hdiff)))
    _ = 2*changed*bound := by ring

end Means
