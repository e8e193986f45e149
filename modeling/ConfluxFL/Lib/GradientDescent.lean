import Mathlib.Algebra.Order.Chebyshev
import Mathlib.Analysis.InnerProductSpace.Adjoint
import Mathlib.Analysis.InnerProductSpace.PiL2
import Mathlib.Topology.MetricSpace.Contracting

/-! Gradient descent at a fixed rate on the squared distance of a linear map from a target. In an
eigenbasis of the map with its adjoint every coordinate of the residual is multiplied by its own
factor, step after step. Where several descents run on examples of their own and their results are
averaged, time after time, what none of the examples says anything about never changes; if there is
no such direction the averages approach one point from everywhere. -/
namespace GradientDescent

section Residual
variable {E F ι : Type*} [NormedAddCommGroup E] [InnerProductSpace ℝ E] [FiniteDimensional ℝ E]
  [NormedAddCommGroup F] [InnerProductSpace ℝ F] [FiniteDimensional ℝ F] [Fintype ι]
  (X : E →ₗ[ℝ] F) (y : F) (rate : ℝ)

noncomputable def residual (w : E) : F := X w-y

noncomputable def step (w : E) : E := w-rate • X.adjoint (residual X y w)

/-- The vectors of a basis are eigenvectors of the map with its adjoint. -/
def Eigenbasis (v : OrthonormalBasis ι ℝ F) (mu : ι → ℝ) : Prop :=
  ∀ i, X (X.adjoint (v i)) = mu i • v i

variable {X y rate} {v : OrthonormalBasis ι ℝ F} {mu : ι → ℝ} (h : Eigenbasis X v mu) (w : E)

theorem residual_step (w : E) : residual X y (step X y rate w) =
    residual X y w-rate • X (X.adjoint (residual X y w)) := by
  simp only [residual, step, map_sub, map_smul]
  abel

include h

theorem inner_apply_adjoint (i : ι) (r : F) : inner ℝ (v i) (X (X.adjoint r)) =
    mu i*inner ℝ (v i) r := by
  rw [← LinearMap.adjoint_inner_left, LinearMap.adjoint_inner_right, h i, real_inner_smul_left]

theorem inner_residual_step (i : ι) (w : E) : inner ℝ (v i) (residual X y (step X y rate w)) =
    (1-rate*mu i)*inner ℝ (v i) (residual X y w) := by
  rw [residual_step, inner_sub_right, real_inner_smul_right, inner_apply_adjoint h]
  ring

theorem inner_residual_iterate (i : ι) (steps : ℕ) :
    inner ℝ (v i) (residual X y ((step X y rate)^[steps] w)) =
      (1-rate*mu i)^steps*inner ℝ (v i) (residual X y w) := by
  induction steps with
  | zero => simp
  | succ steps ih =>
    rw [Function.iterate_succ_apply', inner_residual_step h, ih]
    ring

variable (y rate) in
/-- What the descent does to the squared length of the residual. -/
theorem norm_sq_residual_iterate (steps : ℕ) :
    ‖residual X y ((step X y rate)^[steps] w)‖^2-‖residual X y w‖^2 =
      ∑ i, ((1-rate*mu i)^(2*steps)-1)*inner ℝ (v i) (residual X y w)^2 := by
  rw [← v.sum_sq_inner_right, ← v.sum_sq_inner_right, ← Finset.sum_sub_distrib]
  refine Finset.sum_congr rfl fun i _ => ?_
  rw [inner_residual_iterate h]
  ring

/-- Where the descent ends. -/
theorem iterate_eq (steps : ℕ) : (step X y rate)^[steps] w = w-rate • ∑ i,
    ((∑ t ∈ Finset.range steps, (1-rate*mu i)^t)*inner ℝ (v i) (residual X y w)) •
      X.adjoint (v i) := by
  induction steps with
  | zero => simp
  | succ steps ih =>
    have hlast : X.adjoint (residual X y ((step X y rate)^[steps] w)) =
        ∑ i, ((1-rate*mu i)^steps*inner ℝ (v i) (residual X y w)) • X.adjoint (v i) := by
      conv_lhs => rw [← v.sum_repr' (residual X y ((step X y rate)^[steps] w)), map_sum]
      exact Finset.sum_congr rfl fun i _ => by rw [map_smul, inner_residual_iterate h]
    rw [Function.iterate_succ_apply', step, hlast]
    conv_lhs => enter [1]; rw [ih]
    rw [sub_sub, ← smul_add, ← Finset.sum_add_distrib]
    refine congrArg (fun z => w-rate • z) (Finset.sum_congr rfl fun i _ => ?_)
    rw [← add_smul, Finset.sum_range_succ, add_mul]

end Residual

section Damping
variable {E κ : Type*} [NormedAddCommGroup E] [NormedSpace ℝ E] {T : E → E} {M : E →ₗ[ℝ] E}
  {blind : Set E}

/-- The map takes differences to their images under a linear one. -/
def HasSlope (T : E → E) (M : E →ₗ[ℝ] E) : Prop := ∀ w w', T w-T w' = M (w-w')

/-- No vector gets longer, and none outside of the blind ones stays as long as it was. -/
structure Damps (M : E →ₗ[ℝ] E) (blind : Set E) : Prop where
  norm_le (v : E) : ‖M v‖ ≤ ‖v‖
  norm_lt (v : E) : v ∉ blind → ‖M v‖ < ‖v‖

theorem HasSlope.iterate (h : HasSlope T M) (n : ℕ) : HasSlope T^[n] (M^n) := by
  intro w w'
  induction n generalizing w w' with
  | zero => simp
  | succ n ih => rw [Function.iterate_succ_apply, Function.iterate_succ_apply, ih, h, pow_succ,
      Module.End.mul_apply]

theorem Damps.iterate (h : Damps M blind) {n : ℕ} (hn : 0 < n) : Damps (M^n) blind := by
  have hle (n : ℕ) (v : E) : ‖(M^n) v‖ ≤ ‖v‖ := by
    induction n with
    | zero => simp
    | succ n ih =>
      rw [pow_succ', Module.End.mul_apply]
      exact (h.norm_le _).trans ih
  refine ⟨hle n,fun v hv => ?_⟩
  obtain ⟨n,rfl⟩ := Nat.exists_eq_succ_of_ne_zero hn.ne'
  rw [pow_succ, Module.End.mul_apply]
  exact (hle n (M v)).trans_lt (h.norm_lt v hv)

/-- A mean of maps has the mean of their slopes. -/
theorem HasSlope.mean {l : List κ} {share : κ → ℝ} {T : κ → E → E} {M : κ → E →ₗ[ℝ] E}
    (h : ∀ c ∈ l, HasSlope (T c) (M c)) :
    HasSlope (fun w => (l.map fun c => share c • T c w).sum)
      (l.map fun c => share c • M c).sum := by
  intro w w'
  induction l with
  | nil => simp
  | cons c l ih =>
    have ih := ih fun c' hc' => h c' (List.mem_cons_of_mem c hc')
    dsimp only at ih ⊢
    simp only [List.map_cons, List.sum_cons, LinearMap.add_apply, LinearMap.smul_apply]
    rw [add_sub_add_comm, ih, ← smul_sub, h c List.mem_cons_self w w']

/-- A mean is blind only where all that it is taken over are. -/
theorem Damps.mean {l : List κ} {share : κ → ℝ} {M : κ → E →ₗ[ℝ] E} {blind : κ → Set E}
    (h : ∀ c ∈ l, Damps (M c) (blind c)) (hpos : ∀ c ∈ l, 0 < share c)
    (hsum : (l.map share).sum = 1) :
    Damps (l.map fun c => share c • M c).sum {v | ∀ c ∈ l, v ∈ blind c} := by
  have hle (v : E) : ‖(l.map fun c => share c • M c).sum v‖ ≤
      (l.map fun c => share c*‖M c v‖).sum := by
    clear hsum
    induction l with
    | nil => simp
    | cons c l ih =>
      simp only [List.map_cons, List.sum_cons, LinearMap.add_apply, LinearMap.smul_apply]
      refine (norm_add_le _ _).trans (add_le_add (le_of_eq ?_)
        (ih (fun c' hc' => h c' (List.mem_cons_of_mem c hc'))
          fun c' hc' => hpos c' (List.mem_cons_of_mem c hc')))
      rw [norm_smul, Real.norm_of_nonneg (hpos c List.mem_cons_self).le]
  have hmean (v : E) : (l.map fun c => share c*‖v‖).sum = ‖v‖ := by
    rw [List.sum_map_mul_right, hsum, one_mul]
  have hterm (v : E) : ∀ c ∈ l, share c*‖M c v‖ ≤ share c*‖v‖ := fun c hc =>
    mul_le_mul_of_nonneg_left ((h c hc).norm_le v) (hpos c hc).le
  refine ⟨fun v => ?_,fun v hv => ?_⟩
  · exact (hle v).trans ((List.sum_le_sum (hterm v)).trans_eq (hmean v))
  · simp only [Set.mem_ofPred_eq, not_forall] at hv
    obtain ⟨c,hc,hv⟩ := hv
    have hlt : share c*‖M c v‖ < share c*‖v‖ :=
      mul_lt_mul_of_pos_left ((h c hc).norm_lt v hv) (hpos c hc)
    exact (hle v).trans_lt ((List.sum_lt_sum _ _ (hterm v) ⟨c,hc,hlt⟩).trans_eq (hmean v))

/-- A map that is blind to nothing shortens everything by one factor. -/
theorem Damps.exists_factor [FiniteDimensional ℝ E] (h : Damps M {0}) :
    ∃ q, 0 ≤ q ∧ q < 1 ∧ ∀ v, ‖M v‖ ≤ q*‖v‖ := by
  by_cases hne : (Metric.sphere (0 : E) 1).Nonempty
  · have hcompact : IsCompact (Metric.sphere (0 : E) 1) := by
      have := FiniteDimensional.proper ℝ E
      exact isCompact_sphere 0 1
    have hcont : ContinuousOn (fun v => ‖M v‖) (Metric.sphere (0 : E) 1) :=
      (continuous_norm.comp M.continuous_of_finiteDimensional).continuousOn
    obtain ⟨u,hu,hmax⟩ := hcompact.exists_isMaxOn hne hcont
    have hunit : ‖u‖ = 1 := mem_sphere_zero_iff_norm.mp hu
    have hu0 : u ∉ ({0} : Set E) := by
      rintro rfl
      rw [norm_zero] at hunit
      exact zero_ne_one hunit
    refine ⟨‖M u‖,norm_nonneg _,hunit ▸ h.norm_lt u hu0,fun v => ?_⟩
    by_cases hv : v = 0
    · simp [hv]
    · have hscaled : ‖M (‖v‖⁻¹ • v)‖ ≤ ‖M u‖ := hmax (by
        rw [mem_sphere_zero_iff_norm]
        exact norm_smul_inv_norm hv)
      rw [map_smul, norm_smul, norm_inv, norm_norm, inv_mul_le_iff₀ (norm_pos_iff.mpr hv)] at hscaled
      rwa [mul_comm]
  · refine ⟨0,le_rfl,one_pos,fun v => ?_⟩
    have hv : v = 0 := by
      by_contra hv
      exact hne ⟨‖v‖⁻¹ • v,by rw [mem_sphere_zero_iff_norm]; exact norm_smul_inv_norm hv⟩
    simp [hv]

/-- Its repetitions approach one point from everywhere, at one rate. -/
theorem HasSlope.exists_fixed [FiniteDimensional ℝ E] (hT : HasSlope T M) (h : Damps M {0}) :
    ∃ w q, 0 ≤ q ∧ q < 1 ∧ T w = w ∧ ∀ start k, ‖T^[k] start-w‖ ≤ q^k*‖start-w‖ := by
  obtain ⟨q,hq,hlt,hle⟩ := h.exists_factor
  have := FiniteDimensional.complete ℝ E
  have hcontracts : ContractingWith ⟨q,hq⟩ T := by
    refine ⟨hlt,LipschitzWith.of_dist_le_mul fun w w' => ?_⟩
    rw [dist_eq_norm, dist_eq_norm, hT]
    exact hle _
  refine ⟨hcontracts.fixedPoint,q,hq,hlt,hcontracts.fixedPoint_isFixedPt,fun start k => ?_⟩
  induction k with
  | zero => simp
  | succ k ih =>
    have hfixed : T hcontracts.fixedPoint = hcontracts.fixedPoint :=
      hcontracts.fixedPoint_isFixedPt
    calc ‖T^[k+1] start-hcontracts.fixedPoint‖
        = ‖T (T^[k] start)-T hcontracts.fixedPoint‖ := by
          rw [Function.iterate_succ_apply', hfixed]
      _ ≤ q*‖T^[k] start-hcontracts.fixedPoint‖ := by
          rw [hT]
          exact hle _
      _ ≤ q*(q^k*‖start-hcontracts.fixedPoint‖) := mul_le_mul_of_nonneg_left ih hq
      _ = q^(k+1)*‖start-hcontracts.fixedPoint‖ := by ring

end Damping
section Examples
variable {E : Type*} [NormedAddCommGroup E] [InnerProductSpace ℝ E] {rate : ℝ} {xs : List E}
  {examples : List (E × ℝ)} {v : E}

/-- The step on the squared errors over a list of examples. -/
noncomputable def examplesStep (rate : ℝ) (examples : List (E × ℝ)) (w : E) : E :=
  w-rate • (examples.map fun e => (inner ℝ e.1 w-e.2) • e.1).sum

noncomputable def slope (rate : ℝ) (xs : List E) : E →ₗ[ℝ] E :=
  LinearMap.id-rate • (xs.map fun x => (innerₛₗ ℝ x).smulRight x).sum

/-- The directions that no example says anything about. -/
def Unseen (xs : List E) : Set E := {v | ∀ x ∈ xs, inner ℝ x v = 0}

theorem slope_apply (rate : ℝ) (xs : List E) (v : E) :
    slope rate xs v = v-rate • (xs.map fun x => inner ℝ x v • x).sum := by
  have hsum : (xs.map fun x => (innerₛₗ ℝ x).smulRight x).sum v =
      (xs.map fun x => inner ℝ x v • x).sum := by
    induction xs with
    | nil => rfl
    | cons x xs ih =>
      rw [List.map_cons, List.sum_cons, List.map_cons, List.sum_cons, LinearMap.add_apply, ih]
      rfl
  rw [slope, LinearMap.sub_apply, LinearMap.id_apply, LinearMap.smul_apply, hsum]

theorem hasSlope_examplesStep (rate : ℝ) (examples : List (E × ℝ)) :
    HasSlope (examplesStep rate examples) (slope rate (examples.map Prod.fst)) := by
  intro w w'
  have hsum : (examples.map fun e => (inner ℝ e.1 w-e.2) • e.1).sum-
      (examples.map fun e => (inner ℝ e.1 w'-e.2) • e.1).sum =
        ((examples.map Prod.fst).map fun x => inner ℝ x (w-w') • x).sum := by
    induction examples with
    | nil => simp
    | cons e examples ih =>
      simp only [List.map_cons, List.sum_cons]
      rw [add_sub_add_comm, ih, ← sub_smul, inner_sub_right]
      congr 2
      ring
  rw [slope_apply, ← hsum, examplesStep, examplesStep, smul_sub]
  abel

/-- What no example says anything about stays as it was. -/
theorem inner_examplesStep (hv : v ∈ Unseen (examples.map Prod.fst)) (w : E) :
    inner ℝ v (examplesStep rate examples w) = inner ℝ v w := by
  have hsum : inner ℝ v (examples.map fun e => (inner ℝ e.1 w-e.2) • e.1).sum = 0 := by
    induction examples with
    | nil => simp
    | cons e examples ih =>
      have he : inner ℝ v e.1 = 0 := by
        rw [real_inner_comm]
        exact hv e.1 List.mem_cons_self
      rw [List.map_cons, List.sum_cons, inner_add_right, real_inner_smul_right, he, mul_zero,
        zero_add]
      exact ih fun x hx => hv x (List.mem_cons_of_mem _ hx)
  rw [examplesStep, inner_sub_right, real_inner_smul_right, hsum, mul_zero, sub_zero]

theorem norm_sq_sum_le {c : ℝ} (hc : ∀ x ∈ xs, ‖x‖^2 ≤ c) (v : E) :
    ‖(xs.map fun x => inner ℝ x v • x).sum‖^2 ≤
      xs.length*(c*(xs.map fun x => inner ℝ x v^2).sum) := by
  rw [← Fin.sum_univ_fun_getElem, ← Fin.sum_univ_fun_getElem]
  have hsquares : (∑ i : Fin xs.length, ‖inner ℝ xs[i] v • xs[i]‖)^2 ≤
      xs.length*∑ i : Fin xs.length, ‖inner ℝ xs[i] v • xs[i]‖^2 := by
    have h := sq_sum_le_card_mul_sum_sq (s := Finset.univ)
      (f := fun i : Fin xs.length => ‖inner ℝ xs[i] v • xs[i]‖)
    rwa [Finset.card_univ, Fintype.card_fin] at h
  calc ‖∑ i : Fin xs.length, inner ℝ xs[i] v • xs[i]‖^2
      ≤ (∑ i : Fin xs.length, ‖inner ℝ xs[i] v • xs[i]‖)^2 :=
        pow_le_pow_left₀ (norm_nonneg _) (norm_sum_le _ _) 2
    _ ≤ xs.length*∑ i : Fin xs.length, ‖inner ℝ xs[i] v • xs[i]‖^2 := hsquares
    _ ≤ xs.length*(c*∑ i : Fin xs.length, inner ℝ xs[i] v^2) := by
        refine mul_le_mul_of_nonneg_left ?_ (Nat.cast_nonneg _)
        rw [Finset.mul_sum]
        refine Finset.sum_le_sum fun i _ => ?_
        rw [norm_smul, mul_pow, Real.norm_eq_abs, sq_abs, mul_comm]
        exact mul_le_mul_of_nonneg_right (hc _ (List.getElem_mem _)) (sq_nonneg _)

theorem norm_sq_slope_le {c : ℝ} (hc : ∀ x ∈ xs, ‖x‖^2 ≤ c) (v : E) :
    ‖slope rate xs v‖^2 ≤
      ‖v‖^2-rate*(2-rate*(xs.length*c))*(xs.map fun x => inner ℝ x v^2).sum := by
  have hinner : inner ℝ v (xs.map fun x => inner ℝ x v • x).sum =
      (xs.map fun x => inner ℝ x v^2).sum := by
    clear hc
    induction xs with
    | nil => simp
    | cons x xs ih =>
      rw [List.map_cons, List.sum_cons, List.map_cons, List.sum_cons, inner_add_right, ih,
        real_inner_smul_right, real_inner_comm, sq]
  have hsum := mul_le_mul_of_nonneg_left (norm_sq_sum_le hc v) (sq_nonneg rate)
  rw [slope_apply, norm_sub_sq_real, real_inner_smul_right, hinner, norm_smul, mul_pow,
    Real.norm_eq_abs, sq_abs]
  linarith

/-- At a rate that is small for the examples, a step damps whatever they say something about. -/
theorem damps_slope {c : ℝ} (hrate : 0 < rate) (hc : ∀ x ∈ xs, ‖x‖^2 ≤ c)
    (hsmall : rate*(xs.length*c) < 2) : Damps (slope rate xs) (Unseen xs) := by
  have hnonneg (v : E) : ∀ a ∈ xs.map fun x => inner ℝ x v^2, 0 ≤ a := by
    intro a ha
    obtain ⟨x,-,rfl⟩ := List.mem_map.mp ha
    exact sq_nonneg _
  have hfactor : 0 < rate*(2-rate*(xs.length*c)) := mul_pos hrate (sub_pos.mpr hsmall)
  refine ⟨fun v => ?_,fun v hv => ?_⟩
  · refine le_of_sq_le_sq ((norm_sq_slope_le hc v).trans (sub_le_self _ ?_)) (norm_nonneg v)
    exact mul_nonneg hfactor.le (List.sum_nonneg (hnonneg v))
  · simp only [Unseen, Set.mem_ofPred_eq, not_forall] at hv
    obtain ⟨x,hx,hv⟩ := hv
    have hsum : 0 < (xs.map fun x => inner ℝ x v^2).sum :=
      (sq_pos_of_ne_zero hv).trans_le
        (List.single_le_sum (hnonneg v) _ (List.mem_map_of_mem hx))
    refine lt_of_pow_lt_pow_left₀ 2 (norm_nonneg v) ((norm_sq_slope_le hc v).trans_lt ?_)
    exact sub_lt_self _ (mul_pos hfactor hsum)

end Examples

end GradientDescent
