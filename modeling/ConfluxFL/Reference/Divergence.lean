import Mathlib.Algebra.Order.Star.Real
import Mathlib.Analysis.Matrix.PosDef
import Mathlib.Analysis.Matrix.Spectrum
import ConfluxFL.Reference.LinearLeastSquares

/-! When a trusted reference is one. The descent multiplies the error along each eigenvector of the
examples' Gram matrix by a factor of its own at every step; nothing stops it where these are
larger than one. -/
namespace ConfluxFL.Reference
open GradientDescent hiding residual
open LinearLeastSquares Matrix

section Data
variable (dataset : List (List ℝ × ℝ)) (dim : ℕ)

/-- One row of features an example. -/
def features : Matrix (Fin dataset.length) (Fin dim) ℝ :=
  Matrix.of fun i k => (dataset.get i).1.getD k 0

noncomputable def target : EuclideanSpace ℝ (Fin dataset.length) :=
  WithLp.toLp _ fun i => (dataset.get i).2

/-- The predictions on all examples, as a function of the weights. -/
noncomputable def design :
    EuclideanSpace ℝ (Fin dim) →ₗ[ℝ] EuclideanSpace ℝ (Fin dataset.length) :=
  Matrix.toEuclideanLin (features dataset dim)

/-- The products of the examples' features with each other. -/
noncomputable def gram : Matrix (Fin dataset.length) (Fin dataset.length) ℝ :=
  features dataset dim*(features dataset dim)ᴴ

theorem isHermitian_gram : (gram dataset dim).IsHermitian :=
  Matrix.isHermitian_mul_conjTranspose_self _

noncomputable def curvature (i : Fin dataset.length) : ℝ := (isHermitian_gram dataset dim).eigenvalues i

noncomputable def mode : OrthonormalBasis (Fin dataset.length) ℝ
    (EuclideanSpace ℝ (Fin dataset.length)) :=
  (isHermitian_gram dataset dim).eigenvectorBasis

variable {dataset dim}

theorem adjoint_design_apply (r : EuclideanSpace ℝ (Fin dataset.length)) (k : Fin dim) :
    (design dataset dim).adjoint r k = ∑ i, (dataset.get i).1.getD k 0*r i := by
  rw [design, ← Matrix.toEuclideanLin_conjTranspose_eq_adjoint]
  rfl

theorem eigenbasis_mode : Eigenbasis (design dataset dim) (mode dataset dim)
    (curvature dataset dim) := by
  intro i
  have hmode := (isHermitian_gram dataset dim).mulVec_eigenvectorBasis i
  have hmul : gram dataset dim *ᵥ (mode dataset dim i) =
      features dataset dim *ᵥ ((features dataset dim)ᴴ *ᵥ (mode dataset dim i)) :=
    (Matrix.mulVec_mulVec _ _ _).symm
  rw [design, ← Matrix.toEuclideanLin_conjTranspose_eq_adjoint]
  ext j
  exact congrFun (hmul.symm.trans hmode) j

end Data

section Descent
variable {dataset : List (List ℝ × ℝ)} {dim : ℕ} {rate : ℝ} {steps : ℕ} {w : List ℝ}

/-- How far the predictions are off, example by example. -/
noncomputable def errors (dataset : List (List ℝ × ℝ)) (dim : ℕ) (w : List ℝ) :
    EuclideanSpace ℝ (Fin dataset.length) :=
  GradientDescent.residual (design dataset dim) (target dataset) (euclid dim w)

@[simp] theorem stored_widen (v : List ℝ) : (stored v).map Precision.widen = v := by
  rw [stored, List.map_map]
  exact (List.map_congr_left fun x _ => EReal.toReal_coe x).trans (List.map_id v)

@[simp] theorem length_stored (v : List ℝ) : (stored v).length = v.length := List.length_map _

theorem residual_real {e : List ℝ × ℝ} (he : e.1.length = dim) (hw : w.length = dim) :
    residual (stored e.1,(e.2 : EReal)) w = ∑ k : Fin dim, e.1.getD k 0*w.getD k 0-e.2 := by
  unfold LinearLeastSquares.residual
  rw [Floating.sum_real, ← List.zipWith_map_left, stored_widen, sum_zipWith _ he hw]
  rfl

theorem errors_apply (hfits : ∀ e ∈ dataset, e.1.length = dim) (hw : w.length = dim)
    (i : Fin dataset.length) : errors dataset dim w i =
      residual (stored (dataset.get i).1,((dataset.get i).2 : EReal)) w := by
  rw [residual_real (hfits _ (List.get_mem _ _)) hw]
  rfl

/-- The gradient adds up over the examples. -/
theorem foldl_gradient {es : List (List ℝ × ℝ)} (hes : ∀ e ∈ es, e.1.length = dim) (n : ℝ)
    {g : List ℝ} (hg : g.length = dim) :
    ((es.map fun e => (stored e.1,(e.2 : EReal))).foldl (fun g e => g.zipWith (fun g x =>
      g+(2.0 : ℝ)*residual e w*Precision.widen x/n) e.1) g).length = dim ∧
    euclid dim ((es.map fun e => (stored e.1,(e.2 : EReal))).foldl (fun g e => g.zipWith
      (fun g x => g+(2.0 : ℝ)*residual e w*Precision.widen x/n) e.1) g) = euclid dim g+
        (es.map fun e => (2/n*residual (stored e.1,(e.2 : EReal)) w) • euclid dim e.1).sum := by
  induction es generalizing g with
  | nil => simp [hg]
  | cons e es ih =>
    have he := hes e List.mem_cons_self
    have hstep : g.zipWith (fun g x => g+(2.0 : ℝ)*residual (stored e.1,(e.2 : EReal)) w*
        Precision.widen x/n) (stored e.1) = g.zipWith (fun g x =>
          g+(2 : ℝ)/n*residual (stored e.1,(e.2 : EReal)) w*Precision.widen x) (stored e.1) := by
      refine congrArg (fun f => List.zipWith f g (stored e.1)) (funext fun a => funext fun x => ?_)
      norm_num
      ring
    have hlength : (stored e.1).length = dim := (length_stored e.1).trans he
    rw [List.map_cons, List.foldl_cons, List.map_cons, List.sum_cons, hstep]
    have hrest := ih (fun e' he' => hes e' (List.mem_cons_of_mem e he'))
      (g := g.zipWith (fun g x => g+(2 : ℝ)/n*residual (stored e.1,(e.2 : EReal)) w*Precision.widen x)
        (stored e.1)) (by rw [List.length_zipWith, hg, hlength, min_self])
    refine ⟨hrest.1,hrest.2.trans ?_⟩
    rw [euclid_zipWith dim Precision.widen _ hg hlength, stored_widen, add_assoc]

variable (hfits : ∀ e ∈ dataset, e.1.length = dim) (hw : w.length = dim)

include hfits hw

theorem gradient_real (rate : ℝ) (steps : ℕ) : ((exactModel dataset rate steps).gradient w).length = dim ∧
    euclid dim ((exactModel dataset rate steps).gradient w) =
      (2/(dataset.length : ℝ)) • (design dataset dim).adjoint (errors dataset dim w) := by
  have hfold := foldl_gradient (w := w) hfits dataset.length (length_zeros dim)
  have hgradient : (exactModel dataset rate steps).gradient w =
      (dataset.map fun e => (stored e.1,(e.2 : EReal))).foldl (fun g e => g.zipWith (fun g x =>
        g+(2.0 : ℝ)*residual e w*Precision.widen x/(dataset.length : ℝ)) e.1) (zeros dim) := by
    unfold LinearLeastSquares.gradient exactModel
    rw [List.length_map, hw]
    rfl
  rw [hgradient]
  refine ⟨hfold.1,hfold.2.trans ?_⟩
  rw [euclid_zeros, zero_add, ← Fin.sum_univ_fun_getElem]
  ext k
  rw [PiLp.smul_apply, adjoint_design_apply, smul_eq_mul, Finset.mul_sum, WithLp.ofLp_sum,
    Finset.sum_apply]
  refine Finset.sum_congr rfl fun i _ => ?_
  rw [errors_apply hfits hw, PiLp.smul_apply, euclid_apply, smul_eq_mul]
  simp only [List.get_eq_getElem]
  ring

/-- One step of the loop is one step of the descent. -/
theorem gradientStep_real (rate : ℝ) (steps : ℕ) : ((exactModel dataset rate steps).gradientStep w).length = dim ∧
    euclid dim ((exactModel dataset rate steps).gradientStep w) =
      step (design dataset dim) (target dataset) (2*rate/dataset.length) (euclid dim w) := by
  obtain ⟨hlength,hgradient⟩ := gradient_real hfits hw rate steps
  have hzip : (exactModel dataset rate steps).gradientStep w =
      w.zipWith (fun x g => x+(-rate)*id g) ((exactModel dataset rate steps).gradient w) := by
    unfold gradientStep
    refine congrArg (fun f => List.zipWith f w _) (funext fun x => funext fun g => ?_)
    rw [neg_mul, ← sub_eq_add_neg]
    rfl
  refine ⟨by rw [hzip, List.length_zipWith, hw, hlength, min_self],?_⟩
  rw [hzip, euclid_zipWith dim id _ hw hlength, List.map_id, hgradient, step, smul_smul, neg_mul,
    neg_smul, ← sub_eq_add_neg, mul_div_assoc', mul_comm rate 2]
  rfl

/-- In exact arithmetic every step is taken. -/
theorem descend_real (rate : ℝ) (steps k : ℕ) : ∃ w',
    (exactModel dataset rate steps).descend k w = some w' ∧ w'.length = dim ∧ euclid dim w' =
      (step (design dataset dim) (target dataset) (2*rate/dataset.length))^[k] (euclid dim w) := by
  induction k generalizing w with
  | zero => exact ⟨w,rfl,hw,rfl⟩
  | succ k ih =>
    obtain ⟨hlength,hstep⟩ := gradientStep_real hfits hw rate steps
    obtain ⟨w',hw',hlength',heuclid⟩ := ih hlength
    refine ⟨w',?_,hlength',by rw [heuclid, hstep, Function.iterate_succ_apply]⟩
    rw [descend, if_neg (by simp [Floating.isFinite])]
    exact hw'

theorem loss_real (hne : dataset ≠ []) : (exactModel dataset rate steps).loss (stored w) =
    ‖errors dataset dim w‖^2/dataset.length := by
  have hfold (es : List (List EReal × EReal)) (total : ℝ) : es.foldl (fun total e =>
      total+residual e w*residual e w) total = total+(es.map fun e => residual e w^2).sum := by
    induction es generalizing total with
    | nil => simp
    | cons e es ih =>
      rw [List.foldl_cons, ih, List.map_cons, List.sum_cons]
      ring
  have hempty : (exactModel dataset rate steps).dataset.isEmpty = false := by
    simpa [exactModel] using hne
  unfold loss
  rw [hempty, stored_widen, if_neg Bool.false_ne_true]
  refine congrArg₂ (· / ·) ?_ (congrArg Nat.cast (List.length_map _))
  rw [EuclideanSpace.norm_sq_eq]
  refine (hfold _ 0).trans ?_
  rw [zero_add, exactModel, List.map_map, ← Fin.sum_univ_fun_getElem]
  refine Finset.sum_congr rfl fun i _ => ?_
  rw [errors_apply hfits hw, Real.norm_eq_abs, sq_abs]
  rfl

end Descent

section Soundness
variable (dataset : List (List ℝ × ℝ)) (rate : ℝ) (steps : ℕ) (globalWeights : List ℝ)

/-- What a step multiplies the error along a mode by. -/
noncomputable def factor (dim : ℕ) (i : Fin dataset.length) : ℝ :=
  1-(rate+rate)/dataset.length*curvature dataset dim i

/-- The error along a mode at the start. -/
noncomputable def startError (i : Fin dataset.length) : ℝ :=
  ∑ j, errors dataset globalWeights.length globalWeights j*mode dataset globalWeights.length i j

/-- Where the descent takes a weight: the errors along the modes, each summed over its powers. -/
noncomputable def endpoint (k : Fin globalWeights.length) : ℝ :=
  globalWeights.getD k 0-(rate+rate)/dataset.length*∑ i,
    (∑ t ∈ Finset.range steps, factor dataset rate globalWeights.length i^t)*
      startError dataset globalWeights i*
        ∑ j, (dataset.get j).1.getD k 0*mode dataset globalWeights.length i j

/-- The modes whose errors grow do not outweigh those whose errors shrink, and no weight ends
beyond the finite range. -/
structure Tame : Prop where
  damped : ∑ i, (factor dataset rate globalWeights.length i^(2*steps)-1)*
    startError dataset globalWeights i^2 ≤ 0
  inRange : ∀ k, |endpoint dataset rate steps globalWeights k| < overflowBound

variable {dataset rate steps globalWeights}

theorem factor_eq (dim : ℕ) (i : Fin dataset.length) :
    factor dataset rate dim i = 1-2*rate/dataset.length*curvature dataset dim i := by
  rw [factor, two_mul]

theorem startError_eq (i : Fin dataset.length) : startError dataset globalWeights i =
    inner ℝ (mode dataset globalWeights.length i)
      (errors dataset globalWeights.length globalWeights) := by
  rw [startError, PiLp.inner_apply]
  rfl

theorem trainReference_unfit (h : dataset = [] ∨ ∃ e ∈ dataset, e.1.length ≠ globalWeights.length)
    (rate : ℝ) (steps : ℕ) : (exactModel dataset rate steps).trainReference (stored globalWeights) =
      stored globalWeights := by
  refine if_pos ?_
  rcases h with rfl | ⟨e,he,hlength⟩
  · rfl
  · rw [Bool.or_eq_true]
    right
    simp only [fits, exactModel, List.all_map, Bool.not_eq_true', List.all_eq_false]
    exact ⟨e,he,by simpa using hlength⟩

theorem sound_of_unfit (h : dataset = [] ∨ ∃ e ∈ dataset, e.1.length ≠ globalWeights.length) :
    Sound (exactModel dataset rate steps) (stored globalWeights) := by
  have hsame := trainReference_unfit h rate steps
  refine ⟨by rw [hsame],fun x hx => ?_,by rw [hsame]⟩
  rw [hsame] at hx
  obtain ⟨v,-,rfl⟩ := List.mem_map.mp hx
  exact ⟨EReal.coe_ne_top v,EReal.coe_ne_bot v⟩

theorem trainReference_fit (hne : dataset ≠ [])
    (hfits : ∀ e ∈ dataset, e.1.length = globalWeights.length) (rate : ℝ) (steps : ℕ) : ∃ w,
    (exactModel dataset rate steps).trainReference (stored globalWeights) =
      w.map Precision.narrow ∧ w.length = globalWeights.length ∧
    euclid globalWeights.length w = (step (design dataset globalWeights.length) (target dataset)
      (2*rate/dataset.length))^[steps] (euclid globalWeights.length globalWeights) := by
  obtain ⟨w,hw,hlength,heuclid⟩ := descend_real hfits rfl rate steps steps
  refine ⟨w,?_,hlength,heuclid⟩
  have hempty : (exactModel dataset rate steps).dataset.isEmpty = false := by
    simpa [exactModel] using hne
  have hfit : (exactModel dataset rate steps).fits (stored globalWeights).length = true := by
    simp only [fits, exactModel, List.all_map, List.all_eq_true]
    exact fun e he => by simpa using hfits e he
  unfold trainReference
  rw [hempty, hfit, stored_widen]
  have hsteps : (exactModel dataset rate steps).steps = steps := rfl
  rw [hsteps, hw]
  rfl

theorem getD_eq_endpoint {w : List ℝ} (heuclid : euclid globalWeights.length w =
      (step (design dataset globalWeights.length) (target dataset)
        (2*rate/dataset.length))^[steps] (euclid globalWeights.length globalWeights))
    (k : Fin globalWeights.length) : w.getD k 0 = endpoint dataset rate steps globalWeights k := by
  have hk := congrArg (fun x : EuclideanSpace ℝ (Fin globalWeights.length) => x k) heuclid
  dsimp only at hk
  rw [euclid_apply, iterate_eq eigenbasis_mode] at hk
  refine hk.trans ?_
  rw [PiLp.sub_apply, PiLp.smul_apply, WithLp.ofLp_sum, Finset.sum_apply, endpoint]
  simp only [PiLp.smul_apply, adjoint_design_apply, factor_eq, startError_eq, two_mul]
  rfl

/-- The loss goes down exactly when the growing modes do not outweigh the others. -/
theorem errors_le_iff {w : List ℝ} (heuclid : euclid globalWeights.length w =
      (step (design dataset globalWeights.length) (target dataset)
        (2*rate/dataset.length))^[steps] (euclid globalWeights.length globalWeights)) :
    ‖errors dataset globalWeights.length w‖^2 ≤
        ‖errors dataset globalWeights.length globalWeights‖^2 ↔
      ∑ i, (factor dataset rate globalWeights.length i^(2*steps)-1)*
        startError dataset globalWeights i^2 ≤ 0 := by
  have hsum := norm_sq_residual_iterate (target dataset) (2*rate/dataset.length) eigenbasis_mode
    (euclid globalWeights.length globalWeights) steps
  simp only [factor_eq, startError_eq]
  rw [← sub_nonpos, errors, heuclid]
  exact iff_of_eq (congrArg (· ≤ 0) hsum)

theorem finite_narrow_iff {w : List ℝ} (hlength : w.length = globalWeights.length)
    (hend : ∀ k : Fin globalWeights.length,
      w.getD k 0 = endpoint dataset rate steps globalWeights k) :
    (∀ x ∈ w.map (Precision.narrow : ℝ → EReal), x ≠ ⊤ ∧ x ≠ ⊥) ↔
      ∀ k, |endpoint dataset rate steps globalWeights k| < overflowBound := by
  rw [List.forall_mem_map]
  constructor
  · intro h k
    rw [← hend k, List.getD_eq_getElem _ _ (k.2.trans_eq hlength.symm)]
    exact narrow_finite_iff.mp (h _ (List.getElem_mem _))
  · intro h x hx
    obtain ⟨i,hi,rfl⟩ := List.mem_iff_getElem.mp hx
    have hk := hend ⟨i,hi.trans_eq hlength⟩
    rw [List.getD_eq_getElem _ _ hi] at hk
    rw [narrow_finite_iff, hk]
    exact h _

theorem sound_iff_tame (hne : dataset ≠ [])
    (hfits : ∀ e ∈ dataset, e.1.length = globalWeights.length) :
    Sound (exactModel dataset rate steps) (stored globalWeights) ↔
      Tame dataset rate steps globalWeights := by
  obtain ⟨w,hw,hlength,heuclid⟩ := trainReference_fit hne hfits rate steps
  have hend := getD_eq_endpoint heuclid
  have hfinite := finite_narrow_iff hlength hend
  have hpos : (0 : ℝ) < dataset.length := Nat.cast_pos.mpr (List.length_pos_of_ne_nil hne)
  have hloss (hrange : ∀ k, |endpoint dataset rate steps globalWeights k| < overflowBound) :
      (exactModel dataset rate steps).loss (w.map Precision.narrow) ≤
        (exactModel dataset rate steps).loss (stored globalWeights) ↔
      ∑ i, (factor dataset rate globalWeights.length i^(2*steps)-1)*
        startError dataset globalWeights i^2 ≤ 0 := by
    have hstored : w.map Precision.narrow = stored w := List.map_congr_left fun x hx =>
      narrow_of_lt (narrow_finite_iff.mp (hfinite.mpr hrange _ (List.mem_map_of_mem hx)))
    rw [hstored, loss_real hfits hlength hne, loss_real hfits rfl hne,
      div_le_div_iff_of_pos_right hpos, errors_le_iff heuclid]
  constructor
  · intro h
    have hrange := hfinite.mp (hw ▸ h.finite)
    exact ⟨(hloss hrange).mp (hw ▸ h.loss_le),hrange⟩
  · intro h
    refine ⟨?_,?_,?_⟩
    · rw [hw, List.length_map, hlength, length_stored]
    · rw [hw]
      exact hfinite.mpr h.inRange
    · rw [hw]
      exact (hloss h.inRange).mpr h.damped

/-- The trusted reference is one exactly when there is nothing to train on, or the rate and the
number of steps are tame for the data and the weights. -/
theorem sound_iff (dataset : List (List ℝ × ℝ)) (rate : ℝ) (steps : ℕ) (globalWeights : List ℝ) :
    Sound (exactModel dataset rate steps) (stored globalWeights) ↔
      dataset = [] ∨ (∃ e ∈ dataset, e.1.length ≠ globalWeights.length) ∨
        Tame dataset rate steps globalWeights := by
  by_cases hunfit : dataset = [] ∨ ∃ e ∈ dataset, e.1.length ≠ globalWeights.length
  · refine iff_of_true (sound_of_unfit hunfit) ?_
    exact hunfit.imp_right .inl
  · obtain ⟨hne,hall⟩ := not_or.mp hunfit
    have hfits : ∀ e ∈ dataset, e.1.length = globalWeights.length := fun e he =>
      not_not.mp fun hlength => hall ⟨e,he,hlength⟩
    rw [sound_iff_tame hne hfits, or_iff_right hne, or_iff_right hall]

/-- A rate below the number of examples over the greatest curvature is safe for any number of
steps. -/
theorem damped_of_rate_le (hrate : 0 ≤ rate)
    (h : ∀ i, rate*curvature dataset globalWeights.length i ≤ dataset.length) :
    ∑ i, (factor dataset rate globalWeights.length i^(2*steps)-1)*
      startError dataset globalWeights i^2 ≤ 0 := by
  refine Finset.sum_nonpos fun i _ => mul_nonpos_of_nonpos_of_nonneg ?_ (sq_nonneg _)
  have hn : (0 : ℝ) < dataset.length := Nat.cast_pos.mpr i.pos
  have hcurvature : 0 ≤ curvature dataset globalWeights.length i :=
    (Matrix.posSemidef_self_mul_conjTranspose (features dataset globalWeights.length)).eigenvalues_nonneg i
  have hfactor : 2*rate/dataset.length*curvature dataset globalWeights.length i =
      2*(rate*curvature dataset globalWeights.length i/dataset.length) := by ring
  have hle := (div_le_one hn).mpr (h i)
  have hnonneg : 0 ≤ rate*curvature dataset globalWeights.length i/dataset.length := by positivity
  have habs : |factor dataset rate globalWeights.length i| ≤ 1 := by
    rw [factor_eq, hfactor, abs_le]
    constructor <;> linarith
  rw [pow_mul, sub_nonpos]
  exact pow_le_one₀ (sq_nonneg _) ((sq_le_one_iff_abs_le_one _).mpr habs)

/-- One example that asks for zero, at the rate two: the first step overshoots to three times the
distance on the other side, and nothing notices. -/
theorem not_sound_overshoot : ¬Sound (exactModel [([1],0)] 2 1) (stored [1]) := by
  have hresidual (w : ℝ) : residual (([1],0) : List EReal × EReal) [w] = w := by
    refine (residual_real (e := ([1],0)) (w := [w]) (List.length_singleton) rfl).trans ?_
    simp
  have hloss (w : ℝ) : (exactModel [([1],0)] 2 1).loss (stored [w]) = w*w := by
    unfold loss
    rw [stored_widen]
    simp [exactModel, stored, hresidual]
  have hstep : (exactModel [([1],0)] 2 1).gradientStep [1] = [-3] := by
    unfold gradientStep LinearLeastSquares.gradient
    simp [exactModel, hresidual, zeros, stored, Precision.widen]
    norm_num
  have hdescend : (exactModel [([1],0)] 2 1).descend 1 [1] = some [-3] := by
    rw [descend, hstep]
    rfl
  have htrained : (exactModel [([1],0)] 2 1).trainReference (stored [1]) = stored [-3] := by
    have hnarrow : (Precision.narrow (-3 : ℝ) : EReal) = ((-3 : ℝ) : EReal) :=
      narrow_of_lt (by rw [overflowBound]; norm_num)
    unfold trainReference
    have hdescend' : (exactModel [([1],0)] 2 1).descend (exactModel [([1],0)] 2 1).steps
        ((stored [1]).map Precision.widen) = some [-3] := by
      rw [stored_widen]
      exact hdescend
    rw [hdescend']
    refine (if_neg ?_).trans (congrArg (fun x => [x]) hnarrow)
    simp [fits, exactModel, stored]
  intro h
  have hle := h.loss_le
  rw [htrained, hloss, hloss] at hle
  norm_num at hle

end Soundness
end ConfluxFL.Reference
