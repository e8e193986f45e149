import Mathlib.Analysis.InnerProductSpace.PiL2
import ConfluxFL.Core.ExactBatch
import ConfluxFL.Core.Temporal
import ConfluxFL.Core.Trusted

/-! Weights as points of Euclidean space. In exact arithmetic the distances, norms and cosines
the methods compute are the ones there. -/
namespace ConfluxFL

/-- A list as a vector with the Euclidean norm. -/
noncomputable def euclid (n : ℕ) (v : List ℝ) : EuclideanSpace ℝ (Fin n) :=
  WithLp.toLp _ fun i => v.getD i 0

@[simp] theorem euclid_apply (n : ℕ) (v : List ℝ) (i : Fin n) : euclid n v i = v.getD i 0 := rfl

theorem euclid_zipWith (n : ℕ) {a : List ℝ} {β : Type} {b : List β} (g : β → ℝ) (k : ℝ)
    (ha : a.length = n) (hb : b.length = n) :
    euclid n (a.zipWith (fun x y => x+k*g y) b) = euclid n a+k • euclid n (b.map g) := by
  ext i
  simp [euclid, List.getD_eq_getElem?_getD, ha, hb]

theorem euclid_zeros (n : ℕ) : euclid n (zeros n) = 0 := by
  ext i
  simp [euclid, zeros, List.getD_eq_getElem?_getD]

/-- Lists of one length are told apart by their vectors. -/
theorem eq_of_euclid_eq {n : ℕ} {a b : List ℝ} (ha : a.length = n) (hb : b.length = n)
    (h : euclid n a = euclid n b) : a = b := by
  refine List.ext_getElem (ha.trans hb.symm) fun i hi hi' => ?_
  have hentry := congrArg (fun x : EuclideanSpace ℝ (Fin n) => x ⟨i,ha ▸ hi⟩) h
  simpa [euclid, List.getD_eq_getElem?_getD, hi, hi'] using hentry

section Pairs
variable {n : ℕ} {a b : List ℝ}

theorem euclid_sub (ha : a.length = n) (hb : b.length = n) :
    euclid n (a.zipWith (· - ·) b) = euclid n a-euclid n b := by
  ext i
  exact Coordinates.getD_zipWith 0 0 0 (ha.symm ▸ i.2) (hb.symm ▸ i.2)

theorem sum_zipWith (f : ℝ → ℝ → ℝ) (ha : a.length = n) (hb : b.length = n) :
    (a.zipWith f b).sum = ∑ i : Fin n, f (euclid n a i) (euclid n b i) := by
  rw [← List.sum_ofFn]
  refine congrArg List.sum (List.ext_getElem (by simp [ha, hb]) fun i hi hi' => ?_)
  rw [List.length_zipWith] at hi
  simp [List.getD_eq_getElem?_getD, show i < a.length by omega, show i < b.length by omega]

theorem wideDistance_real (ha : a.length = n) (hb : b.length = n) :
    (Temporal.wideDistance a b : ℝ) = ‖euclid n a-euclid n b‖ := by
  unfold Temporal.wideDistance
  rw [Floating.sum_real, EuclideanSpace.norm_eq]
  refine congrArg Real.sqrt ((sum_zipWith _ ha hb).trans (Finset.sum_congr rfl fun i _ => ?_))
  rw [Real.norm_eq_abs, sq_abs, sq]
  rfl

theorem wideDot_real (ha : a.length = n) (hb : b.length = n) :
    (Trusted.wideDot a b : ℝ) = inner ℝ (euclid n a) (euclid n b) := by
  unfold Trusted.wideDot
  rw [Floating.sum_real, PiLp.inner_apply]
  refine (sum_zipWith _ ha hb).trans (Finset.sum_congr rfl fun i _ => ?_)
  exact mul_comm _ _

theorem wideNorm_real (ha : a.length = n) : (Trusted.wideNorm a : ℝ) = ‖euclid n a‖ := by
  unfold Trusted.wideNorm
  rw [wideDot_real ha ha, real_inner_self_eq_norm_sq]
  exact Real.sqrt_sq (norm_nonneg _)

/-- The cosine of nothing is zero, as a quotient by zero is. -/
theorem wideCosine_real (ha : a.length = n) (hb : b.length = n) : (Trusted.wideCosine a b : ℝ) =
    inner ℝ (euclid n a) (euclid n b)/(‖euclid n a‖*‖euclid n b‖) := by
  unfold Trusted.wideCosine
  rw [wideNorm_real ha, wideNorm_real hb, wideDot_real ha hb]
  split
  · rename_i hzero
    rw [Bool.or_eq_true] at hzero
    rcases hzero with hzero | hzero
    · rw [show ‖euclid n a‖ = 0 from of_decide_eq_true hzero, zero_mul, div_zero]
    · rw [show ‖euclid n b‖ = 0 from of_decide_eq_true hzero, mul_zero, div_zero]
  · rfl

end Pairs

section Vectors
variable {n : ℕ}

/-- A vector no longer than what bounds its coordinates. -/
theorem norm_le_of_coordinates {x y : EuclideanSpace ℝ (Fin n)} (h : ∀ i, |x i| ≤ y i) :
    ‖x‖ ≤ ‖y‖ := by
  rw [EuclideanSpace.norm_eq, EuclideanSpace.norm_eq]
  refine Real.sqrt_le_sqrt (Finset.sum_le_sum fun i _ => ?_)
  exact pow_le_pow_left₀ (norm_nonneg _) ((h i).trans (le_abs_self _)) 2

/-- A vector's sizes, coordinate by coordinate. -/
noncomputable def sizes (x : EuclideanSpace ℝ (Fin n)) : EuclideanSpace ℝ (Fin n) :=
  WithLp.toLp _ fun i => |x i|

@[simp] theorem sizes_apply (x : EuclideanSpace ℝ (Fin n)) (i : Fin n) : sizes x i = |x i| := rfl

@[simp] theorem norm_sizes (x : EuclideanSpace ℝ (Fin n)) : ‖sizes x‖ = ‖x‖ := by
  simp [EuclideanSpace.norm_eq]

theorem norm_sum_map_le {α E : Type*} [SeminormedAddCommGroup E] (f : α → E) (l : List α) :
    ‖(l.map f).sum‖ ≤ (l.map fun a => ‖f a‖).sum := by
  induction l with
  | nil => simp
  | cons a l ih =>
    rw [List.map_cons, List.sum_cons, List.map_cons, List.sum_cons]
    exact (norm_add_le _ _).trans (add_le_add_right ih _)

theorem abs_apply_le_norm (x : EuclideanSpace ℝ (Fin n)) (i : Fin n) : |x i| ≤ ‖x‖ :=
  PiLp.norm_apply_le x i

theorem sum_map_apply {α : Type*} (f : α → EuclideanSpace ℝ (Fin n)) (l : List α) (i : Fin n) :
    (l.map f).sum i = (l.map fun a => f a i).sum := by
  induction l with
  | nil => rfl
  | cons a l ih => rw [List.map_cons, List.sum_cons, List.map_cons, List.sum_cons, ← ih]; rfl

/-- A vector whose coordinates are bounded by those of a weighted sum and a constant. -/
theorem norm_le_of_terms {b x : EuclideanSpace ℝ (Fin n)} {l : List (EuclideanSpace ℝ (Fin n))}
    {p k c : ℝ} (hp : 0 ≤ p) (hk : 0 ≤ k) (hc : 0 ≤ c)
    (h : ∀ i, |x i| ≤ k*(|b i|+p*(l.map fun y => |y i|).sum)+c) :
    ‖x‖ ≤ k*(‖b‖+p*(l.map fun y => ‖y‖).sum)+c*√(n : ℝ) := by
  let ones : EuclideanSpace ℝ (Fin n) := WithLp.toLp 2 fun _ => 1
  have hones : ‖ones‖ = √(n : ℝ) := by simp [ones, EuclideanSpace.norm_eq]
  let bound := k • (sizes b+p • (l.map sizes).sum)+c • ones
  have hbound (i : Fin n) : bound i = k*(|b i|+p*(l.map fun y => |y i|).sum)+c := by
    have hsum := sum_map_apply sizes l i
    simp only [sizes_apply] at hsum
    rw [← hsum]
    exact congrArg (_+·) (mul_one c)
  have hsum : ‖(l.map sizes).sum‖ ≤ (l.map fun y => ‖y‖).sum := by
    simpa only [norm_sizes] using norm_sum_map_le sizes l
  calc ‖x‖ ≤ ‖bound‖ := norm_le_of_coordinates fun i => (h i).trans_eq (hbound i).symm
    _ ≤ ‖k • (sizes b+p • (l.map sizes).sum)‖+‖c • ones‖ := norm_add_le _ _
    _ ≤ k*(‖b‖+p*(l.map fun y => ‖y‖).sum)+c*√(n : ℝ) := by
      rw [norm_smul, norm_smul, Real.norm_of_nonneg hk, Real.norm_of_nonneg hc, hones]
      gcongr
      refine (norm_add_le _ _).trans (add_le_add (norm_sizes b).le ?_)
      rw [norm_smul, Real.norm_of_nonneg hp]
      exact mul_le_mul_of_nonneg_left hsum hp

theorem euclid_map_toReal_apply (v : List F32) (i : Fin n) :
    euclid n (v.map F32.toReal) i = (v.getD i F32.zero).toReal := by
  rw [euclid_apply]
  exact List.getD_map v F32.zero F32.toReal

end Vectors
end ConfluxFL
