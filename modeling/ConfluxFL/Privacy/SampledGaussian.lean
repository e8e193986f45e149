import ConfluxFL.Lib.BinomialMean
import ConfluxFL.Privacy.Epsilon

/-! The sampled Gaussian bound against its published form. The code sums in log space, with the
binomial coefficients built up term by term and the largest term factored out. -/
namespace ConfluxFL
open Binomial

noncomputable section

/-- The sum the published bound takes the logarithm of. -/
def publishedMoment (order : ℕ) (sigma q : ℝ) : ℝ :=
  ∑ k ∈ Finset.range (order+1),
    order.choose k*(1-q)^(order-k)*q^k*Real.exp (k*(k-1)/((2 : ℕ)*sigma^2))

def publishedRdp (order : ℕ) (sigma q : ℝ) : ℝ :=
  Real.log (publishedMoment order sigma q)/(order-1)

/-- What the code has before it clamps at zero. -/
def unclampedRdp (alpha sigma q : ℝ) : ℝ :=
  let terms := lnTerms alpha sigma q
  let largest := terms.foldl max (terms.headD 0)
  (largest+Real.log (terms.map fun t => Real.exp (t-largest)).sum)/(alpha-1)

/-- The weight of the term for `k` sampled records. -/
def growth (sigma : ℝ) (k : ℕ) : ℝ := Real.exp (k*(k-1)/((2 : ℕ)*sigma^2))

end

theorem publishedMoment_eq (order : ℕ) (sigma q : ℝ) :
    publishedMoment order sigma q = mean order q (growth sigma) :=
  (mean_eq_sum order q (growth sigma)).symm

theorem growth_zero (sigma : ℝ) : growth sigma 0 = 1 := by
  simp [growth]

theorem growth_monotone (sigma : ℝ) : Monotone (growth sigma) := by
  refine monotone_nat_of_le_succ fun k => Real.exp_le_exp.mpr ?_
  have hk : (0 : ℝ) ≤ k := Nat.cast_nonneg k
  push_cast
  refine div_le_div_of_nonneg_right ?_ (by positivity)
  linarith

theorem growth_gt {sigma : ℝ} (hσ : sigma ≠ 0) {k : ℕ} (hk : 2 ≤ k) :
    growth sigma 0 < growth sigma k := by
  rw [growth_zero]
  refine Real.one_lt_exp_iff.mpr ?_
  have hk' : (2 : ℝ) ≤ k := by exact_mod_cast hk
  have hpos : (0 : ℝ) < k*(k-1) := by nlinarith
  positivity

theorem growth_le {sigma sigma' : ℝ} (hσ : 0 < sigma) (hle : sigma ≤ sigma') (k : ℕ) :
    growth sigma' k ≤ growth sigma k := by
  have hnum : (0 : ℝ) ≤ k*(k-1) := by
    cases k with
    | zero => simp
    | succ k =>
      push_cast
      nlinarith [Nat.cast_nonneg (α := ℝ) k]
  refine Real.exp_le_exp.mpr (div_le_div_of_nonneg_left hnum (by positivity) ?_)
  push_cast
  nlinarith

section LogSpace
variable {n order k : ℕ} {sigma q : ℝ}

theorem lnBinomial_eq (hk : k ≤ order) : lnBinomial order k = Real.log (order.choose k) := by
  induction k with
  | zero => simp [lnBinomial]
  | succ k ih =>
    have hsub : order-(k+1)+1 = order-k := by omega
    have hchoose : ((order.choose (k+1) : ℕ) : ℝ)*((k+1 : ℕ) : ℝ) =
        order.choose k*((order-k : ℕ) : ℝ) := by
      exact_mod_cast Nat.choose_succ_right_eq order k
    have hpos : ((order.choose k : ℕ) : ℝ) ≠ 0 :=
      Nat.cast_ne_zero.mpr (Nat.choose_pos (by omega)).ne'
    have hpos' : ((order.choose (k+1) : ℕ) : ℝ) ≠ 0 :=
      Nat.cast_ne_zero.mpr (Nat.choose_pos hk).ne'
    have hstep : ((order-k : ℕ) : ℝ) ≠ 0 := Nat.cast_ne_zero.mpr (by omega)
    have hlog := congrArg Real.log hchoose
    rw [Real.log_mul hpos' (Nat.cast_ne_zero.mpr (by omega)), Real.log_mul hpos hstep] at hlog
    rw [lnBinomial, ih (by omega), hsub]
    linarith

/-- One term out of log space; an order cut short leaves powers of `1-q` over. -/
theorem exp_term (hk : k ≤ order) (hn : order ≤ n) (hq : 0 < q) (hq' : q < 1) :
    Real.exp (lnBinomial order k+(n-k)*Real.log (1-q)+k*Real.log q+k*(k-1)/(2*sigma*sigma)) =
      (1-q)^(n-order)*(order.choose k*(1-q)^(order-k)*q^k*growth sigma k) := by
  have hchoose : (0 : ℝ) < order.choose k := Nat.cast_pos.mpr (Nat.choose_pos hk)
  have hsplit : n-k = (n-order)+(order-k) := by omega
  have hsub : (n : ℝ)-k = ((n-k : ℕ) : ℝ) := by
    rw [Nat.cast_sub (by omega)]
  rw [lnBinomial_eq hk, Real.exp_add, Real.exp_add, Real.exp_add, Real.exp_log hchoose, hsub,
    Real.exp_nat_mul, Real.exp_nat_mul, Real.exp_log hq, Real.exp_log (by linarith), hsplit,
    pow_add, growth, show 2*sigma*sigma = (2 : ℕ)*sigma^2 by push_cast; ring]
  ring

/-- Factoring a term out of a sum of exponentials changes nothing, whichever it is. -/
theorem log_sum_exp (terms : List ℝ) (h : terms ≠ []) (largest : ℝ) :
    largest+Real.log (terms.map fun t => Real.exp (t-largest)).sum =
      Real.log (terms.map Real.exp).sum := by
  have hfactor : (terms.map fun t => Real.exp (t-largest)).sum =
      Real.exp (-largest)*(terms.map Real.exp).sum := by
    rw [← List.sum_map_mul_left]
    congr 1
    refine List.map_congr_left fun t _ => ?_
    rw [← Real.exp_add]
    ring_nf
  have hpos : 0 < (terms.map Real.exp).sum := by
    refine List.sum_pos _ (fun x hx => ?_) (by simpa using h)
    obtain ⟨t,-,rfl⟩ := List.mem_map.mp hx
    exact Real.exp_pos t
  rw [hfactor, Real.log_mul (Real.exp_pos _).ne' hpos.ne', Real.log_exp]
  ring

theorem sum_exp_lnTerms (hq : 0 < q) (hq' : q < 1) :
    ((lnTerms n sigma q).map Real.exp).sum = (1-q)^(n-min n (2^32-1))*
      mean (min n (2^32-1)) q (growth sigma) := by
  obtain ⟨order,horder⟩ : ∃ order, min n (2^32-1) = order := ⟨_,rfl⟩
  have hn : order ≤ n := horder ▸ min_le_left _ _
  rw [lnTerms, Nat.floor_natCast, horder, List.map_map, mean_eq_sum, Finset.mul_sum,
    ← List.toFinset_range, List.sum_toFinset _ List.nodup_range]
  congr 1
  refine List.map_congr_left fun k hk => ?_
  exact exp_term (by have := List.mem_range.mp hk; omega) hn hq hq'

/-- The value before the clamp, for every integer order. -/
theorem unclampedRdp_eq (hq : 0 < q) (hq' : q < 1) : unclampedRdp n sigma q =
    Real.log ((1-q)^(n-min n (2^32-1))*mean (min n (2^32-1)) q (growth sigma))/(n-1) := by
  have hne : lnTerms n sigma q ≠ [] := by
    simp [lnTerms]
  rw [← sum_exp_lnTerms hq hq', ← log_sum_exp _ hne]
  rfl

theorem sampledGaussianRdp_eq (hn : 2 ≤ n) (hq : 0 < q) (hq' : q < 1) (hσ : 0 < sigma) :
    sampledGaussianRdp n sigma q = some (max (unclampedRdp n sigma q) 0) := by
  have hn' : (2 : ℝ) ≤ n := by exact_mod_cast hn
  rw [sampledGaussianRdp, if_pos ⟨⟨Int.fract_natCast n,hn'⟩,⟨hq,hq'⟩,hσ⟩]
  rfl

theorem publishedRdp_pos (hn : 2 ≤ n) (hq : 0 < q) (hq' : q ≤ 1) (hσ : 0 < sigma) :
    0 < publishedRdp n sigma q := by
  have hn' : (2 : ℝ) ≤ n := by exact_mod_cast hn
  have hmean := lt_mean hq hq' (growth_monotone sigma) (growth_gt hσ.ne' hn)
  rw [growth_zero] at hmean
  rw [publishedRdp, publishedMoment_eq]
  exact div_pos (Real.log_pos hmean) (by linarith)

/-- An order that fits is the published one. -/
theorem unclampedRdp_of_lt (hlt : n < 2^32) (hq : 0 < q) (hq' : q < 1) :
    unclampedRdp n sigma q = publishedRdp n sigma q := by
  have hmin : min n (2^32-1) = n := min_eq_left (by omega)
  rw [unclampedRdp_eq hq hq', hmin, Nat.sub_self, pow_zero, one_mul, publishedRdp,
    publishedMoment_eq]

theorem sampledGaussianRdp_of_lt (hn : 2 ≤ n) (hlt : n < 2^32) (hq : 0 < q) (hq' : q < 1)
    (hσ : 0 < sigma) : sampledGaussianRdp n sigma q = some (publishedRdp n sigma q) := by
  rw [sampledGaussianRdp_eq hn hq hq' hσ, unclampedRdp_of_lt hlt hq hq',
    max_eq_left (publishedRdp_pos hn hq hq'.le hσ).le]

/-- An order cut short gives a smaller value. -/
theorem unclampedRdp_lt (hn : 2^32 ≤ n) (hq : 0 < q) (hq' : q < 1) :
    unclampedRdp n sigma q < publishedRdp n sigma q := by
  have hn' : (2^32 : ℝ) ≤ n := by exact_mod_cast hn
  have hmin : min n (2^32-1) = 2^32-1 := min_eq_right (by omega)
  have hpow : (1-q)^(n-(2^32-1)) < 1 :=
    pow_lt_one₀ (by linarith) (by linarith) (by omega)
  have hmean : 0 < mean (2^32-1) q (growth sigma) :=
    (growth_zero sigma ▸ zero_lt_one).trans_le (le_mean hq.le hq'.le (growth_monotone sigma))
  rw [unclampedRdp_eq hq hq', hmin, publishedRdp, publishedMoment_eq]
  refine div_lt_div_of_pos_right (Real.log_lt_log ?_ ?_) (by linarith)
  · exact mul_pos (pow_pos (by linarith) _) hmean
  · calc (1-q)^(n-(2^32-1))*mean (2^32-1) q (growth sigma) < 1*mean (2^32-1) q (growth sigma) :=
          mul_lt_mul_of_pos_right hpow hmean
      _ = mean (2^32-1) q (growth sigma) := one_mul _
      _ ≤ mean n q (growth sigma) :=
          mean_le_of_le hq.le hq'.le (growth_monotone sigma) (by omega)

/-- The published bound follows its moment: it grows with the rate and falls with the noise. -/
theorem publishedRdp_le {sigma' q' : ℝ} (hn : 2 ≤ n) (hq : 0 < q) (hq' : q ≤ 1)
    (h : mean n q (growth sigma) ≤ mean n q' (growth sigma')) :
    publishedRdp n sigma q ≤ publishedRdp n sigma' q' := by
  have hn' : (2 : ℝ) ≤ n := by exact_mod_cast hn
  have hone : growth sigma 0 ≤ mean n q (growth sigma) :=
    le_mean hq.le hq' (growth_monotone sigma)
  rw [growth_zero] at hone
  rw [publishedRdp, publishedRdp, publishedMoment_eq, publishedMoment_eq]
  exact div_le_div_of_nonneg_right (Real.log_le_log (by linarith) h) (by linarith)

theorem publishedRdp_le_rate {q' : ℝ} (hn : 2 ≤ n) (hq : 0 < q) (hle : q ≤ q') (hq' : q' ≤ 1) :
    publishedRdp n sigma q ≤ publishedRdp n sigma q' :=
  publishedRdp_le hn hq (hle.trans hq') (mean_le_of_rate_le hq.le hle hq' (growth_monotone sigma))

theorem publishedRdp_le_noise {sigma' : ℝ} (hn : 2 ≤ n) (hq : 0 < q) (hq' : q ≤ 1)
    (hσ : 0 < sigma) (hle : sigma ≤ sigma') :
    publishedRdp n sigma' q ≤ publishedRdp n sigma q :=
  publishedRdp_le hn hq hq' (mean_le_mean hq.le hq' (growth_le hσ hle))

end LogSpace

/-- The code's bound is the published one and its last clamp does nothing. -/
def MatchesPublished (order : ℕ) (sigma q : ℝ) : Prop :=
  sampledGaussianRdp order sigma q = some (publishedRdp order sigma q) ∧
    unclampedRdp order sigma q = publishedRdp order sigma q ∧ 0 ≤ publishedRdp order sigma q

/-- So it is at every integer order that fits 32 bits, and at no other. -/
theorem matchesPublished_iff (order : ℕ) (sigma q : ℝ) (horder : 2 ≤ order)
    (hq : 0 < q ∧ q < 1) (hσ : 0 < sigma) : MatchesPublished order sigma q ↔ order < 2^32 := by
  constructor
  · rintro ⟨-,hunclamped,-⟩
    by_contra hlarge
    exact (unclampedRdp_lt (Nat.le_of_not_lt hlarge) hq.1 hq.2).ne hunclamped
  · intro hlt
    exact ⟨sampledGaussianRdp_of_lt horder hlt hq.1 hq.2 hσ,unclampedRdp_of_lt hlt hq.1 hq.2,
      (publishedRdp_pos horder hq.1 hq.2.le hσ).le⟩

theorem matchesPublished_two : MatchesPublished 2 1 (1/2) :=
  (matchesPublished_iff 2 1 (1/2) le_rfl (by norm_num) zero_lt_one).mpr (by norm_num)

/-- At order 2^32 the sum stops one term early. -/
theorem not_matchesPublished_wide :
    sampledGaussianRdp (2^32 : ℕ) 1 (1/2) ≠ some (publishedRdp (2^32) 1 (1/2)) := by
  have hpos := @publishedRdp_pos (2^32) 1 (1/2) (by norm_num) (by norm_num) (by norm_num)
    zero_lt_one
  have hlt := @unclampedRdp_lt (2^32) 1 (1/2) le_rfl (by norm_num) (by norm_num)
  rw [sampledGaussianRdp_eq (by norm_num) (by norm_num) (by norm_num) zero_lt_one]
  exact fun h => (max_lt hlt hpos).ne (Option.some.inj h)

end ConfluxFL

