import Mathlib.Tactic.Ring
import ConfluxFL.Lib.FloatMonotone

/-! How far the operations of a format are from the exact ones: at most a unit in the last place, and
not at all where the format has room for the result. -/
open Float.Model (Format UnpackedFloat totalExponent)
open Float.Model.UnpackedFloat

namespace FloatFormat
variable {spec : Format}

def signed (s : Sign) (x : ℚ) : ℚ :=
  match s with
  | .positive => x
  | .negative => -x

/-- The value of a number; what is not finite counts as zero. -/
def toRat : UnpackedFloat → ℚ
  | .finite s m e _ => signed s (m*2^e)
  | _ => 0

/-- A value that the mantissa has room for. -/
def Fits (spec : Format) (x : ℚ) : Prop :=
  ∃ i j : ℤ, i.natAbs < 2^spec.mantissaBits ∧ spec.minExponent ≤ j ∧ x = i*2^j

/-- A zero, or a finite number at the exponent the format wants. -/
structure Held (spec : Format) (u : UnpackedFloat) : Prop where
  finite : Finite u
  canonical {s : Sign} {m : ℕ} {e : ℤ} {hm : 0 < m} (h : u = .finite s m e hm) :
    Canonical spec m e

/-- A number next to an exact value, and equal to one that fits. -/
structure RoundsTo (spec : Format) (u : UnpackedFloat) (x : ℚ) : Prop extends Held spec u where
  error : |toRat u-x| ≤ max (ulp spec*|x|) (2^spec.minExponent)
  exact (h : Fits spec x) : toRat u = x

section Signs
variable (s t : Sign) (x y : ℚ)

theorem signed_sub : signed s x-signed s y = signed s (x-y) := by
  cases s with
  | positive => rfl
  | negative => exact neg_sub_neg x y |>.trans (neg_sub x y).symm

theorem abs_signed : |signed s x| = |x| := by
  cases s with
  | positive => rfl
  | negative => exact abs_neg x

theorem signed_mul : signed (s*t) (x*y) = signed s x*signed t y := by
  cases s <;> cases t
  · exact (neg_mul_neg x y).symm
  · exact (neg_mul x y).symm
  · exact (mul_neg x y).symm
  · rfl

theorem signed_div : signed (s/t) (x/y) = signed s x/signed t y := by
  cases s <;> cases t
  · exact (neg_div_neg_eq x y).symm
  · exact (neg_div y x).symm
  · exact (div_neg x).symm
  · rfl

variable {s x}

theorem fits_signed_iff : Fits spec (signed s x) ↔ Fits spec x := by
  cases s with
  | positive => exact Iff.rfl
  | negative =>
    constructor
    · rintro ⟨i,j,hi,hj,h⟩
      refine ⟨-i,j,(Int.natAbs_neg i).trans_lt hi,hj,?_⟩
      rw [Int.cast_neg, neg_mul, ← h]
      exact (neg_neg x).symm
    · rintro ⟨i,j,hi,hj,h⟩
      refine ⟨-i,j,(Int.natAbs_neg i).trans_lt hi,hj,?_⟩
      rw [Int.cast_neg, neg_mul, ← h]
      rfl

end Signs

theorem toRat_roundWithAccuracy (s : Sign) (m : ℕ) (e : ℤ) (acc : Accuracy) :
    toRat (roundWithAccuracy spec s m e acc) =
      signed s (magnitude (roundWithAccuracy spec s m e acc)) := by
  obtain h | ⟨m',e',hm,h⟩ := @roundWithAccuracy_sign spec s m e acc
  · rw [h]
    cases s <;> rfl
  · rw [h]
    rfl

section Unit
variable {m : ℕ} {e t : ℤ}

theorem two_zpow_pos (t : ℤ) : (0 : ℚ) < 2^t := zpow_pos (by norm_num) t

/-- The unit at the exponent a format wants, next to the value and to the least unit. -/
theorem unit_le_max (hm : 0 < m) (ht : spec.targetExponent (totalExponent m e) = t) :
    (2 : ℚ)^t ≤ max (ulp spec*(m*2^e)) (2^spec.minExponent) := by
  by_cases hmin : t = spec.minExponent
  · rw [hmin]
    exact le_max_right _ _
  · refine le_max_of_le_left ?_
    have hlog : t+spec.mantissaBitsWithoutImplicit = m.log2+e := by
      unfold Format.targetExponent totalExponent Format.mantissaBits at ht
      omega
    have hself : ((2^m.log2 : ℕ) : ℚ) ≤ m := Nat.cast_le.mpr (Nat.log2_self_le hm.ne')
    have hle : (2 : ℚ)^(t+spec.mantissaBitsWithoutImplicit) ≤ m*2^e := by
      rw [hlog, zpow_add₀ (by norm_num)]
      push_cast at hself
      exact mul_le_mul_of_nonneg_right (by simpa using hself) (two_zpow_pos e).le
    rw [mul_comm, ulp, ← div_eq_mul_inv, le_div_iff₀ (by positivity)]
    rwa [zpow_add₀ (by norm_num), zpow_natCast] at hle

/-- A value that fits is a number of units at the exponent the format wants. -/
theorem Fits.units {x : ℚ} (h : Fits spec x) (hm : 0 < m) (hx : (m : ℚ)*2^e ≤ x)
    (ht : spec.targetExponent (totalExponent m e) = t) : ∃ n : ℤ, x = n*2^t := by
  obtain ⟨i,j,hi,hj,rfl⟩ := h
  have hself : ((2^m.log2 : ℕ) : ℚ) ≤ m := Nat.cast_le.mpr (Nat.log2_self_le hm.ne')
  have hi' : (i : ℚ) < 2^spec.mantissaBits := by
    have : i < ((2^spec.mantissaBits : ℕ) : ℤ) := by omega
    exact_mod_cast this
  have hpow : (2 : ℚ)^((m.log2 : ℤ)+e) < 2^((spec.mantissaBits : ℤ)+j) := by
    rw [zpow_add₀ (by norm_num), zpow_add₀ (by norm_num : (2 : ℚ) ≠ 0) _ j, zpow_natCast,
      zpow_natCast]
    push_cast at hself
    refine (mul_le_mul_of_nonneg_right hself (two_zpow_pos e).le).trans_lt (hx.trans_lt ?_)
    exact mul_lt_mul_of_pos_right hi' (two_zpow_pos j)
  have hexp := (zpow_lt_zpow_iff_right₀ (by norm_num : (1 : ℚ) < 2)).mp hpow
  have htj : t ≤ j := by
    unfold Format.targetExponent totalExponent at ht
    omega
  obtain ⟨k,rfl⟩ : ∃ k : ℕ, j = t+k := ⟨(j-t).toNat,by omega⟩
  refine ⟨i*2^k,?_⟩
  rw [zpow_add₀ (by norm_num), zpow_natCast]
  push_cast
  ring

end Unit

theorem Nearest.eq_intCast {r : ℕ} {n : ℤ} (h : Nearest r (n : ℚ)) : (r : ℤ) = n := by
  have hlt : |((n-r : ℤ) : ℚ)| < 1 := by
    push_cast
    exact h.1.trans_lt (by norm_num)
  have hzero : |n-r| < 1 := by exact_mod_cast hlt
  rw [Int.abs_lt_one_iff] at hzero
  omega

section Rounding
variable {m : ℕ} {e t : ℤ} {s : Sign}

/-- Half a unit is all that rounding to nearest can lose. -/
theorem abs_magnitude_sub_le (hm : 0 < m) (ht : spec.targetExponent (totalExponent m e) = t)
    (he : e ≤ t) : |magnitude (roundWithAccuracy spec s m e .exact)-m*2^e| ≤ 2^t ∧
      (Fits spec (m*2^e) → magnitude (roundWithAccuracy spec s m e .exact) = m*2^e) := by
  obtain ⟨r,hr,hnearest,-⟩ := exists_nearest hm ht he s
  have hpow := two_zpow_pos t
  rw [hr]
  constructor
  · have hdiff : (r : ℚ)*2^t-m*2^e = -((m*2^e/2^t-r)*2^t) := by
      field_simp
      ring
    rw [hdiff, abs_neg, abs_mul, abs_of_pos hpow]
    calc |(m : ℚ)*2^e/2^t-r| * 2^t ≤ 1*2^t :=
          mul_le_mul_of_nonneg_right (hnearest.1.trans (by norm_num)) hpow.le
      _ = 2^t := one_mul _
  · intro hfits
    obtain ⟨n,hn⟩ := hfits.units hm le_rfl ht
    rw [hn, mul_div_cancel_right₀ _ hpow.ne'] at hnearest
    rw [hn, ← hnearest.eq_intCast]
    rfl

theorem canonical_roundWithAccuracy (hm : 0 < m)
    (he : e ≤ spec.targetExponent (totalExponent m e)) {acc : Accuracy} {s' : Sign} {m' : ℕ}
    {e' : ℤ} {hm' : 0 < m'} (h : roundWithAccuracy spec s m e acc = .finite s' m' e' hm') :
    Canonical spec m' e' := by
  obtain hzero | ⟨m'',e'',hm'',heq,hcanon⟩ := (roundWithAccuracy_spec hm he s acc).1
  · rw [hzero] at h
    cases h
  · rw [heq] at h
    cases h
    exact hcanon

theorem roundsTo_roundWithAccuracy (hm : 0 < m)
    (he : e ≤ spec.targetExponent (totalExponent m e)) (s : Sign) :
    RoundsTo spec (roundWithAccuracy spec s m e .exact) (signed s (m*2^e)) where
  finite := finite_roundWithAccuracy ..
  canonical h := canonical_roundWithAccuracy hm he h
  error := by
    have hvalue : (0 : ℚ) ≤ m*2^e := mul_nonneg (Nat.cast_nonneg m) (two_zpow_pos e).le
    rw [toRat_roundWithAccuracy, signed_sub, abs_signed, abs_signed, abs_of_nonneg hvalue]
    exact (abs_magnitude_sub_le hm rfl he).1.trans (unit_le_max hm rfl)
  exact h := by
    rw [toRat_roundWithAccuracy, (abs_magnitude_sub_le hm rfl he).2 (fits_signed_iff.mp h)]

theorem roundsTo_round (hm : 0 < m) (e : ℤ) (s : Sign) :
    RoundsTo spec (UnpackedFloat.round spec s m e) (signed s (m*2^e)) := by
  obtain ⟨m',e',hround,hm',hvalue,htarget⟩ := @round_eq spec m e hm s
  rw [hround, ← hvalue]
  exact roundsTo_roundWithAccuracy hm' htarget s

theorem roundsTo_zero (s : Sign) : RoundsTo spec (.zero s) 0 where
  finite := rfl
  canonical h := by cases h
  error := by
    change |(0 : ℚ)-0| ≤ _
    rw [sub_zero, abs_zero]
    exact le_max_of_le_right (two_zpow_pos _).le
  exact _ := rfl

/-- A signed integer at an exponent. -/
theorem roundsTo_normalize (n e : ℤ) (s : Sign) :
    RoundsTo spec (UnpackedFloat.normalize spec n e s) (n*2^e) := by
  unfold UnpackedFloat.normalize
  split
  · rename_i hlt
    have hn := Int.compare_eq_lt.mp hlt
    have hround := @roundsTo_round spec (-n).toNat (by omega) e .negative
    have hcast : (((-n).toNat : ℕ) : ℚ) = -n := by
      have : (((-n).toNat : ℕ) : ℤ) = -n := by omega
      exact_mod_cast this
    rw [hcast, signed, neg_mul, neg_neg] at hround
    exact hround
  · rename_i heq
    rw [Int.compare_eq_eq.mp heq, Int.cast_zero, zero_mul]
    exact roundsTo_zero s
  · rename_i hgt
    have hn := Int.compare_eq_gt.mp hgt
    have hround := @roundsTo_round spec n.toNat (by omega) e .positive
    have hcast : ((n.toNat : ℕ) : ℚ) = n := by
      have : ((n.toNat : ℕ) : ℤ) = n := by omega
      exact_mod_cast this
    rw [hcast, signed] at hround
    exact hround

end Rounding

section Operations
variable {u v : UnpackedFloat}

theorem toRat_zero (s : Sign) : toRat (.zero s) = 0 := rfl

theorem Held.roundsTo (h : Held spec u) : RoundsTo spec u (toRat u) where
  toHeld := h
  error := by
    rw [sub_self, abs_zero]
    exact le_max_of_le_right (two_zpow_pos _).le
  exact _ := rfl

/-- A mantissa at a smaller exponent. -/
theorem decreaseExponent_value (m : ℕ) {e t : ℤ} (h : t ≤ e) :
    ((decreaseExponent m e t).1 : ℚ)*2^t = m*2^e := by
  obtain ⟨k,rfl⟩ : ∃ k : ℕ, e = t+k := ⟨(e-t).toNat,by omega⟩
  rw [decreaseExponent, show (t+(k : ℤ)-t).toNat = k by omega, Nat.shiftLeft_eq,
    zpow_add₀ (by norm_num), zpow_natCast]
  push_cast
  ring

theorem cast_apply (s : Sign) (m : ℕ) : ((s.apply m : ℤ) : ℚ) = signed s m := by
  cases s with
  | positive => rfl
  | negative =>
    rw [Sign.apply, Int.cast_neg]
    rfl

theorem signed_mul_right (s : Sign) (x y : ℚ) : signed s (x*y) = signed s x*y := by
  cases s with
  | positive => rfl
  | negative => exact (neg_mul x y).symm

/-- Two mantissas brought to one exponent. -/
theorem apply_value (s : Sign) (m : ℕ) {e t : ℤ} (h : t ≤ e) :
    ((s.apply (decreaseExponent m e t).1 : ℤ) : ℚ)*2^t = signed s (m*2^e) := by
  rw [cast_apply, ← signed_mul_right, decreaseExponent_value m h]

theorem roundsTo_add (hu : Held spec u) (hv : Held spec v) :
    RoundsTo spec (add spec u v) (toRat u+toRat v) := by
  obtain ⟨s,rfl⟩ | ⟨s,m,e,hm,rfl⟩ := finite_cases hu.finite
  · obtain ⟨t,rfl⟩ | ⟨t,n,e',hn,rfl⟩ := finite_cases hv.finite
    · have hzero : toRat (.zero s)+toRat (.zero t) = 0 := add_zero _
      rw [hzero, add]
      split <;> exact roundsTo_zero _
    · have hvalue : toRat (.zero s)+toRat (.finite t n e' hn) = toRat (.finite t n e' hn) :=
        zero_add _
      rw [hvalue]
      exact hv.roundsTo
  · obtain ⟨t,rfl⟩ | ⟨t,n,e',hn,rfl⟩ := finite_cases hv.finite
    · have hvalue : toRat (.finite s m e hm)+toRat (.zero t) = toRat (.finite s m e hm) :=
        add_zero _
      rw [hvalue]
      exact hu.roundsTo
    · have hround := @roundsTo_normalize spec
        (s.apply (decreaseExponent m e (min e e')).1+t.apply (decreaseExponent n e' (min e e')).1)
        (min e e') .positive
      rwa [Int.cast_add, add_mul, apply_value s m (min_le_left e e'),
        apply_value t n (min_le_right e e')] at hround

theorem roundsTo_mul (hmin : spec.minExponent ≤ 0) (hu : Held spec u) (hv : Held spec v) :
    RoundsTo spec (mul spec u v) (toRat u*toRat v) := by
  obtain ⟨s,rfl⟩ | ⟨s,m,e,hm,rfl⟩ := finite_cases hu.finite
  · obtain ⟨t,rfl⟩ | ⟨t,n,e',hn,rfl⟩ := finite_cases hv.finite <;>
      · rw [toRat_zero, zero_mul]
        exact roundsTo_zero _
  · obtain ⟨t,rfl⟩ | ⟨t,n,e',hn,rfl⟩ := finite_cases hv.finite
    · rw [toRat_zero, mul_zero]
      exact roundsTo_zero _
    · have hvalue : signed (s*t) ((m*n : ℕ)*2^(e+e')) =
          toRat (.finite s m e hm)*toRat (.finite t n e' hn) := by
        rw [toRat, toRat, ← signed_mul, zpow_add₀ (by norm_num)]
        push_cast
        ring_nf
      rw [← hvalue]
      exact roundsTo_roundWithAccuracy (Nat.mul_pos hm hn)
        ((hu.canonical rfl).mul_exponent_le hm hn (hv.canonical rfl) hmin) (s*t)

end Operations

section Division
variable {m n : ℕ} {e t : ℤ}

/-- The bits a quotient has at least. -/
theorem two_zpow_le_div (hm : 0 < m) (hn : 0 < n) :
    (2 : ℚ)^(totalExponent m e-totalExponent n t-1) ≤ m*2^e/(n*2^t) := by
  have hself : ((2^m.log2 : ℕ) : ℚ) ≤ m := Nat.cast_le.mpr (Nat.log2_self_le hm.ne')
  have hnext : (n : ℚ) < ((2^(n.log2+1) : ℕ) : ℚ) := Nat.cast_lt.mpr Nat.lt_log2_self
  have hexp : totalExponent m e-totalExponent n t-1 = (m.log2 : ℤ)+e-((n.log2+1 : ℕ)+t) := by
    unfold totalExponent
    push_cast
    ring
  have hn' : (0 : ℚ) < n := Nat.cast_pos.mpr hn
  rw [hexp, zpow_sub₀ (by norm_num), zpow_add₀ (by norm_num), zpow_add₀ (by norm_num : (2 : ℚ) ≠ 0) _ t,
    zpow_natCast, zpow_natCast]
  push_cast at hself hnext
  exact div_le_div₀ (mul_nonneg (Nat.cast_nonneg m) (two_zpow_pos e).le)
    (mul_le_mul_of_nonneg_right hself (two_zpow_pos e).le) (mul_pos hn' (two_zpow_pos t))
    (mul_le_mul_of_nonneg_right hnext.le (two_zpow_pos t).le)

/-- The integer quotient that is rounded, and what the accuracy says of the rest. -/
theorem divCore_eq (m : ℕ) (e : ℤ) (hn : 0 < n) (t : ℤ) : ∃ (a : ℕ) (te : ℤ),
    divCore spec m e n t = (a/n,te,accuracyOfFraction (a%n) n) ∧
      te ≤ spec.targetExponent (totalExponent m e-totalExponent n t) ∧
      (a : ℚ)/n*2^te = m*2^e/(n*2^t) := by
  obtain ⟨te,hte⟩ : ∃ te, min (e-t)
      (spec.targetExponent (totalExponent m e-totalExponent n t)) = te := ⟨_,rfl⟩
  refine ⟨m*2^(e-t-te).toNat,te,?_,hte ▸ min_le_right _ _,?_⟩
  · rw [divCore, hte]
    simp only [Nat.shiftLeft_eq]
  · obtain ⟨k,hk⟩ : ∃ k : ℕ, e-t-te = k := ⟨(e-t-te).toNat,by omega⟩
    have hn' : (n : ℚ) ≠ 0 := Nat.cast_ne_zero.mpr hn.ne'
    have hpow : (2 : ℚ)^k*2^te*2^t = 2^e := by
      rw [← zpow_natCast, ← zpow_add₀ (by norm_num), ← zpow_add₀ (by norm_num)]
      congr 1
      omega
    have ht' := (two_zpow_pos t).ne'
    rw [show (e-t-te).toNat = k by omega, ← hpow]
    push_cast
    field_simp

/-- A quotient has at least as many bits as its rounding needs, or the least exponent. -/
theorem le_target_div (hm : 0 < m) (hn : 0 < n) {a : ℕ} {te : ℤ}
    (hle : te ≤ spec.targetExponent (totalExponent m e-totalExponent n t))
    (hvalue : (a : ℚ)/n*2^te = m*2^e/(n*2^t)) :
    te ≤ spec.targetExponent (totalExponent (a/n) te) := by
  have hlow := @two_zpow_le_div m n e t hm hn
  rw [← hvalue] at hlow
  have hlt : (a : ℚ)/n < ((2^((a/n).log2+1) : ℕ) : ℚ) := by
    rw [div_lt_iff₀ (Nat.cast_pos.mpr hn)]
    have := (Nat.div_lt_iff_lt_mul hn).mp (@Nat.lt_log2_self (a/n))
    exact_mod_cast this
  have hpow : (2 : ℚ)^(totalExponent m e-totalExponent n t-1) < 2^(((a/n).log2+1 : ℕ)+te) := by
    rw [zpow_add₀ (by norm_num), zpow_natCast]
    push_cast at hlt
    exact hlow.trans_lt (mul_lt_mul_of_pos_right hlt (two_zpow_pos te))
  have hexp := (zpow_lt_zpow_iff_right₀ (by norm_num : (1 : ℚ) < 2)).mp hpow
  unfold Format.targetExponent at *
  unfold totalExponent at *
  omega

variable {a : ℕ} {te : ℤ}

/-- What is not smaller than the least unit has an integer quotient. -/
theorem quotient_pos (hm : 0 < m) (hn : 0 < n)
    (hle : te ≤ spec.targetExponent (totalExponent m e-totalExponent n t))
    (hvalue : (a : ℚ)/n*2^te = m*2^e/(n*2^t)) (hleast : 2^spec.minExponent ≤ (a : ℚ)/n*2^te) :
    0 < a/n := by
  have hlow := @two_zpow_le_div m n e t hm hn
  rw [← hvalue] at hlow
  have hone : (2 : ℚ)^te ≤ (a : ℚ)/n*2^te := by
    by_cases hmin : te ≤ spec.minExponent
    · exact (zpow_le_zpow_right₀ (by norm_num) hmin).trans hleast
    · refine (zpow_le_zpow_right₀ (by norm_num) ?_).trans hlow
      unfold Format.targetExponent Format.mantissaBits at hle
      omega
  have hdiv : (1 : ℚ) ≤ a/n := by
    have hpow := two_zpow_pos te
    exact le_of_mul_le_mul_right ((one_mul _).trans_le hone) hpow
  rw [le_div_iff₀ (Nat.cast_pos.mpr hn), one_mul] at hdiv
  exact Nat.div_pos (Nat.cast_le.mp hdiv) hn

/-- The integer quotient against the exact one, at any exponent above its own. -/
theorem floor_bounds (hn : 0 < n) {k : ℕ} :
    ((a/n/2^k : ℕ) : ℚ)*2^(te+(k : ℤ)) ≤ (a : ℚ)/n*2^te ∧
      (a : ℚ)/n*2^te ≤ ((a/n/2^k : ℕ) : ℚ)*2^(te+(k : ℤ))+2^(te+(k : ℤ)) := by
  have hn' : (0 : ℚ) < n := Nat.cast_pos.mpr hn
  have hpow := two_zpow_pos te
  rw [zpow_add₀ (by norm_num), zpow_natCast, Nat.div_div_eq_div_mul]
  have hlow : ((a/(n*2^k) : ℕ) : ℚ)*2^k ≤ a/n := by
    rw [le_div_iff₀ hn']
    have := Nat.div_mul_le_self a (n*2^k)
    have hcast : ((a/(n*2^k)*(n*2^k) : ℕ) : ℚ) ≤ a := Nat.cast_le.mpr this
    push_cast at hcast
    linarith
  have hhigh : (a : ℚ)/n ≤ ((a/(n*2^k) : ℕ) : ℚ)*2^k+2^k := by
    rw [div_le_iff₀ hn']
    have := @Nat.lt_div_mul_add a (n*2^k) (Nat.mul_pos hn (Nat.two_pow_pos k))
    have hcast : (a : ℚ) ≤ ((a/(n*2^k)*(n*2^k)+n*2^k : ℕ) : ℚ) := Nat.cast_le.mpr this.le
    push_cast at hcast
    linarith
  constructor
  · calc ((a/(n*2^k) : ℕ) : ℚ)*(2^te*2^k) = ((a/(n*2^k) : ℕ) : ℚ)*2^k*2^te := by ring
      _ ≤ _ := mul_le_mul_of_nonneg_right hlow hpow.le
  · calc (a : ℚ)/n*2^te ≤ (((a/(n*2^k) : ℕ) : ℚ)*2^k+2^k)*2^te :=
          mul_le_mul_of_nonneg_right hhigh hpow.le
      _ = _ := by ring

/-- A rounded quotient and the exact one lie in one unit. -/
theorem abs_quotient_sub_le (hn : 0 < n) (hpos : 0 < a/n)
    (hle : te ≤ spec.targetExponent (totalExponent (a/n) te)) (s : Sign) (acc : Accuracy) :
    |magnitude (roundWithAccuracy spec s (a/n) te acc)-(a : ℚ)/n*2^te| ≤
      max (ulp spec*((a : ℚ)/n*2^te)) (2^spec.minExponent) := by
  obtain ⟨w,hw⟩ : ∃ w, spec.targetExponent (totalExponent (a/n) te) = w := ⟨_,rfl⟩
  obtain ⟨k,hk⟩ : ∃ k : ℕ, w = te+k := ⟨(w-te).toNat,by omega⟩
  have hshift : (w-te).toNat = k := by omega
  have hfloor : (((a/n : ℕ) : ℚ))*2^te ≤ (a : ℚ)/n*2^te :=
    mul_le_mul_of_nonneg_right Nat.cast_div_le (two_zpow_pos te).le
  have hunit : (2 : ℚ)^w ≤ max (ulp spec*((a : ℚ)/n*2^te)) (2^spec.minExponent) := by
    refine (unit_le_max hpos hw).trans (max_le_max ?_ le_rfl)
    exact mul_le_mul_of_nonneg_left hfloor ulp_pos.le
  obtain ⟨hlow,hhigh⟩ := @floor_bounds n a te hn k
  rw [← hk] at hlow hhigh
  refine le_trans ?_ hunit
  obtain ⟨hq,hzero⟩ | ⟨m',e',hm',heq,-,hte,-,hmlow,hmhigh⟩ :=
    roundWithAccuracy_cases hpos hw (hle.trans_eq hw) s acc
  · rw [hshift] at hq
    rw [hq, Nat.cast_zero, zero_mul] at hlow hhigh
    rw [hzero]
    change |(0 : ℚ)-_| ≤ _
    rw [zero_sub, abs_neg, abs_of_nonneg hlow]
    linarith
  · rw [hshift] at hmlow hmhigh
    obtain ⟨hvlow,hvhigh⟩ := magnitude_bounds hte hmlow hmhigh
    rw [heq]
    change |(m' : ℚ)*2^e'-_| ≤ _
    rw [abs_le]
    constructor <;> linarith

/-- A quotient that fits leaves no rest. -/
theorem mod_eq_zero_of_fits (hn : 0 < n) (hpos : 0 < a/n)
    (hle : te ≤ spec.targetExponent (totalExponent (a/n) te)) (h : Fits spec ((a : ℚ)/n*2^te)) :
    a%n = 0 := by
  obtain ⟨w,hw⟩ : ∃ w, spec.targetExponent (totalExponent (a/n) te) = w := ⟨_,rfl⟩
  obtain ⟨k,hk⟩ : ∃ k : ℕ, w = te+k := ⟨(w-te).toNat,by omega⟩
  have hfloor : (((a/n : ℕ) : ℚ))*2^te ≤ (a : ℚ)/n*2^te :=
    mul_le_mul_of_nonneg_right Nat.cast_div_le (two_zpow_pos te).le
  obtain ⟨i,hi⟩ := h.units hpos hfloor hw
  have hn' : (n : ℚ) ≠ 0 := Nat.cast_ne_zero.mpr hn.ne'
  rw [hk, zpow_add₀ (by norm_num), zpow_natCast] at hi
  have hmul : (a : ℚ) = i*2^k*n := by
    have hpow := (two_zpow_pos te).ne'
    field_simp at hi
    linarith
  have hint : (a : ℤ) = i*2^k*n := by exact_mod_cast hmul
  have hdvd : (n : ℤ) ∣ a := ⟨i*2^k,hint.trans (mul_comm _ _)⟩
  exact Nat.mod_eq_zero_of_dvd (Int.natCast_dvd_natCast.mp hdvd)

end Division

/-- A quotient that is not smaller than the least unit. -/
theorem roundsTo_div {u v : UnpackedFloat} (hu : Held spec u) (hv : Held spec v)
    (hv0 : toRat v ≠ 0) (hleast : toRat u ≠ 0 → 2^spec.minExponent ≤ |toRat u/toRat v|) :
    RoundsTo spec (div spec u v) (toRat u/toRat v) := by
  obtain ⟨t,rfl⟩ | ⟨t,n,e',hn,rfl⟩ := finite_cases hv.finite
  · exact absurd rfl hv0
  obtain ⟨s,rfl⟩ | ⟨s,m,e,hm,rfl⟩ := finite_cases hu.finite
  · rw [toRat_zero, zero_div]
    exact roundsTo_zero _
  have hne : toRat (.finite s m e hm) ≠ 0 := by
    have hpos : (0 : ℚ) < m*2^e := mul_pos (Nat.cast_pos.mpr hm) (two_zpow_pos e)
    rw [← abs_pos, toRat, abs_signed, abs_of_pos hpos]
    exact hpos
  have hleast := hleast hne
  rw [toRat, toRat, ← signed_div] at hleast ⊢
  obtain ⟨a,te,hcore,hte,hvalue⟩ := @divCore_eq spec n m e hn e'
  have hquotient : (0 : ℚ) ≤ (a : ℚ)/n*2^te :=
    mul_nonneg (div_nonneg (Nat.cast_nonneg a) (Nat.cast_nonneg n)) (two_zpow_pos te).le
  rw [← hvalue] at hleast ⊢
  rw [abs_signed, abs_of_nonneg hquotient] at hleast
  have hpos : 0 < a/n := quotient_pos hm hn hte hvalue hleast
  have htarget := le_target_div hm hn hte hvalue
  rw [div, hcore]
  refine ⟨⟨finite_roundWithAccuracy ..,canonical_roundWithAccuracy hpos htarget⟩,?_,fun h => ?_⟩
  · rw [toRat_roundWithAccuracy, signed_sub, abs_signed, abs_signed, abs_of_nonneg hquotient]
    exact abs_quotient_sub_le hn hpos htarget _ _
  · rw [fits_signed_iff] at h
    have hrest := mod_eq_zero_of_fits hn hpos htarget h
    have hexact : (a : ℚ)/n = ((a/n : ℕ) : ℚ) :=
      (Nat.cast_div_charZero (Nat.dvd_of_mod_eq_zero hrest)).symm
    rw [hexact] at h ⊢
    rw [toRat_roundWithAccuracy, accuracyOfFraction, if_pos hrest,
      (abs_magnitude_sub_le hpos rfl htarget).2 h]

/-- Reading a pattern and packing it again changes nothing about how it is read. -/
theorem unpack_pack_unpack (hbits : 1 < spec.exponentBits) (b : BitVec spec.numBits) :
    unpack spec (pack spec (unpack spec b)) = unpack spec b := by
  by_cases h : unpack spec b = .notANumber
  · rw [h]
    exact unpack_packedNaN
  · rw [pack_unpack hbits h]

theorem unpack_packedZero (s : Sign) : unpack spec (packedZero spec s) = .zero s := by
  have hzero : (0#(spec.exponentBits)) ≠ -1#_ := by
    intro h
    have hnat := congrArg BitVec.toNat h
    rw [BitVec.neg_one_eq_allOnes, BitVec.toNat_allOnes, BitVec.toNat_zero] at hnat
    have hcapacity := Nat.one_lt_two_pow spec.he.ne'
    omega
  simp [packedZero, unpack, hzero]

theorem Held.unpack_pack {u : UnpackedFloat} (h : Held spec u) (hbits : 1 < spec.exponentBits)
    (hlt : |toRat u| < 2^2^(spec.exponentBits-1)) : unpack spec (pack spec u) = u := by
  obtain ⟨s,rfl⟩ | ⟨s,m,e,hm,rfl⟩ := finite_cases h.finite
  · exact unpack_packedZero s
  · rw [toRat, abs_signed, abs_of_nonneg (mul_nonneg (Nat.cast_nonneg m) (two_zpow_pos e).le)]
      at hlt
    exact unpack_pack_of_lt hm (h.canonical rfl) hbits hlt s

section Comparison
variable {m n : ℕ} {e t : ℤ}

theorem value_lt_of_exponent_lt (h : Canonical spec m e) (h' : Canonical spec n t)
    (hlt : e < t) : (m : ℚ)*2^e < n*2^t := by
  have hmin := h.minExponent_le
  have hlog := h.log2_lt
  have hfull := h'.log2_eq (by omega)
  have hn : n ≠ 0 := by
    rintro rfl
    rw [Nat.log2_zero] at hfull
    have hbits : 0 < spec.mantissaBitsWithoutImplicit := spec.hm
    unfold Format.mantissaBits at hfull
    omega
  have hself : ((2^n.log2 : ℕ) : ℚ) ≤ n := Nat.cast_le.mpr (Nat.log2_self_le hn)
  have hnext : (m : ℚ) < ((2^(m.log2+1) : ℕ) : ℚ) := Nat.cast_lt.mpr Nat.lt_log2_self
  push_cast at hself hnext
  calc (m : ℚ)*2^e < 2^(m.log2+1)*2^e := mul_lt_mul_of_pos_right hnext (two_zpow_pos e)
    _ = 2^(((m.log2+1 : ℕ) : ℤ)+e) := by rw [zpow_add₀ (by norm_num), zpow_natCast]
    _ ≤ 2^((n.log2 : ℤ)+t) := zpow_le_zpow_right₀ (by norm_num) (by omega)
    _ = 2^n.log2*2^t := by rw [zpow_add₀ (by norm_num), zpow_natCast]
    _ ≤ n*2^t := mul_le_mul_of_nonneg_right hself (two_zpow_pos t).le

/-- Canonical values compare by exponent, then by mantissa. -/
theorem compare_value (h : Canonical spec m e) (h' : Canonical spec n t) :
    (compare e t).then (compare m n) = compare ((m : ℚ)*2^e) (n*2^t) := by
  rcases lt_trichotomy e t with hlt | rfl | hgt
  · rw [Int.compare_eq_lt.mpr hlt, compare_lt_iff_lt.mpr (value_lt_of_exponent_lt h h' hlt)]
    rfl
  · rw [Int.compare_eq_eq.mpr rfl]
    change compare m n = _
    have hpow := two_zpow_pos e
    rcases lt_trichotomy m n with hlt | rfl | hgt
    · rw [Nat.compare_eq_lt.mpr hlt, compare_lt_iff_lt.mpr
        (mul_lt_mul_of_pos_right (Nat.cast_lt.mpr hlt) hpow)]
    · rw [Nat.compare_eq_eq.mpr rfl, compare_eq_iff_eq.mpr rfl]
    · rw [Nat.compare_eq_gt.mpr hgt, compare_gt_iff_gt.mpr
        (mul_lt_mul_of_pos_right (Nat.cast_lt.mpr hgt) hpow)]
  · rw [Int.compare_eq_gt.mpr hgt, compare_gt_iff_gt.mpr (value_lt_of_exponent_lt h' h hgt)]
    rfl

theorem value_pos (hm : 0 < m) (e : ℤ) : (0 : ℚ) < m*2^e :=
  mul_pos (Nat.cast_pos.mpr hm) (two_zpow_pos e)

theorem compare_neg (x y : ℚ) : compare (-x) (-y) = (compare x y).swap := by
  rcases lt_trichotomy x y with h | rfl | h
  · rw [compare_lt_iff_lt.mpr h, compare_gt_iff_gt.mpr (neg_lt_neg h)]
    rfl
  · rw [compare_eq_iff_eq.mpr rfl, compare_eq_iff_eq.mpr rfl]
    rfl
  · rw [compare_gt_iff_gt.mpr h, compare_lt_iff_lt.mpr (neg_lt_neg h)]
    rfl

/-- The numbers of a format compare like their values. -/
theorem compare_eq {u v : UnpackedFloat} (hu : Held spec u) (hv : Held spec v) :
    u.compare v = some (compare (toRat u) (toRat v)) := by
  obtain ⟨s,rfl⟩ | ⟨s,m,e,hm,rfl⟩ := finite_cases hu.finite
  · obtain ⟨t,rfl⟩ | ⟨t,n,e',hn,rfl⟩ := finite_cases hv.finite
    · exact congrArg some (compare_eq_iff_eq.mpr rfl).symm
    · cases t with
      | positive => exact congrArg some (compare_lt_iff_lt.mpr (value_pos hn e')).symm
      | negative =>
        exact congrArg some (compare_gt_iff_gt.mpr (neg_neg_of_pos (value_pos hn e'))).symm
  · obtain ⟨t,rfl⟩ | ⟨t,n,e',hn,rfl⟩ := finite_cases hv.finite
    · cases s with
      | positive => exact congrArg some (compare_gt_iff_gt.mpr (value_pos hm e)).symm
      | negative =>
        exact congrArg some (compare_lt_iff_lt.mpr (neg_neg_of_pos (value_pos hm e))).symm
    · have hvalue := compare_value (hu.canonical rfl) (hv.canonical rfl)
      cases s with
      | positive =>
        cases t with
        | positive => exact congrArg some hvalue
        | negative =>
          exact congrArg some (compare_gt_iff_gt.mpr
            ((neg_neg_of_pos (value_pos hn e')).trans (value_pos hm e))).symm
      | negative =>
        cases t with
        | positive =>
          exact congrArg some (compare_lt_iff_lt.mpr
            ((neg_neg_of_pos (value_pos hm e)).trans (value_pos hn e'))).symm
        | negative =>
          exact congrArg some ((congrArg Ordering.swap hvalue).trans (compare_neg _ _).symm)

theorem lt_eq {u v : UnpackedFloat} (hu : Held spec u) (hv : Held spec v) :
    u.lt v = decide (toRat u < toRat v) := by
  rw [UnpackedFloat.lt, compare_eq hu hv, Bool.eq_iff_iff, decide_eq_true_iff, beq_iff_eq,
    Option.some_inj, compare_lt_iff_lt]

theorem le_eq {u v : UnpackedFloat} (hu : Held spec u) (hv : Held spec v) :
    u.le v = decide (toRat u ≤ toRat v) := by
  rw [UnpackedFloat.le, compare_eq hu hv, Bool.eq_iff_iff, decide_eq_true_iff, Option.any_some,
    ← compare_le_iff_le, Ordering.isLE_iff_ne_gt]

end Comparison

/-- The values of a format are whole numbers of its least unit. -/
theorem Held.exists_units {u : UnpackedFloat} (h : Held spec u) :
    ∃ i : ℤ, toRat u = i*2^spec.minExponent := by
  obtain ⟨s,rfl⟩ | ⟨s,m,e,hm,rfl⟩ := finite_cases h.finite
  · exact ⟨0,by rw [toRat_zero, Int.cast_zero, zero_mul]⟩
  · have hleast := (h.canonical rfl).minExponent_le
    obtain ⟨k,rfl⟩ : ∃ k : ℕ, e = k+spec.minExponent := ⟨(e-spec.minExponent).toNat,by omega⟩
    refine ⟨s.apply m*2^k,?_⟩
    rw [toRat, zpow_add₀ (by norm_num), zpow_natCast, ← mul_assoc, signed_mul_right,
      signed_mul_right, Int.cast_mul, cast_apply, Int.cast_pow]
    rfl

theorem ulp_le : ulp spec ≤ 1/2 := by
  have hone : 2^1 ≤ 2^spec.mantissaBitsWithoutImplicit := Nat.pow_le_pow_right (by decide) spec.hm
  have hcast : (2 : ℚ) ≤ 2^spec.mantissaBitsWithoutImplicit := by exact_mod_cast hone
  rw [ulp, one_div]
  exact inv_anti₀ (by norm_num) hcast

/-- Rounding does not double a bound. -/
theorem RoundsTo.abs_lt {u : UnpackedFloat} {q bound : ℚ} (h : RoundsTo spec u q)
    (hmin : spec.minExponent ≤ 0) (hbound : 2 < bound) (hq : |q| ≤ bound) :
    |toRat u| < 2*bound := by
  have hle : max (ulp spec*|q|) ((2 : ℚ)^spec.minExponent) < bound := by
    refine max_lt ?_ ((zpow_le_one_of_nonpos₀ (by norm_num) hmin).trans_lt (by linarith))
    have := mul_le_mul (@ulp_le spec) hq (abs_nonneg q) (by norm_num)
    linarith
  have herror := h.error
  have habs := abs_sub_abs_le_abs_sub (toRat u) q
  linarith

/-- The rounding of a real number, which is the number where the mantissa has room for it. -/
structure Rounded (spec : Format) (y x : ℝ) : Prop where
  error : |y-x| ≤ max (ulp spec*|x|) (2^spec.minExponent)
  exact {q : ℚ} (h : Fits spec q) (hq : x = q) : y = x

theorem RoundsTo.rounded {u : UnpackedFloat} {q : ℚ} (h : RoundsTo spec u q) :
    Rounded spec (toRat u : ℚ) q where
  error := by
    have := h.error
    have hcast : ((|toRat u-q| : ℚ) : ℝ) ≤ ((max (ulp spec*|q|) (2^spec.minExponent) : ℚ) : ℝ) :=
      Rat.cast_le.mpr this
    push_cast at hcast
    exact hcast
  exact {p} hp hq := by
    rw [h.exact]
    rwa [Rat.cast_injective hq]

/-! The order of all the numbers of a format, the infinite ones included: by sign and kind first,
and then by exponent and mantissa. -/

/-- Below zero the larger exponents and mantissas come first. -/
def orderKey : UnpackedFloat → ℤ ×ₗ ℤ ×ₗ ℤ
  | .infinity .negative => toLex (-2,toLex (0,0))
  | .finite .negative m e _ => toLex (-1,toLex (-e,-m))
  | .zero _ => toLex (0,toLex (0,0))
  | .finite .positive m e _ => toLex (1,toLex (e,m))
  | .infinity .positive => toLex (2,toLex (0,0))
  | .notANumber => toLex (3,toLex (0,0))

theorem lt_eq_orderKey {u v : UnpackedFloat} (hu : u ≠ .notANumber) (hv : v ≠ .notANumber) :
    u.lt v = decide (orderKey u < orderKey v) := by
  cases u with
  | notANumber => exact absurd rfl hu
  | zero s =>
    cases v with
    | notANumber => exact absurd rfl hv
    | zero t => rfl
    | finite t m e hm => cases t <;> rfl
    | infinity t => cases t <;> rfl
  | infinity s =>
    cases v with
    | notANumber => exact absurd rfl hv
    | zero t => cases s <;> rfl
    | finite t m e hm => cases s <;> cases t <;> rfl
    | infinity t => cases s <;> cases t <;> rfl
  | finite s m e hm =>
    cases v with
    | notANumber => exact absurd rfl hv
    | zero t => cases s <;> rfl
    | infinity t => cases s <;> cases t <;> rfl
    | finite t m' e' hm' =>
      cases s with
      | positive =>
        cases t with
        | negative => rfl
        | positive =>
          rw [Bool.eq_iff_iff, decide_eq_true_iff]
          simp only [UnpackedFloat.lt, UnpackedFloat.compare, orderKey, Prod.Lex.toLex_lt_toLex,
            lt_irrefl, true_and, false_or, beq_iff_eq, Option.some.injEq, F32.then_eq_lt_iff,
            Nat.cast_lt]
      | negative =>
        cases t with
        | positive => rfl
        | negative =>
          rw [Bool.eq_iff_iff, decide_eq_true_iff]
          simp only [UnpackedFloat.lt, UnpackedFloat.compare, orderKey, Prod.Lex.toLex_lt_toLex,
            lt_irrefl, true_and, false_or, beq_iff_eq, Option.some.injEq, Ordering.swap_then,
            Int.compare_swap, Nat.compare_swap, F32.then_eq_lt_iff, neg_lt_neg_iff, neg_inj,
            Nat.cast_lt, @eq_comm ℤ e e']

theorem compare_swap (u v : UnpackedFloat) : v.compare u = (u.compare v).map Ordering.swap := by
  cases u with
  | notANumber => cases v <;> rfl
  | zero s => cases v with
    | finite t m e hm => cases t <;> rfl
    | infinity t => cases t <;> rfl
    | _ => rfl
  | infinity s => cases v with
    | finite t m e hm => cases s <;> cases t <;> rfl
    | infinity t => cases s <;> cases t <;> rfl
    | _ => cases s <;> rfl
  | finite s m e hm => cases v with
    | infinity t => cases s <;> cases t <;> rfl
    | finite t m' e' hm' =>
      cases s <;> cases t <;> simp [UnpackedFloat.compare, Ordering.swap_then, Int.compare_swap, Nat.compare_swap]
    | _ => cases s <;> rfl

theorem compare_ne_none {u v : UnpackedFloat} (hu : u ≠ .notANumber) (hv : v ≠ .notANumber) :
    u.compare v ≠ none := by
  cases u with
  | notANumber => exact absurd rfl hu
  | zero s => cases v with
    | notANumber => exact absurd rfl hv
    | zero t => exact Option.some_ne_none _
    | finite t m e hm => cases t <;> exact Option.some_ne_none _
    | infinity t => cases t <;> exact Option.some_ne_none _
  | infinity s => cases v with
    | notANumber => exact absurd rfl hv
    | zero t => cases s <;> exact Option.some_ne_none _
    | finite t m e hm => cases s <;> cases t <;> exact Option.some_ne_none _
    | infinity t => cases s <;> cases t <;> exact Option.some_ne_none _
  | finite s m e hm => cases v with
    | notANumber => exact absurd rfl hv
    | zero t => cases s <;> exact Option.some_ne_none _
    | infinity t => cases s <;> cases t <;> exact Option.some_ne_none _
    | finite t m' e' hm' => cases s <;> cases t <;> exact Option.some_ne_none _

theorem le_eq_not_lt {u v : UnpackedFloat} (hu : u ≠ .notANumber) (hv : v ≠ .notANumber) :
    u.le v = !v.lt u := by
  rw [UnpackedFloat.lt, UnpackedFloat.le, compare_swap u v]
  cases h : u.compare v with
  | none => exact absurd h (compare_ne_none hu hv)
  | some o => cases o <;> rfl

end FloatFormat
