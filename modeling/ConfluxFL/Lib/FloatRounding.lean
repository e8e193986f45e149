import Mathlib.Algebra.Order.Field.Power
import Mathlib.Data.Rat.Cast.Order
import Mathlib.Tactic.FieldSimp
import Mathlib.Tactic.Linarith
import ConfluxFL.Lib.FloatFormat

/-! Rounding to a binary format: the result is canonical, at most one unit in its last place from
the exact value, and read back as itself when its exponent fits. -/
open Float.Model (Format UnpackedFloat totalExponent)
open Float.Model.UnpackedFloat

namespace FloatFormat
variable {spec : Format}

theorem mantissa_shiftRight (k : ℕ) (em : ExtendedMantissa) :
    (em >>> k).mantissa = em.mantissa/2^k := by
  change (k.repeat ExtendedMantissa.shiftRightOne em).mantissa = _
  induction k with
  | zero => simp [Nat.repeat]
  | succ k ih =>
    rw [Nat.repeat, ExtendedMantissa.shiftRightOne]
    change (k.repeat ExtendedMantissa.shiftRightOne em).mantissa/2 = _
    rw [ih, Nat.div_div_eq_div_mul, pow_succ]

theorem mantissa_ofMantissaAndAccuracy (m : ℕ) (acc : Accuracy) :
    (ExtendedMantissa.ofMantissaAndAccuracy m acc).mantissa = m := by
  cases acc with
  | exact => rfl
  | inexact o => cases o <;> rfl

theorem le_roundedMantissa (em : ExtendedMantissa) : em.mantissa ≤ em.roundedMantissa := by
  unfold ExtendedMantissa.roundedMantissa Accuracy.roundToNearestEven
  split <;> omega

theorem roundedMantissa_le (em : ExtendedMantissa) : em.roundedMantissa ≤ em.mantissa+1 := by
  unfold ExtendedMantissa.roundedMantissa Accuracy.roundToNearestEven
  split <;> omega

section Target
variable {m : ℕ} {e : ℤ}

/-- What is left of a mantissa at the exponent the format wants has no more bits than fit. -/
theorem div_target_lt (hm : 0 < m) :
    m/2^(spec.targetExponent (totalExponent m e)-e).toNat < 2^spec.mantissaBits := by
  rw [Nat.div_lt_iff_lt_mul (Nat.two_pow_pos _), ← pow_add]
  refine ((Nat.log2_lt hm.ne').mp ?_)
  unfold Format.targetExponent totalExponent
  omega

/-- Above the least exponent it has exactly as many. -/
theorem le_div_target (hm : 0 < m)
    (hmin : spec.targetExponent (totalExponent m e) ≠ spec.minExponent)
    (he : e ≤ spec.targetExponent (totalExponent m e)) :
    2^spec.mantissaBitsWithoutImplicit ≤
      m/2^(spec.targetExponent (totalExponent m e)-e).toNat := by
  rw [Nat.le_div_iff_mul_le (Nat.two_pow_pos _), ← pow_add]
  refine (Nat.pow_le_pow_right (by decide) ?_).trans (Nat.log2_self_le hm.ne')
  unfold Format.targetExponent totalExponent Format.mantissaBits at *
  omega

theorem canonical_of_bits (hmin : spec.minExponent ≤ e) (hlog : m.log2 < spec.mantissaBits)
    (hfull : e ≠ spec.minExponent → m.log2+1 = spec.mantissaBits) : Canonical spec m e := by
  unfold Canonical Format.targetExponent totalExponent
  omega

theorem Canonical.minExponent_le (h : Canonical spec m e) : spec.minExponent ≤ e := by
  unfold Canonical Format.targetExponent at h
  omega

theorem Canonical.log2_lt (h : Canonical spec m e) : m.log2 < spec.mantissaBits := by
  unfold Canonical Format.targetExponent totalExponent at h
  omega

theorem Canonical.log2_eq (h : Canonical spec m e) (hmin : e ≠ spec.minExponent) :
    m.log2+1 = spec.mantissaBits := by
  unfold Canonical Format.targetExponent totalExponent at h
  omega

end Target

/-- The shift after rounding: a mantissa that has grown by a bit loses its last one, a zero. -/
theorem shift_rounded {r : ℕ} {t : ℤ} (hr : 0 < r) (hle : r ≤ 2^spec.mantissaBits)
    (hmin : spec.minExponent ≤ t)
    (hfull : t ≠ spec.minExponent → 2^spec.mantissaBitsWithoutImplicit ≤ r) :
    ∃ m e, shiftToTargetExponent spec r t .exact = (⟨m,false,false⟩,e) ∧ 0 < m ∧
      Canonical spec m e ∧ t ≤ e ∧ e ≤ t+1 ∧ m*2^(e-t).toNat = r := by
  have hbits : spec.mantissaBits = 1+spec.mantissaBitsWithoutImplicit := rfl
  obtain hlt | heq := hle.lt_or_eq
  · have hlog := (Nat.log2_lt hr.ne').mpr hlt
    have hcanon : Canonical spec r t := by
      refine canonical_of_bits hmin hlog fun hne => ?_
      have := (Nat.le_log2 hr.ne').mpr (hfull hne)
      omega
    have hshift := shiftToTargetExponent_exact hr hcanon 0
    rw [pow_zero, mul_one, Nat.cast_zero, sub_zero] at hshift
    exact ⟨r,t,hshift,hr,hcanon,le_rfl,by omega,by simp⟩
  · have hpos : 0 < 2^spec.mantissaBitsWithoutImplicit := Nat.two_pow_pos _
    have hcanon : Canonical spec (2^spec.mantissaBitsWithoutImplicit) (t+1) := by
      refine canonical_of_bits (by omega) ?_ fun _ => ?_
      · rw [Nat.log2_two_pow]
        omega
      · rw [Nat.log2_two_pow]
        omega
    have hdouble : 2^spec.mantissaBitsWithoutImplicit*2^1 = r := by
      rw [heq, hbits, ← pow_add, Nat.add_comm]
    have hshift := shiftToTargetExponent_exact hpos hcanon 1
    rw [hdouble, show t+1-(1 : ℕ) = t by omega] at hshift
    refine ⟨_,_,hshift,hpos,hcanon,by omega,le_rfl,?_⟩
    rw [show (t+1-t).toNat = 1 by omega, hdouble]

section Rounded
variable {m r : ℕ} {e t : ℤ} {acc : Accuracy}

/-- The integer kept at the wanted exponent is the quotient there or the next one. -/
theorem rounded_bounds
    (hr : (ExtendedMantissa.ofMantissaAndAccuracy m acc >>> (t-e).toNat).roundedMantissa = r) :
    m/2^(t-e).toNat ≤ r ∧ r ≤ m/2^(t-e).toNat+1 := by
  obtain ⟨em,hem⟩ : ∃ em, em = ExtendedMantissa.ofMantissaAndAccuracy m acc >>> (t-e).toNat :=
    ⟨_,rfl⟩
  have hq : em.mantissa = m/2^(t-e).toNat := by
    rw [hem, mantissa_shiftRight, mantissa_ofMantissaAndAccuracy]
  rw [← hr, ← hem, ← hq]
  exact ⟨le_roundedMantissa em,roundedMantissa_le em⟩

/-- It has no more bits than fit, but for a power of two, and above the least exponent no fewer. -/
theorem rounded_bits (hm : 0 < m) (ht : spec.targetExponent (totalExponent m e) = t) (he : e ≤ t)
    (hr : (ExtendedMantissa.ofMantissaAndAccuracy m acc >>> (t-e).toNat).roundedMantissa = r) :
    r ≤ 2^spec.mantissaBits ∧
      (t ≠ spec.minExponent → 2^spec.mantissaBitsWithoutImplicit ≤ r) := by
  have hlt := @div_target_lt spec m e hm
  have hfull := @le_div_target spec m e hm
  rw [ht] at hlt hfull
  obtain ⟨hlow,hhigh⟩ := rounded_bounds hr
  exact ⟨by omega,fun hne => (hfull hne he).trans hlow⟩

/-- What rounding comes to: nothing is left, or a canonical value worth that integer. -/
theorem roundWithAccuracy_rounded (hm : 0 < m) (ht : spec.targetExponent (totalExponent m e) = t)
    (he : e ≤ t) (s : Sign)
    (hr : (ExtendedMantissa.ofMantissaAndAccuracy m acc >>> (t-e).toNat).roundedMantissa = r) :
    (r = 0 ∧ roundWithAccuracy spec s m e acc = .zero s) ∨
      ∃ m' e' h, roundWithAccuracy spec s m e acc = .finite s m' e' h ∧ Canonical spec m' e' ∧
        t ≤ e' ∧ e' ≤ t+1 ∧ m'*2^(e'-t).toNat = r := by
  obtain ⟨em,hem⟩ : ∃ em, em = ExtendedMantissa.ofMantissaAndAccuracy m acc >>> (t-e).toNat :=
    ⟨_,rfl⟩
  have hfirst : shiftToTargetExponent spec m e acc = (em,t) := by
    rw [shiftToTargetExponent, ht, shiftToExponent, ← hem]
    congr 1
    omega
  obtain ⟨hle,hfull⟩ := rounded_bits hm ht he hr
  rw [← hem] at hr
  by_cases hzero : r = 0
  · refine .inl ⟨hzero,?_⟩
    have hsecond : (shiftToTargetExponent spec 0 t .exact).1.mantissa = 0 := by
      rw [shiftToTargetExponent, shiftToExponent, mantissa_shiftRight,
        mantissa_ofMantissaAndAccuracy, Nat.zero_div]
    simp only [roundWithAccuracy, hfirst, hr, hzero]
    rw [dif_pos hsecond]
  · have hmin : spec.minExponent ≤ t := by
      rw [← ht]
      exact le_max_right _ _
    obtain ⟨m',e',hsecond,hpos,hcanon,hte,het,hmul⟩ :=
      shift_rounded (Nat.pos_of_ne_zero hzero) hle hmin hfull
    refine .inr ⟨m',e',hpos,?_,hcanon,hte,het,hmul⟩
    simp only [roundWithAccuracy, hfirst, hr, hsecond, dif_neg hpos.ne']

/-- The same without the integer: a canonical value next to the exact one. -/
theorem roundWithAccuracy_cases (hm : 0 < m) (ht : spec.targetExponent (totalExponent m e) = t)
    (he : e ≤ t) (s : Sign) (acc : Accuracy) :
    (m/2^(t-e).toNat = 0 ∧ roundWithAccuracy spec s m e acc = .zero s) ∨
      ∃ m' e' h, roundWithAccuracy spec s m e acc = .finite s m' e' h ∧ Canonical spec m' e' ∧
        t ≤ e' ∧ e' ≤ t+1 ∧ m/2^(t-e).toNat ≤ m'*2^(e'-t).toNat ∧
        m'*2^(e'-t).toNat ≤ m/2^(t-e).toNat+1 := by
  obtain ⟨r,hr⟩ : ∃ r, (ExtendedMantissa.ofMantissaAndAccuracy m acc >>>
    (t-e).toNat).roundedMantissa = r := ⟨_,rfl⟩
  obtain ⟨hlow,hhigh⟩ := rounded_bounds hr
  obtain ⟨hzero,heq⟩ | ⟨m',e',hpos,heq,hcanon,hte,het,hmul⟩ :=
    roundWithAccuracy_rounded hm ht he s hr
  · exact .inl ⟨Nat.eq_zero_of_le_zero (hzero ▸ hlow),heq⟩
  · exact .inr ⟨m',e',hpos,heq,hcanon,hte,het,hmul.symm ▸ hlow,hmul.symm ▸ hhigh⟩

end Rounded

theorem unpackSign_packComponents (s : Sign) (x : BitVec spec.exponentBits)
    (v : BitVec spec.mantissaBitsWithoutImplicit) :
    Sign.ofBitVec (unpackSign (packComponents spec s x v)) = s := by
  have hsign : unpackSign (packComponents spec s x v) = s.toBitVec := by
    apply BitVec.eq_of_getLsbD_eq
    intro i hi
    obtain rfl : i = 0 := by omega
    simp [unpackSign, packComponents, BitVec.getLsbD_append, BitVec.getElem_append]
  rw [hsign]
  cases s <;> rfl

/-- A canonical value whose exponent fits is read back from its pattern. -/
theorem unpack_pack {m : ℕ} {e : ℤ} (hm : 0 < m) (h : Canonical spec m e)
    (hmax : e+spec.exponentBias+spec.mantissaBitsWithoutImplicit+1 < 2^spec.exponentBits)
    (s : Sign) : unpack spec (pack spec (.finite s m e hm)) = .finite s m e hm := by
  have hleast := h.minExponent_le
  have hmin := @minExponent_eq spec
  have hlog := h.log2_lt
  have hbits : spec.mantissaBits = 1+spec.mantissaBitsWithoutImplicit := rfl
  obtain ⟨x,hx⟩ : ∃ x, (e+spec.exponentBias+spec.mantissaBitsWithoutImplicit).toNat = x :=
    ⟨_,rfl⟩
  have hcast : ((2^spec.exponentBits : ℕ) : ℤ) = 2^spec.exponentBits := by norm_cast
  have hx1 : 1 ≤ x := by omega
  have hxmax : x+1 < 2^spec.exponentBits := by omega
  have hones {y : ℕ} (hy : y+1 < 2^spec.exponentBits) :
      BitVec.ofNat spec.exponentBits y ≠ -1#_ := by
    intro heq
    have := congrArg BitVec.toNat heq
    rw [BitVec.neg_one_eq_allOnes, BitVec.toNat_allOnes, BitVec.toNat_ofNat,
      Nat.mod_eq_of_lt (by omega)] at this
    omega
  rw [pack, hx, if_neg (by omega)]
  by_cases hnormal : m.log2+1 = spec.mantissaBits
  · have hpow : 2^spec.mantissaBitsWithoutImplicit ≤ m := by
      rw [← Nat.le_log2 hm.ne']
      omega
    have hsmall : m < 2^spec.mantissaBits := (Nat.log2_lt hm.ne').mp hlog
    have hzero : BitVec.ofNat spec.exponentBits x ≠ 0#_ := by
      intro heq
      have := congrArg BitVec.toNat heq
      rw [BitVec.toNat_ofNat, Nat.mod_eq_of_lt (by omega), BitVec.toNat_zero] at this
      omega
    have hmant : (1#1++BitVec.ofNat spec.mantissaBitsWithoutImplicit m).toNat = m := by
      rw [hbits, pow_add, pow_one] at hsmall
      rw [toNat_implicit, BitVec.toNat_ofNat, Nat.mod_eq_sub_mod hpow,
        Nat.mod_eq_of_lt (by omega)]
      omega
    have hexp : ((BitVec.ofNat spec.exponentBits x).toNat : ℤ)-
        (spec.exponentBias+spec.mantissaBitsWithoutImplicit) = e := by
      rw [BitVec.toNat_ofNat, Nat.mod_eq_of_lt (by omega)]
      omega
    rw [if_pos hnormal, unpack]
    simp only [unpackExponent_packComponents, unpackMantissa_packComponents,
      unpackSign_packComponents, if_neg (hones hxmax), if_neg hzero, hexp, hmant]
  · have heq : e = spec.minExponent := by
      by_contra hne
      exact hnormal (h.log2_eq hne)
    have hsmall : m < 2^spec.mantissaBitsWithoutImplicit := by
      rw [← Nat.log2_lt hm.ne']
      omega
    have hmant : (BitVec.ofNat spec.mantissaBitsWithoutImplicit m).toNat = m := by
      rw [BitVec.toNat_ofNat, Nat.mod_eq_of_lt hsmall]
    have hzero : BitVec.ofNat spec.mantissaBitsWithoutImplicit m ≠ 0#_ := by
      intro h0
      rw [h0, BitVec.toNat_zero] at hmant
      omega
    have hexp : ((0#(spec.exponentBits)).toNat : ℤ)-
        (spec.exponentBias+spec.mantissaBitsWithoutImplicit)+1 = e := by
      rw [BitVec.toNat_zero]
      omega
    rw [if_neg hnormal, unpack]
    simp only [unpackExponent_packComponents, unpackMantissa_packComponents,
      unpackSign_packComponents, if_neg (hones (show 0+1 < _ by omega)), if_pos, hexp,
      dif_neg hzero, hmant]

/-! The same in numbers: what a value is worth, and how much rounding changes it. -/

/-- The value of a finite number without its sign; what is not finite counts as zero. -/
def magnitude : UnpackedFloat → ℚ
  | .finite _ m e _ => m*2^e
  | _ => 0

/-- One unit in the last place, relative to the values of the most bits. -/
def ulp (spec : Format) : ℚ := (2^spec.mantissaBitsWithoutImplicit)⁻¹

theorem ulp_pos : 0 < ulp spec := by
  unfold ulp
  positivity

/-- The unit at the exponent the format wants is small against the value, or the least of all. -/
theorem unit_le {m : ℕ} {e t : ℤ} (hm : 0 < m)
    (ht : spec.targetExponent (totalExponent m e) = t) :
    (2 : ℚ)^t ≤ m*2^e*ulp spec+2^spec.minExponent := by
  have hpow : (0 : ℚ) < 2^t := zpow_pos (by norm_num) t
  have hleast : (0 : ℚ) < 2^spec.minExponent := zpow_pos (by norm_num) _
  have hval : (0 : ℚ) ≤ m*2^e*ulp spec :=
    mul_nonneg (mul_nonneg (Nat.cast_nonneg m) (zpow_nonneg (by norm_num) e)) ulp_pos.le
  by_cases hmin : t = spec.minExponent
  · rw [hmin]
    linarith
  · have hlog : t+spec.mantissaBitsWithoutImplicit = m.log2+e := by
      unfold Format.targetExponent totalExponent Format.mantissaBits at ht
      omega
    have hself : ((2^m.log2 : ℕ) : ℚ) ≤ m := Nat.cast_le.mpr (Nat.log2_self_le hm.ne')
    have hle : (2 : ℚ)^(t+spec.mantissaBitsWithoutImplicit) ≤ m*2^e := by
      rw [hlog, zpow_add₀ (by norm_num)]
      push_cast at hself
      exact mul_le_mul_of_nonneg_right (by simpa using hself) (zpow_nonneg (by norm_num) e)
    have hunit : (2 : ℚ)^t ≤ m*2^e*ulp spec := by
      rw [ulp, ← div_eq_mul_inv, le_div_iff₀ (by positivity)]
      rw [zpow_add₀ (by norm_num), zpow_natCast] at hle
      exact hle
    linarith

/-- The quotient that is left at the wanted exponent, as a value. -/
theorem div_two_pow_bounds (m : ℕ) {e t : ℤ} (he : e ≤ t) :
    ((m/2^(t-e).toNat : ℕ) : ℚ)*2^t ≤ m*2^e ∧
      (m : ℚ)*2^e ≤ ((m/2^(t-e).toNat : ℕ) : ℚ)*2^t+2^t := by
  obtain ⟨k,rfl⟩ : ∃ k : ℕ, t = e+k := ⟨(t-e).toNat,by omega⟩
  have hk : (e+(k : ℤ)-e).toNat = k := by omega
  have hpow : (0 : ℚ) < 2^e := zpow_pos (by norm_num) e
  have hlow : ((m/2^k*2^k : ℕ) : ℚ) ≤ m := Nat.cast_le.mpr (Nat.div_mul_le_self m _)
  have hhigh : (m : ℚ) ≤ ((m/2^k*2^k+2^k : ℕ) : ℚ) := by
    refine Nat.cast_le.mpr ?_
    have := Nat.lt_div_mul_add (a := m) (Nat.two_pow_pos k)
    omega
  push_cast at hlow hhigh
  rw [hk, zpow_add₀ (by norm_num), zpow_natCast]
  constructor
  · calc _ = ((m/2^k : ℕ) : ℚ)*2^k*2^e := by ring
      _ ≤ m*2^e := mul_le_mul_of_nonneg_right hlow hpow.le
  · calc (m : ℚ)*2^e ≤ (((m/2^k : ℕ) : ℚ)*2^k+2^k)*2^e := mul_le_mul_of_nonneg_right hhigh hpow.le
      _ = _ := by ring

/-- A rounded value, `q` units at exponent `t` or one more. -/
theorem magnitude_bounds {m' q : ℕ} {e' t : ℤ} (hte : t ≤ e') (hlow : q ≤ m'*2^(e'-t).toNat)
    (hhigh : m'*2^(e'-t).toNat ≤ q+1) :
    (q : ℚ)*2^t ≤ m'*2^e' ∧ (m' : ℚ)*2^e' ≤ q*2^t+2^t := by
  obtain ⟨k,rfl⟩ : ∃ k : ℕ, e' = t+k := ⟨(e'-t).toNat,by omega⟩
  have hk : (t+(k : ℤ)-t).toNat = k := by omega
  have hpow : (0 : ℚ) < 2^t := zpow_pos (by norm_num) t
  rw [hk] at hlow hhigh
  have hlow' : (q : ℚ) ≤ ((m'*2^k : ℕ) : ℚ) := Nat.cast_le.mpr hlow
  have hhigh' : ((m'*2^k : ℕ) : ℚ) ≤ ((q+1 : ℕ) : ℚ) := Nat.cast_le.mpr hhigh
  push_cast at hlow' hhigh'
  have heq : (m' : ℚ)*2^(t+(k : ℤ)) = m'*2^k*2^t := by
    rw [zpow_add₀ (by norm_num), zpow_natCast]
    ring
  rw [heq]
  constructor
  · exact mul_le_mul_of_nonneg_right hlow' hpow.le
  · calc (m' : ℚ)*2^k*2^t ≤ (q+1)*2^t := mul_le_mul_of_nonneg_right hhigh' hpow.le
      _ = q*2^t+2^t := by ring

/-- Rounding gives a zero or a canonical number of the same sign, whose value is off by at most
one unit in the last place. -/
theorem roundWithAccuracy_spec {m : ℕ} {e : ℤ} (hm : 0 < m)
    (he : e ≤ spec.targetExponent (totalExponent m e)) (s : Sign) (acc : Accuracy) :
    (roundWithAccuracy spec s m e acc = .zero s ∨
      ∃ m' e' h, roundWithAccuracy spec s m e acc = .finite s m' e' h ∧ Canonical spec m' e') ∧
    m*2^e*(1-ulp spec)-2^spec.minExponent ≤ magnitude (roundWithAccuracy spec s m e acc) ∧
    magnitude (roundWithAccuracy spec s m e acc) ≤ m*2^e*(1+ulp spec)+2^spec.minExponent := by
  obtain ⟨t,ht⟩ : ∃ t, spec.targetExponent (totalExponent m e) = t := ⟨_,rfl⟩
  rw [ht] at he
  have hunit := unit_le hm ht
  obtain ⟨hdlow,hdhigh⟩ := div_two_pow_bounds m he
  have hpow : (0 : ℚ) < 2^t := zpow_pos (by norm_num) t
  obtain ⟨hq,hzero⟩ | ⟨m',e',hpos,heq,hcanon,hte,-,hlow,hhigh⟩ :=
    roundWithAccuracy_cases hm ht he s acc
  · rw [hq, Nat.cast_zero, zero_mul] at hdlow hdhigh
    rw [hzero]
    change _ ∧ _ ≤ (0 : ℚ) ∧ (0 : ℚ) ≤ _
    exact ⟨.inl rfl,by linarith,by linarith⟩
  · obtain ⟨hmlow,hmhigh⟩ := magnitude_bounds hte hlow hhigh
    rw [heq]
    change _ ∧ _ ≤ (m' : ℚ)*2^e' ∧ (m' : ℚ)*2^e' ≤ _
    exact ⟨.inr ⟨m',e',hpos,rfl,hcanon⟩,by linarith,by linarith⟩

/-- A number with too large an exponent is first written with a smaller one. -/
theorem round_eq {m : ℕ} (e : ℤ) (hm : 0 < m) (s : Sign) : ∃ (m' : ℕ) (e' : ℤ),
    UnpackedFloat.round spec s m e = roundWithAccuracy spec s m' e' .exact ∧ 0 < m' ∧
      (m' : ℚ)*2^e' = m*2^e ∧ e' ≤ spec.targetExponent (totalExponent m' e') := by
  obtain ⟨k,hk⟩ : ∃ k, k = (e-spec.targetExponent (totalExponent m e)).toNat := ⟨_,rfl⟩
  refine ⟨m*2^k,e-k,?_,Nat.mul_pos hm (Nat.two_pow_pos k),?_,?_⟩
  · simp only [UnpackedFloat.round, decreaseExponent, Nat.shiftLeft_eq, ← hk]
  · rw [zpow_sub₀ (by norm_num), zpow_natCast]
    push_cast
    field_simp
  · have htotal : totalExponent (m*2^k) (e-k) = totalExponent m e := by
      rw [totalExponent, totalExponent, log2_mul_two_pow hm]
      omega
    rw [htotal]
    omega

theorem round_spec {m : ℕ} (e : ℤ) (hm : 0 < m) (s : Sign) :
    (UnpackedFloat.round spec s m e = .zero s ∨
      ∃ m' e' h, UnpackedFloat.round spec s m e = .finite s m' e' h ∧ Canonical spec m' e') ∧
    m*2^e*(1-ulp spec)-2^spec.minExponent ≤ magnitude (UnpackedFloat.round spec s m e) ∧
    magnitude (UnpackedFloat.round spec s m e) ≤ m*2^e*(1+ulp spec)+2^spec.minExponent := by
  obtain ⟨m',e',hround,hpos,hvalue,htarget⟩ := @round_eq spec m e hm s
  rw [hround, ← hvalue]
  exact roundWithAccuracy_spec hpos htarget s .exact

/-- What a pattern can hold: nothing of `2^(2^(exponentBits-1))` or more. -/
theorem unpack_pack_of_lt {m : ℕ} {e : ℤ} (hm : 0 < m) (h : Canonical spec m e)
    (hbits : 1 < spec.exponentBits) (hlt : (m : ℚ)*2^e < 2^2^(spec.exponentBits-1)) (s : Sign) :
    unpack spec (pack spec (.finite s m e hm)) = .finite s m e hm := by
  have hmin := @minExponent_eq spec
  have hhalf : 2^spec.exponentBits = 2*2^(spec.exponentBits-1) := by
    rw [← pow_succ', Nat.sub_add_cancel (by omega)]
  have hhalf' : ((2^spec.exponentBits : ℕ) : ℤ) = 2*((2^(spec.exponentBits-1) : ℕ) : ℤ) := by
    exact_mod_cast hhalf
  have htwo : 2^1 ≤ 2^(spec.exponentBits-1) := Nat.pow_le_pow_right (by decide) (by omega)
  have hbias : spec.exponentBias = 2^(spec.exponentBits-1)-1 := rfl
  have hcast : ((2^spec.exponentBits : ℕ) : ℤ) = 2^spec.exponentBits := by norm_cast
  refine unpack_pack hm h ?_ s
  rw [← hcast]
  by_cases hleast : e = spec.minExponent
  · omega
  · have hlog := h.log2_eq hleast
    have hself : ((2^m.log2 : ℕ) : ℚ) ≤ m := Nat.cast_le.mpr (Nat.log2_self_le hm.ne')
    have hpow : (2 : ℚ)^((m.log2 : ℤ)+e) < 2^((2^(spec.exponentBits-1) : ℕ) : ℤ) := by
      rw [zpow_add₀ (by norm_num), zpow_natCast, zpow_natCast]
      push_cast at hself
      exact (mul_le_mul_of_nonneg_right hself (zpow_nonneg (by norm_num) e)).trans_lt hlt
    have hexp := (zpow_lt_zpow_iff_right₀ (by norm_num : (1 : ℚ) < 2)).mp hpow
    have hmb : spec.mantissaBits = 1+spec.mantissaBitsWithoutImplicit := rfl
    omega

end FloatFormat
