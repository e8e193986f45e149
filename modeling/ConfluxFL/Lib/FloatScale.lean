import ConfluxFL.Lib.FloatLaws

/-! Products and integer parts of single-precision values, up to a rounding. -/
open Float.Model (Format UnpackedFloat totalExponent)
open Float.Model.UnpackedFloat

namespace FloatFormat
variable {spec : Format}

theorem log2_le_log2_mul {m n : ℕ} (hm : 0 < m) (hn : 0 < n) : m.log2 ≤ (m*n).log2 :=
  (Nat.le_log2 (Nat.mul_pos hm hn).ne').mpr
    ((Nat.log2_self_le hm.ne').trans (Nat.le_mul_of_pos_right m hn))

/-- The exact product of canonical mantissas has all the bits its rounding needs. -/
theorem Canonical.mul_exponent_le {m n : ℕ} {e t : ℤ} (hm : 0 < m) (hn : 0 < n)
    (h : Canonical spec m e) (h' : Canonical spec n t) (hmin : spec.minExponent ≤ 0) :
    e+t ≤ spec.targetExponent (totalExponent (m*n) (e+t)) := by
  have hleft := log2_le_log2_mul hm hn
  have hright := log2_le_log2_mul hn hm
  rw [Nat.mul_comm] at hright
  have hfull := h.log2_eq
  have hfull' := h'.log2_eq
  unfold Format.targetExponent totalExponent
  by_cases he : e = spec.minExponent
  · by_cases ht : t = spec.minExponent
    · omega
    · have := hfull' ht
      omega
  · have := hfull he
    omega

/-- A product is the exact one up to a rounding. -/
theorem mul_spec {m n : ℕ} {e t : ℤ} (hm : 0 < m) (hn : 0 < n) (h : Canonical spec m e)
    (h' : Canonical spec n t) (hmin : spec.minExponent ≤ 0) (s s' : Sign) :
    (mul spec (.finite s m e hm) (.finite s' n t hn) = .zero (s*s') ∨ ∃ m' e' hm',
      mul spec (.finite s m e hm) (.finite s' n t hn) = .finite (s*s') m' e' hm' ∧
        Canonical spec m' e') ∧
    m*2^e*(n*2^t)*(1-ulp spec)-2^spec.minExponent ≤
      magnitude (mul spec (.finite s m e hm) (.finite s' n t hn)) ∧
    magnitude (mul spec (.finite s m e hm) (.finite s' n t hn)) ≤
      m*2^e*(n*2^t)*(1+ulp spec)+2^spec.minExponent := by
  have hvalue : (m : ℚ)*2^e*(n*2^t) = ((m*n : ℕ) : ℚ)*2^(e+t) := by
    rw [zpow_add₀ (by norm_num)]
    push_cast
    ring
  rw [hvalue]
  exact roundWithAccuracy_spec (Nat.mul_pos hm hn) (h.mul_exponent_le hm hn h' hmin) (s*s') .exact

/-- Rounding to zero takes the integer part. -/
theorem roundToInt_positive (m : ℕ) (e : ℤ) : ∃ r : ℕ, roundToInt .positive m e = r ∧
    (r : ℚ) ≤ m*2^e ∧ (m : ℚ)*2^e < r+1 := by
  have hpart : roundToInt .positive m e =
      ((m*2^(e-0).toNat/2^(0-(e-((e-0).toNat : ℤ))).toNat : ℕ) : ℤ) := by
    simp only [roundToInt, decreaseExponent, shiftToExponent, mantissa_shiftRight,
      mantissa_ofMantissaAndAccuracy, Nat.shiftLeft_eq]
    rfl
  refine ⟨_,hpart,?_⟩
  obtain ⟨k,rfl | rfl⟩ := e.eq_nat_or_neg
  · rw [show ((k : ℤ)-0).toNat = k by omega, show (0-((k : ℤ)-(k : ℤ))).toNat = 0 by omega,
      pow_zero, Nat.div_one, zpow_natCast]
    push_cast
    exact ⟨le_rfl,lt_add_one _⟩
  · have hpow : (0 : ℚ) < 2^k := by positivity
    have hle : ((m/2^k*2^k : ℕ) : ℚ) ≤ m := Nat.cast_le.mpr (Nat.div_mul_le_self m _)
    have hlt : (m : ℚ) < (((m/2^k+1)*2^k : ℕ) : ℚ) :=
      Nat.cast_lt.mpr
      ((Nat.div_lt_iff_lt_mul (Nat.two_pow_pos k)).mp (Nat.lt_succ_self (m/2^k)))
    push_cast at hle hlt
    rw [show (-(k : ℤ)-0).toNat = 0 by omega, show (0-(-(k : ℤ)-((0 : ℕ) : ℤ))).toNat = k by omega,
      pow_zero, Nat.mul_one, zpow_neg, zpow_natCast, ← div_eq_mul_inv]
    exact ⟨(le_div_iff₀ hpow).mpr hle,(div_lt_iff₀ hpow).mpr hlt⟩

/-- A number above zero. -/
def Positive : UnpackedFloat → Prop
  | .finite .positive _ _ _ | .infinity .positive => True
  | _ => False

theorem positive_cases {u : UnpackedFloat} (h : Positive u) :
    u = .infinity .positive ∨ ∃ m e hm, u = .finite .positive m e hm := by
  cases u with
  | notANumber => cases h
  | zero s => cases h
  | infinity s =>
    cases s with
    | positive => exact .inl rfl
    | negative => cases h
  | finite s m e hm =>
    cases s with
    | positive => exact .inr ⟨m,e,hm,rfl⟩
    | negative => cases h

/-- A product with a positive number is positive only if the other factor is. -/
theorem positive_of_mul {u : UnpackedFloat} {n : ℕ} {t : ℤ} {hn : 0 < n}
    (h : Positive (mul spec u (.finite .positive n t hn))) : Positive u := by
  cases u with
  | notANumber => cases h
  | zero s => cases s <;> cases h
  | infinity s => cases s <;> exact h
  | finite s m e hm =>
    cases s with
    | positive => trivial
    | negative =>
      obtain hzero | ⟨m',e',hm',hfinite⟩ :=
        @roundWithAccuracy_sign spec (.negative*.positive) (m*n) (e+t) .exact
      · rw [mul, hzero] at h
        cases h
      · rw [mul, hfinite] at h
        cases h

end FloatFormat

namespace F32
open FloatFormat
variable (x : F32)

theorem toNat_ofNatClamp (n : ℕ) : (UInt64.ofNatClamp n).toNat = min n (2^64-1) := by
  unfold UInt64.ofNatClamp
  split
  · next h =>
    have hlt : n < 2^64 := h
    rw [UInt64.toNat_ofNatLT]
    omega
  · next h =>
    have hge : 2^64 ≤ n := Nat.le_of_not_lt h
    rw [UInt64.toNat_ofNatLT]
    change 2^64-1 = _
    omega

theorem floorToNat_eq : x.floorToNat = min (x.unpacked.toInt 0 (2^64-1)).toNat (2^64-1) := by
  rw [← value_unpacked]
  exact toNat_ofNatClamp _

/-- The integer part of a number that fits. -/
theorem floorToNat_of_finite {x : F32} {m : ℕ} {e : ℤ} {hm : 0 < m}
    (h : x.unpacked = .finite .positive m e hm) : ∃ r : ℕ, x.floorToNat = min r (2^64-1) ∧
      (r : ℚ) ≤ m*2^e ∧ (m : ℚ)*2^e < r+1 := by
  obtain ⟨r,hr,hbounds⟩ := roundToInt_positive m e
  refine ⟨r,?_,hbounds⟩
  rw [floorToNat_eq, h, toInt, hr, Int.toNat_natCast]

/-- Only a positive number has an integer part. -/
theorem positive_of_floorToNat {x : F32} (h : 0 < x.floorToNat) : Positive x.unpacked := by
  rw [floorToNat_eq] at h
  cases hu : x.unpacked with
  | notANumber =>
    rw [hu] at h
    exact absurd h (lt_irrefl 0)
  | zero s =>
    rw [hu] at h
    exact absurd h (lt_irrefl 0)
  | infinity s =>
    cases s with
    | positive => trivial
    | negative =>
      rw [hu] at h
      exact absurd h (lt_irrefl 0)
  | finite s m e hm =>
    cases s with
    | positive => trivial
    | negative =>
      have hneg : roundToInt .negative m e ≤ 0 := by
        simp only [roundToInt, Sign.apply]
        omega
      rw [hu, toInt] at h
      omega

theorem positive_of_stored {u : UnpackedFloat} (h : Positive (stored u)) : Positive u := by
  cases u with
  | notANumber => exact h
  | zero s => cases s <;> exact h
  | infinity s => cases s <;> exact h
  | finite s m e hm =>
    cases s with
    | positive => trivial
    | negative =>
      unfold stored at h
      obtain hu | hu | ⟨m',e',hm',hu⟩ := @unpack_pack_cases .binary32 .negative m e hm <;>
        rw [hu] at h <;> exact h

/-- From some exponent on values are too large to be stored. -/
theorem stored_of_large (s : Sign) {m : ℕ} {e : ℤ} (hm : 0 < m) (he : 105 ≤ e) :
    stored (.finite s m e hm) = .infinity s := by
  have hmax : 2^Format.exponentBits .binary32 ≤ (e+Format.exponentBias .binary32+
      Format.mantissaBitsWithoutImplicit .binary32).toNat+1 :=
    show 2^8 ≤ (e+127+23).toNat+1 by omega
  unfold stored
  rw [pack, if_pos hmax]
  cases s <;> rfl

/-- A canonical value is stored, or too large for it. -/
theorem stored_cases (s : Sign) {m : ℕ} {e : ℤ} (hm : 0 < m) (h : Canonical .binary32 m e) :
    stored (.finite s m e hm) = .finite s m e hm ∨ stored (.finite s m e hm) = .infinity s := by
  by_cases he : e < 105
  · exact .inl (unpack_pack hm h (show e+127+23+1 < 2^8 by omega) s)
  · exact .inr (stored_of_large s hm (by omega))

theorem floorToNat_of_infinity {x : F32} (h : x.unpacked = .infinity .positive) :
    x.floorToNat = 2^64-1 := by
  rw [floorToNat_eq, h]
  rfl

theorem floorToNat_lt : x.floorToNat < 2^64 := by
  rw [floorToNat_eq]
  omega

section Factor
variable {x : F32} {n : ℕ} (hn : 0 < n) (hmax : n < 2^127)
include hn hmax

/-- A product with an integer has an integer part only if the other factor is positive. -/
theorem positive_of_floorToNat_mul (h : 0 < (x*ofNat n).floorToNat) : Positive x.unpacked := by
  obtain ⟨k,t,hk,hu,-⟩ := unpacked_ofNat_of_lt hn hmax
  have hproduct := positive_of_floorToNat h
  rw [unpacked_mul, hu] at hproduct
  exact positive_of_mul (positive_of_stored hproduct)

theorem floorToNat_infinity_mul (h : x.unpacked = .infinity .positive) :
    (x*ofNat n).floorToNat = 2^64-1 := by
  obtain ⟨k,t,hk,hu,-⟩ := unpacked_ofNat_of_lt hn hmax
  have hproduct := unpacked_mul x (ofNat n)
  rw [h, hu] at hproduct
  have hst : stored (mul .binary32 (.infinity .positive) (.finite .positive k t hk)) =
      .infinity .positive := by
    rw [mul]
    rfl
  exact floorToNat_of_infinity (hproduct.trans hst)

end Factor

section Scale
variable {x : F32} {m n : ℕ} {e : ℤ} {hm : 0 < m}

/-- The integer part of a product with an integer, when it is not cut off: the product is hardly
larger. -/
theorem mul_lt_of_floorToNat (hx : x.unpacked = .finite .positive m e hm) (hn : 0 < n)
    (hmax : n < 2^127) {f : ℕ} (hf : f < 2^64-1) (h : (x*ofNat n).floorToNat = f) :
    (m : ℚ)*2^e*(n*(1-ulp .binary32)-2^(-149 : ℤ))*(1-ulp .binary32) < f+1+2^(-149 : ℤ) := by
  obtain ⟨k,t,hk,hu,hcanon,hlow,-⟩ := unpacked_ofNat_of_lt hn hmax
  have hvalue : (0 : ℚ) ≤ m*2^e := mul_nonneg (Nat.cast_nonneg m) (zpow_nonneg (by norm_num) e)
  have hcanon' : Canonical .binary32 m e := canonical_of_unpack (by decide) hx
  obtain ⟨hform,hbelow,-⟩ := mul_spec hm hk hcanon' hcanon (by decide) .positive .positive
  rw [minExponent_binary32] at hbelow
  have hsmall : magnitude (mul .binary32 (.finite .positive m e hm) (.finite .positive k t hk)) <
      f+1 := by
    have hproduct := unpacked_mul x (ofNat n)
    rw [hx, hu] at hproduct
    obtain hzero | ⟨m',e',hm',hfinite,hcanon''⟩ := hform
    · rw [hzero]
      exact Nat.cast_add_one_pos f
    · rw [hfinite] at hproduct ⊢
      obtain hst | hst := stored_cases (.positive*.positive) hm' hcanon''
      · obtain ⟨r,hr,-,hlt⟩ := floorToNat_of_finite (hproduct.trans hst)
        obtain rfl : r = f := by omega
        exact hlt
      · have := floorToNat_of_infinity (hproduct.trans hst)
        omega
  have hfactor : (m : ℚ)*2^e*(n*(1-ulp .binary32)-2^(-149 : ℤ))*(1-ulp .binary32) ≤
      m*2^e*(k*2^t)*(1-ulp .binary32) := by
    refine mul_le_mul_of_nonneg_right (mul_le_mul_of_nonneg_left hlow hvalue) ?_
    rw [ulp_binary32]
    norm_num
  linarith

/-- And when the product is small, so is its integer part. -/
theorem floorToNat_mul_lt (hx : x.unpacked = .finite .positive m e hm) (hn : 0 < n)
    (hmax : n < 2^127) {f : ℕ} (hf : 0 < f) (hfmax : f < 2^64)
    (h : (m : ℚ)*2^e*(n*(1+ulp .binary32)+2^(-149 : ℤ))*(1+ulp .binary32)+2^(-149 : ℤ) < f) :
    (x*ofNat n).floorToNat < f := by
  obtain ⟨k,t,hk,hu,hcanon,-,hhigh⟩ := unpacked_ofNat_of_lt hn hmax
  have hvalue : (0 : ℚ) ≤ m*2^e := mul_nonneg (Nat.cast_nonneg m) (zpow_nonneg (by norm_num) e)
  have hcanon' : Canonical .binary32 m e := canonical_of_unpack (by decide) hx
  obtain ⟨hform,-,habove⟩ := mul_spec hm hk hcanon' hcanon (by decide) .positive .positive
  rw [minExponent_binary32] at habove
  have hfactor : (m : ℚ)*2^e*(k*2^t)*(1+ulp .binary32) ≤
      m*2^e*(n*(1+ulp .binary32)+2^(-149 : ℤ))*(1+ulp .binary32) := by
    refine mul_le_mul_of_nonneg_right (mul_le_mul_of_nonneg_left hhigh hvalue) ?_
    rw [ulp_binary32]
    norm_num
  have hproduct := unpacked_mul x (ofNat n)
  rw [hx, hu] at hproduct
  obtain hzero | ⟨m',e',hm',hfinite,hcanon''⟩ := hform
  · rw [floorToNat_eq, hproduct, hzero]
    exact hf
  · rw [hfinite] at hproduct habove
    have hlt : (m' : ℚ)*2^e' < f := (habove.trans (by linarith)).trans_lt h
    have hfits : (m' : ℚ)*2^e' < 2^128 := by
      have : (f : ℚ) < 2^64 := by exact_mod_cast hfmax
      exact hlt.trans (this.trans (by norm_num))
    rw [stored_of_finite _ hm' hcanon'' hfits] at hproduct
    obtain ⟨r,hr,hle,-⟩ := floorToNat_of_finite hproduct
    have : (r : ℚ) < f := hle.trans_lt hlt
    have : r < f := by exact_mod_cast this
    omega

/-- Rounding does not make up for a scale that is more than halved. -/
theorem half_scale {v f n ε : ℚ} (hv : 0 < v) (hn : 4*f+3 ≤ n) (hf : 1 ≤ f)
    (hsmall : ε ≤ 1/1000000) (hpos : 0 < ε)
    (hlow : v*(n*(1-1/8388608)-ε)*(1-1/8388608) < f+1+ε) :
    v*((2*f+1)*(1+1/8388608)+ε)*(1+1/8388608)+ε < f := by
  have hbelow : v*(4*f+3)*(9999/10000) ≤ v*(n*(1-1/8388608)-ε)*(1-1/8388608) := by
    rw [mul_assoc, mul_assoc]
    refine mul_le_mul_of_nonneg_left ?_ hv.le
    nlinarith
  have habove : v*((2*f+1)*(1+1/8388608)+ε)*(1+1/8388608) ≤ v*(2*f+1)*(10001/10000) := by
    rw [mul_assoc, mul_assoc]
    refine mul_le_mul_of_nonneg_left ?_ hv.le
    nlinarith
  by_contra hge
  -- then `v` would have to be near `1/2`, while it is below `(f+1)/(4f+3)`
  have hlarge : (f-1/1000000)*(10000/10001) ≤ v*(2*f+1) := by linarith
  have hless : v*(4*f+3) < (f+1+1/1000000)*(10000/9999) := by linarith
  have hup : (f-1/1000000)*(10000/10001)*(4*f+3) ≤ v*(4*f+3)*(2*f+1) := by
    nlinarith
  have hdown : v*(4*f+3)*(2*f+1) < (f+1+1/1000000)*(10000/9999)*(2*f+1) := by
    nlinarith
  nlinarith

/-- What is left of the integer part at less than half the scale. -/
theorem floorToNat_half {f : ℕ} (hf : 0 < f) (hn : 4*f+3 ≤ n) (hmax : n < 2^64)
    (h : min (x*ofNat n).floorToNat (n-1) = f) : (x*ofNat (2*f+1)).floorToNat < f := by
  have hfloor : (x*ofNat n).floorToNat = f := by omega
  have hpositive := positive_of_floorToNat_mul (show 0 < n by omega) (by omega) (hfloor ▸ hf)
  obtain hinf | ⟨m,e,hm,hx⟩ := positive_cases hpositive
  · have := floorToNat_infinity_mul (show 0 < n by omega) (by omega) hinf
    omega
  · have hlow := mul_lt_of_floorToNat hx (show 0 < n by omega) (by omega)
      (show f < 2^64-1 by omega) hfloor
    refine floorToNat_mul_lt hx (by omega) (by omega) hf (by omega) ?_
    have hvalue : (0 : ℚ) < m*2^e := mul_pos (Nat.cast_pos.mpr hm) (zpow_pos (by norm_num) e)
    have hn' : (4*f+3 : ℚ) ≤ n := by exact_mod_cast hn
    have hf' : (1 : ℚ) ≤ f := by exact_mod_cast hf
    have hleast : (2 : ℚ)^(-149 : ℤ) ≤ 1/1000000 := by norm_num
    have hleast' : (0 : ℚ) < 2^(-149 : ℤ) := by norm_num
    rw [ulp_binary32] at hlow ⊢
    push_cast
    exact half_scale hvalue hn' hf' hleast hleast' hlow

end Scale

section Share

/-- Every number is below `2^128`. -/
theorem value_lt {x : F32} {s : Sign} {m : ℕ} {e : ℤ} {hm : 0 < m}
    (h : x.unpacked = .finite s m e hm) : (m : ℚ)*2^e < 2^128 := by
  have hcanon : Canonical .binary32 m e := canonical_of_unpack (by decide) h
  have hstored := stored_unpacked x
  rw [h] at hstored
  have he : e < 105 := by
    by_contra hlarge
    rw [stored_of_large s hm (by omega)] at hstored
    cases hstored
  have hbits : m < 2^24 := (Nat.log2_lt hm.ne').mp hcanon.log2_lt
  have hbits' : (m : ℚ) < 2^24 := by exact_mod_cast hbits
  have hpow : (2 : ℚ)^e ≤ 2^(104 : ℤ) := zpow_le_zpow_right₀ (by norm_num) (by omega)
  calc (m : ℚ)*2^e < 2^24*2^e := mul_lt_mul_of_pos_right hbits' (zpow_pos (by norm_num) e)
    _ ≤ 2^24*2^(104 : ℤ) := mul_le_mul_of_nonneg_left hpow (by norm_num)
    _ = 2^128 := by norm_num

/-- The quotient of one by a full mantissa has the bits its rounding needs, and is not too large. -/
theorem divCore_one {m : ℕ} {e : ℤ} (hlog : m.log2 = 23) (he : e < 105) : ∃ q r acc,
    divCore .binary32 (2^23) (-23) m e = (q,r,acc) ∧ 0 < q ∧
      r ≤ Format.targetExponent .binary32 (totalExponent q r) ∧
      (q : ℚ)*2^r*(m*2^e) ≤ 1 := by
  have hm : 0 < m := Nat.pos_of_ne_zero fun h => by
    rw [h] at hlog
    cases hlog
  have hsmall : m < 2^24 := (Nat.log2_lt hm.ne').mp (by omega)
  have htarget (k : ℤ) : Format.targetExponent .binary32 k = max (k-24) (-149) := rfl
  obtain ⟨r,hr⟩ : ∃ r, r = max (-47-e) (-149) := ⟨_,rfl⟩
  obtain ⟨k,hk⟩ : ∃ k : ℕ, (k : ℤ) = -23-e-r := ⟨(-23-e-r).toNat,by omega⟩
  have hcore : divCore .binary32 (2^23) (-23) m e =
      (2^23*2^k/m,r,accuracyOfFraction (2^23*2^k % m) m) := by
    have hmin : min (-23-e) (Format.targetExponent .binary32 (totalExponent (2^23) (-23)-
        totalExponent m e)) = r := by
      rw [htarget, totalExponent, totalExponent, Nat.log2_two_pow, hlog]
      omega
    simp only [divCore, hmin, ← hk, Int.toNat_natCast, Nat.shiftLeft_eq]
  refine ⟨_,_,_,hcore,?_,?_,?_⟩
  · refine Nat.div_pos ?_ hm
    calc m ≤ 2^23*2^1 := by omega
      _ ≤ 2^23*2^k := Nat.mul_le_mul_left _ (Nat.pow_le_pow_right (by decide) (by omega))
  · rw [htarget, totalExponent]
    by_cases hfull : -149 < r
    · have hbits : 2^23 ≤ 2^23*2^k/m := by
        rw [show k = 24 by omega, Nat.le_div_iff_mul_le hm]
        exact Nat.mul_le_mul_left _ hsmall.le
      have := (Nat.le_log2 (by omega)).mpr hbits
      omega
    · omega
  · have hle : 2^23*2^k/m*m ≤ 2^23*2^k := Nat.div_mul_le_self _ _
    generalize 2^23*2^k/m = q at hle ⊢
    have hle' : (q : ℚ)*m ≤ 2^(23+k) := by
      rw [pow_add]
      exact_mod_cast hle
    calc (q : ℚ)*2^r*(m*2^e) = q*m*2^(r+e) := by
          rw [zpow_add₀ (by norm_num)]
          ring
      _ ≤ 2^(23+k)*2^(r+e) := mul_le_mul_of_nonneg_right hle' (zpow_nonneg (by norm_num) _)
      _ = 2^(((23+k : ℕ) : ℤ)+(r+e)) := by
          rw [zpow_add₀ (by norm_num : (2 : ℚ) ≠ 0) ((23+k : ℕ) : ℤ), zpow_natCast]
      _ = 1 := by rw [show ((23+k : ℕ) : ℤ)+(r+e) = 0 by omega, zpow_zero]

/-- A reciprocal of at least two is at most a little more than a half. -/
theorem unpacked_share {n : ℕ} (hn : 2 ≤ n) : (∃ s, (one/ofNat n).unpacked = .zero s) ∨
    ∃ m e hm, (one/ofNat n).unpacked = .finite .positive m e hm ∧ Canonical .binary32 m e ∧
      (m : ℚ)*2^e ≤ 6/10 := by
  obtain ⟨m,e,hm,hcanon,hlow,-,hu⟩ := unpacked_ofNat_cases (show 0 < n by omega)
  rw [unpacked_div, unpacked_one, hu]
  by_cases he : e < 105
  · have hstored : stored (.finite .positive m e hm) = .finite .positive m e hm :=
      unpack_pack hm hcanon (show e+127+23+1 < 2^8 by omega) .positive
    have hn' : (2 : ℚ) ≤ n := by exact_mod_cast hn
    have hleast : (2 : ℚ)^(-149 : ℤ) ≤ 1/1000 := by norm_num
    rw [ulp_binary32] at hlow
    have hvalue : (199/100 : ℚ) ≤ m*2^e := by linarith
    have hlog : m.log2 = 23 := by
      have hfull := hcanon.log2_eq fun hmin => by
        have hbits : m < 2^24 := (Nat.log2_lt hm.ne').mp hcanon.log2_lt
        have hbits' : (m : ℚ) < 2^24 := by exact_mod_cast hbits
        rw [hmin, minExponent_binary32] at hvalue
        have : (m : ℚ)*2^(-149 : ℤ) < 2^24*2^(-149 : ℤ) :=
          mul_lt_mul_of_pos_right hbits' (by norm_num)
        norm_num at this hvalue
        linarith
      exact Nat.succ.inj hfull
    obtain ⟨q,r,acc,hcore,hq,hr,hle⟩ := divCore_one hlog he
    obtain ⟨hform,-,habove⟩ := roundWithAccuracy_spec hq hr (.positive/.positive) acc
    rw [minExponent_binary32, ulp_binary32] at habove
    have hquotient : (q : ℚ)*2^r ≤ 100/199 := by
      have hpos : (0 : ℚ) ≤ q*2^r := mul_nonneg (Nat.cast_nonneg q) (zpow_nonneg (by norm_num) r)
      nlinarith
    have hdiv : div .binary32 (.finite .positive (2^23) (-23) (by decide))
        (.finite .positive m e hm) = roundWithAccuracy .binary32 (.positive/.positive) q r acc := by
      rw [div, hcore]
    rw [hstored, hdiv]
    obtain hzero | ⟨m',e',hm',hfinite,hcanon'⟩ := hform
    · rw [hzero]
      exact .inl ⟨_,rfl⟩
    · rw [hfinite] at habove ⊢
      have hsmall : (m' : ℚ)*2^e' ≤ 6/10 := by
        have hmag : (m' : ℚ)*2^e' ≤ q*2^r*(1+1/8388608)+2^(-149 : ℤ) := habove
        linarith
      refine .inr ⟨m',e',hm',?_,hcanon',hsmall⟩
      exact stored_of_finite _ hm' hcanon' (hsmall.trans_lt (by norm_num))
  · rw [stored_of_large .positive hm (by omega)]
    exact .inl ⟨_,rfl⟩

/-- A share of a number is a number. -/
theorem finite_mul_share {x : F32} (hx : Finite x.unpacked) {n : ℕ} (hn : 2 ≤ n) :
    Finite (x*(one/ofNat n)).unpacked := by
  rw [unpacked_mul]
  obtain ⟨s,hs⟩ | ⟨k,t,hk,hs,hcanon,hle⟩ := unpacked_share hn
  · rw [hs]
    obtain ⟨s',hu⟩ | ⟨s',m,e,hm,hu⟩ := finite_cases hx <;> rw [hu, mul] <;>
      cases s <;> cases s' <;> rfl
  · rw [hs]
    obtain ⟨s',hu⟩ | ⟨s',m,e,hm,hu⟩ := finite_cases hx
    · rw [hu, mul]
      cases s' <;> rfl
    · have hcanon' : Canonical .binary32 m e := canonical_of_unpack (by decide) hu
      obtain ⟨hform,-,habove⟩ := mul_spec hm hk hcanon' hcanon (by decide) s' .positive
      rw [minExponent_binary32, ulp_binary32] at habove
      rw [hu]
      obtain hzero | ⟨m',e',hm',hfinite,hcanon''⟩ := hform
      · rw [hzero]
        cases s' <;> rfl
      · rw [hfinite] at habove ⊢
        have hvalue := value_lt hu
        have hpos : (0 : ℚ) ≤ m*2^e := mul_nonneg (Nat.cast_nonneg m) (zpow_nonneg (by norm_num) e)
        have hproduct : (m : ℚ)*2^e*(k*2^t) ≤ 2^128*(6/10) :=
          mul_le_mul hvalue.le hle (mul_nonneg (Nat.cast_nonneg k) (zpow_nonneg (by norm_num) t))
            (by norm_num)
        have hfits : (m' : ℚ)*2^e' < 2^128 := by
          have hleast : (2 : ℚ)^(-149 : ℤ) ≤ 1 := by norm_num
          calc (m' : ℚ)*2^e' ≤ m*2^e*(k*2^t)*(1+1/8388608)+2^(-149 : ℤ) := habove
            _ ≤ 2^128*(6/10)*(1+1/8388608)+1 := by linarith
            _ < 2^128 := by norm_num
        rw [stored_of_finite _ hm' hcanon'' hfits]
        rfl

end Share

end F32
