import ConfluxFL.Lib.FloatScale

/-! Rounding to nearest, ties to even, keeps the order of what it rounds. -/
open Float.Model (Format UnpackedFloat totalExponent)
open Float.Model.UnpackedFloat

namespace FloatFormat
variable {spec : Format}

/-- An integer next to a value, the even one where two are equally near. -/
def Nearest (r : ℕ) (y : ℚ) : Prop := |y-r| ≤ 1/2 ∧ (|y-r| = 1/2 → Even r)

theorem Nearest.le {r r' : ℕ} {y y' : ℚ} (h : Nearest r y) (h' : Nearest r' y') (hle : y ≤ y') :
    r ≤ r' := by
  by_contra hlt
  have hsucc : (r' : ℚ)+1 ≤ r := by exact_mod_cast Nat.lt_of_not_le hlt
  obtain ⟨hbelow,-⟩ := abs_le.mp h.1
  obtain ⟨-,habove⟩ := abs_le.mp h'.1
  -- the two values meet half-way between neighbours, which cannot both be even
  have hy : y = r-1/2 := by linarith
  have hy' : y' = r'+1/2 := by linarith
  have hnext : (r : ℚ) = r'+1 := by linarith
  have heven : Even r := h.2 (by rw [hy]; norm_num)
  have heven' : Even r' := h'.2 (by rw [hy']; norm_num)
  have hnat : r = r'+1 := by exact_mod_cast hnext
  rw [hnat, Nat.even_add_one] at heven
  exact heven heven'

theorem nearest_below {p : ℕ} {z : ℚ} (hz : 0 ≤ z) (hlt : z < 1/2) : Nearest p (p+z) := by
  unfold Nearest
  rw [add_sub_cancel_left, abs_of_nonneg hz]
  exact ⟨hlt.le,fun h => absurd h hlt.ne⟩

theorem nearest_above {p : ℕ} {z : ℚ} (hz : 1/2 < z) (hlt : z < 1) : Nearest (p+1) (p+z) := by
  have hdiff : |(p : ℚ)+z-(p+1 : ℕ)| = 1-z := by
    push_cast
    rw [show (p : ℚ)+z-(p+1) = -(1-z) by ring, abs_neg, abs_of_pos (by linarith)]
  unfold Nearest
  rw [hdiff]
  exact ⟨by linarith,fun h => absurd h (by linarith)⟩

theorem nearest_half (p : ℕ) : Nearest (p+p%2) (p+1/2) := by
  obtain h | h := Nat.mod_two_eq_zero_or_one p
  · rw [h, Nat.add_zero]
    refine ⟨?_,fun _ => Nat.even_iff.mpr h⟩
    rw [add_sub_cancel_left, abs_of_pos (by norm_num)]
  · rw [h]
    have hdiff : (p : ℚ)+1/2-(p+1 : ℕ) = -(1/2) := by
      push_cast
      ring
    refine ⟨?_,fun _ => Nat.even_iff.mpr (by omega)⟩
    rw [hdiff, abs_neg, abs_of_pos (by norm_num)]

/-- The bits behind a shifted mantissa say whether anything was shifted out. -/
theorem bits_shiftRight (m k : ℕ) : ((ExtendedMantissa.mk m false false >>> k).roundBit ||
    (ExtendedMantissa.mk m false false >>> k).stickyBit) = decide (m%2^k ≠ 0) := by
  change ((k.repeat ExtendedMantissa.shiftRightOne _).roundBit ||
    (k.repeat ExtendedMantissa.shiftRightOne _).stickyBit) = _
  induction k with
  | zero => simp [Nat.repeat, Nat.mod_one]
  | succ k ih =>
    have hmant : (k.repeat ExtendedMantissa.shiftRightOne ⟨m,false,false⟩).mantissa = m/2^k :=
      mantissa_shiftRight k ⟨m,false,false⟩
    rw [Nat.repeat]
    simp only [ExtendedMantissa.shiftRightOne]
    rw [ih, hmant, Nat.pow_succ, Nat.mod_mul]
    obtain hbit | hbit := Nat.mod_two_eq_zero_or_one (m/2^k)
    · simp [hbit]
    · simp [hbit]

/-- The last bit shifted out, and whether there was anything below it. -/
theorem shiftRight_succ (m k : ℕ) : (ExtendedMantissa.mk m false false >>> (k+1)) =
    ⟨m/2^k/2,m/2^k%2 != 0,decide (m%2^k ≠ 0)⟩ := by
  change (ExtendedMantissa.mk m false false >>> k).shiftRightOne = _
  rw [ExtendedMantissa.shiftRightOne, bits_shiftRight, mantissa_shiftRight]

/-- The same bits as a rounding: an even quotient stands, an odd half goes to the even side. -/
theorem roundedMantissa_bits (p : ℕ) (rest : Bool) :
    (ExtendedMantissa.mk p false rest).roundedMantissa = p ∧
      (ExtendedMantissa.mk p true rest).roundedMantissa = if rest then p+1 else p+p%2 := by
  cases rest with
  | false => exact ⟨rfl,rfl⟩
  | true => exact ⟨rfl,rfl⟩

section Shift
variable (m k : ℕ)

/-- A value shifted once more: half of the quotient, its last bit and the rest. -/
theorem value_shift : (m : ℚ)/2^(k+1) =
    (m/2^k/2 : ℕ)+((m/2^k%2 : ℕ)+((m%2^k : ℕ) : ℚ)/2^k)/2 := by
  have hsplit : (m : ℚ) = 2^k*((m/2^k : ℕ) : ℚ)+((m%2^k : ℕ) : ℚ) := by
    exact_mod_cast (Nat.div_add_mod m (2^k)).symm
  have hhalf : ((m/2^k : ℕ) : ℚ) = 2*((m/2^k/2 : ℕ) : ℚ)+((m/2^k%2 : ℕ) : ℚ) := by
    exact_mod_cast (Nat.div_add_mod (m/2^k) 2).symm
  rw [pow_succ, div_eq_iff (by positivity), hsplit]
  field_simp
  linear_combination 2^k*hhalf

theorem rest_bounds : 0 ≤ ((m%2^k : ℕ) : ℚ)/2^k ∧ ((m%2^k : ℕ) : ℚ)/2^k < 1 := by
  have hpow : (0 : ℚ) < 2^k := by positivity
  refine ⟨div_nonneg (Nat.cast_nonneg _) hpow.le,?_⟩
  rw [div_lt_one hpow]
  exact_mod_cast Nat.mod_lt m (Nat.two_pow_pos k)

/-- What is rounded after a shift is an integer nearest to the shifted value. -/
theorem nearest_shiftRight :
    Nearest (ExtendedMantissa.mk m false false >>> k).roundedMantissa (m/2^k) := by
  cases k with
  | zero =>
    have h := @nearest_below m 0 le_rfl (by norm_num)
    rw [add_zero] at h
    rw [pow_zero, div_one]
    exact h
  | succ k =>
    obtain ⟨hlow,hhigh⟩ := rest_bounds m k
    obtain ⟨p,hp⟩ : ∃ p, m/2^k/2 = p := ⟨_,rfl⟩
    rw [shiftRight_succ, value_shift, hp]
    obtain hbit | hbit := Nat.mod_two_eq_zero_or_one (m/2^k)
    · rw [hbit, Nat.cast_zero, zero_add]
      change Nearest (ExtendedMantissa.mk p false _).roundedMantissa _
      rw [(roundedMantissa_bits p _).1]
      exact nearest_below (by linarith) (by linarith)
    · rw [hbit, Nat.cast_one]
      change Nearest (ExtendedMantissa.mk p true _).roundedMantissa _
      rw [(roundedMantissa_bits p _).2]
      by_cases hzero : m%2^k = 0
      · rw [if_neg (by simpa using hzero), hzero, Nat.cast_zero, zero_div, add_zero]
        exact nearest_half p
      · rw [if_pos (by simpa using hzero)]
        have hpos : 0 < ((m%2^k : ℕ) : ℚ)/2^k := by positivity
        exact nearest_above (by linarith) (by linarith)

end Shift

section Order
variable {m n : ℕ} {e t : ℤ}

/-- A rounded value is an integer number of units at the exponent the format wants, the nearest. -/
theorem exists_nearest (hm : 0 < m) (ht : spec.targetExponent (totalExponent m e) = t)
    (he : e ≤ t) (s : Sign) :
    ∃ r : ℕ, magnitude (roundWithAccuracy spec s m e .exact) = r*2^t ∧ Nearest r (m*2^e/2^t) ∧
      r ≤ 2^spec.mantissaBits ∧
      (t ≠ spec.minExponent → 2^spec.mantissaBitsWithoutImplicit ≤ r) := by
  obtain ⟨r,hr⟩ : ∃ r, (ExtendedMantissa.ofMantissaAndAccuracy m .exact >>>
    (t-e).toNat).roundedMantissa = r := ⟨_,rfl⟩
  refine ⟨r,?_,?_,rounded_bits hm ht he hr⟩
  · obtain ⟨hzero,heq⟩ | ⟨m',e',hpos,heq,-,hte,-,hmul⟩ := roundWithAccuracy_rounded hm ht he s hr
    · rw [heq, hzero, Nat.cast_zero, zero_mul]
      rfl
    · obtain ⟨k,rfl⟩ : ∃ k : ℕ, e' = t+k := ⟨(e'-t).toNat,by omega⟩
      rw [show (t+(k : ℤ)-t).toNat = k by omega] at hmul
      rw [heq, ← hmul]
      change (m' : ℚ)*2^(t+(k : ℤ)) = _
      rw [zpow_add₀ (by norm_num), zpow_natCast]
      push_cast
      ring
  · obtain ⟨k,rfl⟩ : ∃ k : ℕ, t = e+k := ⟨(t-e).toNat,by omega⟩
    rw [show (e+(k : ℤ)-e).toNat = k by omega] at hr
    have hvalue : (m : ℚ)*2^e/2^(e+(k : ℤ)) = m/2^k := by
      rw [zpow_add₀ (by norm_num), zpow_natCast]
      field_simp
    rw [hvalue, ← hr]
    exact nearest_shiftRight m k

/-- The exponent a format wants does not fall as the value grows. -/
theorem target_le (hm : 0 < m) (hle : (m : ℚ)*2^e ≤ n*2^t) :
    spec.targetExponent (totalExponent m e) ≤ spec.targetExponent (totalExponent n t) := by
  have hself : ((2^m.log2 : ℕ) : ℚ) ≤ m := Nat.cast_le.mpr (Nat.log2_self_le hm.ne')
  have hlt : (n : ℚ) < ((2^(n.log2+1) : ℕ) : ℚ) := Nat.cast_lt.mpr Nat.lt_log2_self
  push_cast at hself hlt
  have hpow : (2 : ℚ)^((m.log2 : ℤ)+e) < 2^((n.log2 : ℤ)+1+t) := by
    rw [zpow_add₀ (by norm_num), zpow_add₀ (by norm_num : (2 : ℚ) ≠ 0) _ t, zpow_natCast]
    refine (mul_le_mul_of_nonneg_right hself (zpow_nonneg (by norm_num) e)).trans_lt ?_
    exact hle.trans_lt (mul_lt_mul_of_pos_right (by exact_mod_cast hlt)
      (zpow_pos (by norm_num) t))
  have hexp := (zpow_lt_zpow_iff_right₀ (by norm_num : (1 : ℚ) < 2)).mp hpow
  unfold Format.targetExponent totalExponent
  omega

/-- Rounding keeps the order of values. -/
theorem magnitude_round_le (hm : 0 < m) (hn : 0 < n)
    (he : e ≤ spec.targetExponent (totalExponent m e))
    (ht : t ≤ spec.targetExponent (totalExponent n t)) (s s' : Sign)
    (hle : (m : ℚ)*2^e ≤ n*2^t) : magnitude (roundWithAccuracy spec s m e .exact) ≤
      magnitude (roundWithAccuracy spec s' n t .exact) := by
  have htarget := @target_le spec _ _ _ _ hm hle
  obtain ⟨a,ha⟩ : ∃ a, spec.targetExponent (totalExponent m e) = a := ⟨_,rfl⟩
  obtain ⟨b,hb⟩ : ∃ b, spec.targetExponent (totalExponent n t) = b := ⟨_,rfl⟩
  rw [ha] at he htarget
  rw [hb] at ht htarget
  obtain ⟨r,hr,hnear,hhigh,-⟩ := exists_nearest hm ha he s
  obtain ⟨r',hr',hnear',-,hlow⟩ := exists_nearest hn hb ht s'
  rw [hr, hr']
  have hpow : (0 : ℚ) < 2^b := zpow_pos (by norm_num) b
  obtain rfl | hlt := htarget.eq_or_lt
  · -- at one exponent the nearest integers are in order
    have hrounded := hnear.le hnear' ((div_le_div_iff_of_pos_right hpow).mpr hle)
    exact mul_le_mul_of_nonneg_right (Nat.cast_le.mpr hrounded) hpow.le
  · -- at a larger one the least full mantissa is already as much
    have hmin : b ≠ spec.minExponent := by
      have : spec.minExponent ≤ a := ha ▸ le_max_right _ _
      omega
    have hbits : spec.mantissaBits = spec.mantissaBitsWithoutImplicit+1 := Nat.add_comm _ _
    have hhigh' : (r : ℚ) ≤ 2^spec.mantissaBitsWithoutImplicit*2 := by
      rw [hbits, pow_succ] at hhigh
      exact_mod_cast hhigh
    have hlow' : (2 : ℚ)^spec.mantissaBitsWithoutImplicit ≤ r' := by exact_mod_cast hlow hmin
    have hstep : (2 : ℚ)*2^a ≤ 2^b := by
      rw [← zpow_one_add₀ (by norm_num)]
      exact zpow_le_zpow_right₀ (by norm_num) (by omega)
    calc (r : ℚ)*2^a ≤ 2^spec.mantissaBitsWithoutImplicit*2*2^a :=
          mul_le_mul_of_nonneg_right hhigh' (zpow_nonneg (by norm_num) a)
      _ = 2^spec.mantissaBitsWithoutImplicit*(2*2^a) := mul_assoc _ _ _
      _ ≤ r'*2^b := mul_le_mul hlow' hstep (by positivity) (Nat.cast_nonneg r')

theorem magnitude_mul_le {k : ℕ} {a : ℤ} {hk : 0 < k} {hm : 0 < m} {hn : 0 < n}
    (hmin : spec.minExponent ≤ 0) (h : Canonical spec k a) (hm' : Canonical spec m e)
    (hn' : Canonical spec n t) (s s' : Sign) (hle : (m : ℚ)*2^e ≤ n*2^t) :
    magnitude (mul spec (.finite s k a hk) (.finite s' m e hm)) ≤
      magnitude (mul spec (.finite s k a hk) (.finite s' n t hn)) := by
  have hvalue (i : ℕ) (b : ℤ) : ((k*i : ℕ) : ℚ)*2^(a+b) = k*2^a*(i*2^b) := by
    rw [zpow_add₀ (by norm_num)]
    push_cast
    ring
  refine magnitude_round_le (Nat.mul_pos hk hm) (Nat.mul_pos hk hn)
    (h.mul_exponent_le hk hm hm' hmin) (h.mul_exponent_le hk hn hn' hmin) _ _ ?_
  rw [hvalue, hvalue]
  exact mul_le_mul_of_nonneg_left hle
    (mul_nonneg (Nat.cast_nonneg k) (zpow_nonneg (by norm_num) a))

end Order

end FloatFormat

namespace F32
open FloatFormat
variable {x : F32}

/-- The integer part of a stored number, too large ones included, is that of the number. -/
theorem le_floorToNat_iff {m : ℕ} {e : ℤ} {hm : 0 < m} (h : Canonical .binary32 m e)
    (hx : x.unpacked = stored (.finite .positive m e hm)) {k : ℕ} (hk : k < 2^64) :
    k ≤ x.floorToNat ↔ (k : ℚ) ≤ m*2^e := by
  by_cases he : e < 105
  · obtain ⟨r,hr,hle,hlt⟩ := floorToNat_of_finite
      (hx.trans (unpack_pack hm h (show e+127+23+1 < 2^8 by omega) .positive))
    rw [hr]
    constructor
    · intro hfloor
      have hfloor' : (k : ℚ) ≤ r := by exact_mod_cast hfloor.trans (min_le_left _ _)
      exact hfloor'.trans hle
    · intro hvalue
      have hfloor : k < r+1 := by exact_mod_cast hvalue.trans_lt hlt
      omega
  · rw [floorToNat_of_infinity (hx.trans (stored_of_large .positive hm (by omega)))]
    refine iff_of_true (by omega) ?_
    have hone : (1 : ℚ) ≤ m := Nat.one_le_cast.mpr hm
    have hpow : (2 : ℚ)^(64 : ℤ) ≤ 2^e := zpow_le_zpow_right₀ (by norm_num) (by omega)
    have hk' : (k : ℚ) ≤ 2^64 := by exact_mod_cast hk.le
    calc (k : ℚ) ≤ 1*2^(64 : ℤ) := by rw [one_mul]; exact_mod_cast hk'
      _ ≤ m*2^e := mul_le_mul hone hpow (by positivity) (Nat.cast_nonneg m)

theorem magnitude_ofNat {n : ℕ} (hn : 0 < n) (hlt : n < 2^127) :
    magnitude (ofNat n).unpacked = magnitude (UnpackedFloat.round .binary32 .positive n 0) := by
  obtain ⟨m,e,hm,hu,-⟩ := unpacked_ofNat_of_lt hn hlt
  have hstored := unpacked_ofNat n
  rw [normalize_pos hn, hu] at hstored
  rw [hu]
  obtain ⟨hzero | ⟨m',e',hm',hround,hcanon⟩,-⟩ := @round_spec .binary32 n 0 hn .positive
  · rw [hzero] at hstored
    cases hstored
  · rw [hround] at hstored ⊢
    obtain hst | hst := stored_cases .positive hm' hcanon
    · rw [hstored, hst]
    · rw [hst] at hstored
      cases hstored

/-- Integers are read in order. -/
theorem magnitude_ofNat_le {n n' : ℕ} (hn : 0 < n) (hle : n ≤ n') (hmax : n' < 2^127) :
    magnitude (ofNat n).unpacked ≤ magnitude (ofNat n').unpacked := by
  rw [magnitude_ofNat hn (hle.trans_lt hmax), magnitude_ofNat (hn.trans_le hle) hmax]
  obtain ⟨m,e,hround,hm,hvalue,htarget⟩ := @round_eq .binary32 n 0 hn .positive
  obtain ⟨m',e',hround',hm',hvalue',htarget'⟩ :=
    @round_eq .binary32 n' 0 (hn.trans_le hle) .positive
  rw [hround, hround']
  refine magnitude_round_le hm hm' htarget htarget' _ _ ?_
  rw [hvalue, hvalue', zpow_zero, mul_one, mul_one]
  exact_mod_cast hle

/-- The integer part of a product with an integer is that of the rounded product. -/
theorem le_floorToNat_mul_iff {k n : ℕ} {a : ℤ} {hk : 0 < k}
    (hx : x.unpacked = .finite .positive k a hk) (hn : 0 < n) (hmax : n < 2^127) {j : ℕ}
    (hj : j < 2^64) : j ≤ (x*ofNat n).floorToNat ↔
      (j : ℚ) ≤ magnitude (mul .binary32 x.unpacked (ofNat n).unpacked) := by
  obtain ⟨m,e,hm,hu,hcanon,-⟩ := unpacked_ofNat_of_lt hn hmax
  have hproduct := unpacked_mul x (ofNat n)
  rw [hx, hu] at hproduct ⊢
  obtain ⟨hzero | ⟨i,b,hi,hfinite,hcanoni⟩,-⟩ := mul_spec hk hm
    (canonical_of_unpack (by decide) hx) hcanon (by decide) .positive .positive
  · have hfloor : (x*ofNat n).floorToNat = 0 := by
      rw [floorToNat_eq, hproduct, hzero]
      rfl
    rw [hfloor, hzero]
    change j ≤ 0 ↔ (j : ℚ) ≤ 0
    rw [Nat.cast_nonpos, Nat.le_zero]
  · rw [hfinite] at hproduct ⊢
    exact le_floorToNat_iff hcanoni hproduct hj

/-- The integer part of a product with an integer grows with it. -/
theorem floorToNat_mul_le {n n' : ℕ} (hn : 0 < n) (hle : n ≤ n') (hmax : n' < 2^127) :
    (x*ofNat n).floorToNat ≤ (x*ofNat n').floorToNat := by
  by_cases hfloor : (x*ofNat n).floorToNat = 0
  · rw [hfloor]
    exact Nat.zero_le _
  have hpositive := positive_of_floorToNat_mul hn (hle.trans_lt hmax) (Nat.pos_of_ne_zero hfloor)
  obtain hinf | ⟨k,a,hk,hx⟩ := positive_cases hpositive
  · rw [floorToNat_infinity_mul (hn.trans_le hle) hmax hinf]
    exact Nat.le_pred_of_lt (floorToNat_lt _)
  · have hvalue := magnitude_ofNat_le hn hle hmax
    have hproduct := (le_floorToNat_mul_iff hx hn (hle.trans_lt hmax) (floorToNat_lt _)).mp le_rfl
    obtain ⟨m,e,hm,hu,hcanon,-⟩ := unpacked_ofNat_of_lt hn (hle.trans_lt hmax)
    obtain ⟨m',e',hm',hu',hcanon',-⟩ := unpacked_ofNat_of_lt (hn.trans_le hle) hmax
    rw [le_floorToNat_mul_iff hx (hn.trans_le hle) hmax (floorToNat_lt _)]
    refine hproduct.trans ?_
    rw [hu, hu'] at hvalue
    rw [hx, hu, hu']
    exact magnitude_mul_le (by decide) (canonical_of_unpack (by decide) hx) hcanon hcanon' _ _
      hvalue

end F32
