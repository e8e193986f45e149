import ConfluxFL.Lib.FloatMonotone
import ConfluxFL.Lib.F32

/-! Single-precision values at the upper end: numbers of one mantissa divide exactly, and a
product of two large ones is infinite. -/
namespace F32
open Float.Model (Format UnpackedFloat totalExponent)
open Float.Model.UnpackedFloat
open FloatFormat

theorem unpacked_infinity : infinity.unpacked = .infinity .positive := rfl

theorem eq_infinity {x : F32} (h : x.unpacked = .infinity .positive) : x = infinity :=
  ext_unpacked (h.trans unpacked_infinity.symm) (by rw [h]; exact nofun)

theorem eq_zero {x : F32} (h : x.unpacked = .zero .positive) : x = zero :=
  ext_unpacked (h.trans unpacked_zero.symm) (by rw [h]; exact nofun)

section Mantissa
variable {m n : ℕ} {e t : ℤ} {hm : 0 < m} {hn : 0 < n}

theorem targetExponent_eq (m : ℕ) (e : ℤ) :
    Format.targetExponent .binary32 (totalExponent m e) = max (m.log2+e-23) (-149) := by
  have hbits : Format.mantissaBits .binary32 = 24 := by decide
  rw [Format.targetExponent, totalExponent, hbits, minExponent_binary32]
  omega

/-- A full mantissa wants its own exponent. -/
theorem canonical_full (hlog : m.log2 = 23) (he : -149 ≤ e) : Canonical .binary32 m e := by
  rw [Canonical, targetExponent_eq, hlog]
  omega

/-- A full mantissa with an exponent of the range is a value of either sign. -/
theorem exists_full (hm : 0 < m) (hlog : m.log2 = 23) (hlow : -149 ≤ e) (hhigh : e < 105)
    (s : Sign) : ∃ x : F32, x.unpacked = .finite s m e hm := by
  refine ⟨⟨.ofBitVec (pack .binary32 (.finite s m e hm))⟩,?_⟩
  exact FloatFormat.unpack_pack hm (canonical_full hlog hlow)
    (show e+127+23+1 < 2^8 by omega) s

/-- A product of two full mantissas is infinite from some exponent on. -/
theorem mul_of_large {x y : F32} (hx : x.unpacked = .finite .positive m e hm)
    (hy : y.unpacked = .finite .positive n t hn) (hlog : m.log2 = 23) (hlog' : n.log2 = 23)
    (hlarge : 82 ≤ e+t) : x*y = infinity := by
  have hpos : 0 < m*n := Nat.mul_pos hm hn
  have hbits : 46 ≤ (m*n).log2 := by
    have hself := Nat.mul_le_mul (Nat.log2_self_le hm.ne') (Nat.log2_self_le hn.ne')
    rw [hlog, hlog', ← pow_add] at hself
    exact (Nat.le_log2 hpos.ne').mpr hself
  have htarget := targetExponent_eq (m*n) (e+t)
  apply eq_infinity
  rw [unpacked_mul, hx, hy, mul]
  obtain ⟨hzero,-⟩ | ⟨m',e',hm',heq,-,hte,-⟩ :=
    roundWithAccuracy_cases hpos htarget (by omega) (.positive*.positive) .exact
  · -- the product keeps as many bits as a mantissa has
    have hshift : (max (((m*n).log2 : ℤ)+(e+t)-23) (-149)-(e+t)).toNat ≤ (m*n).log2 := by omega
    have hle : 2^(max (((m*n).log2 : ℤ)+(e+t)-23) (-149)-(e+t)).toNat ≤ m*n :=
      (Nat.pow_le_pow_right (by decide) hshift).trans (Nat.log2_self_le hpos.ne')
    exact absurd hzero (Nat.div_pos hle (Nat.two_pow_pos _)).ne'
  · rw [heq]
    exact stored_of_large _ hm' (by omega)

theorem divCore_same (hm : 0 < m) (hlow : -125 ≤ e-t) :
    divCore .binary32 m e m t = (2^23*2^1,e-t-23-((1 : ℕ) : ℤ),.exact) := by
  have htotal : totalExponent m e-totalExponent m t = e-t := by
    rw [totalExponent, totalExponent]
    omega
  have hbits : Format.mantissaBits .binary32 = 24 := by decide
  have htarget : min (e-t) (Format.targetExponent .binary32 (e-t)) = e-t-24 := by
    rw [Format.targetExponent, hbits, minExponent_binary32]
    omega
  have hshift : (e-t-(e-t-24)).toNat = 24 := by omega
  simp only [divCore, htotal, htarget, hshift, Nat.shiftLeft_eq, Nat.mul_div_cancel_left _ hm,
    Nat.mul_mod_right, accuracyOfFraction, if_pos]
  rw [Int.sub_sub (e-t)]
  rfl

/-- Numbers with one mantissa divide to a power of two. -/
theorem div_of_same {x y : F32} (hx : x.unpacked = .finite .positive m e hm)
    (hy : y.unpacked = .finite .positive m t hm) (hlow : -125 ≤ e-t) (hhigh : e-t < 128) :
    (x/y).unpacked = .finite .positive (2^23) (e-t-23) (by decide) := by
  have hlog : (2^23).log2 = 23 := Nat.log2_two_pow
  have hcanon := canonical_full hlog (show -149 ≤ e-t-23 by omega)
  have hdiv : div .binary32 (.finite .positive m e hm) (.finite .positive m t hm) =
      .finite .positive (2^23) (e-t-23) (by decide) := by
    rw [div, divCore_same hm hlow]
    exact roundWithAccuracy_exact (by decide) hcanon .positive 1
  rw [unpacked_div, hx, hy, hdiv]
  exact FloatFormat.unpack_pack (by decide) hcanon (show e-t-23+127+23+1 < 2^8 by omega) _

theorem add_opposite {x y : F32} (hx : x.unpacked = .finite .positive m e hm)
    (hy : y.unpacked = .finite .negative m e hm) : x+y = zero := by
  have hsum : Sign.positive.apply (m <<< Int.toNat 0 : ℕ)+
      Sign.negative.apply (m <<< Int.toNat 0 : ℕ) = 0 := by
    simp [Sign.apply]
  apply eq_zero
  rw [unpacked_add, hx, hy, add]
  have hnormalize : UnpackedFloat.normalize .binary32 0 e .positive = .zero .positive := rfl
  simp only [decreaseExponent, min_self, sub_self, hsum, hnormalize]
  rfl

theorem add_zero_of_unpacked {s : Sign} {x : F32} (hx : x.unpacked = .finite s m e hm) :
    x+zero = x := by
  have hstored := stored_unpacked x
  symm
  refine ext_unpacked ?_ (by rw [hx]; exact nofun)
  rw [unpacked_add, unpacked_zero, hx]
  rw [hx] at hstored
  exact hstored.symm

theorem zero_add_of_unpacked {s : Sign} {x : F32} (hx : x.unpacked = .finite s m e hm) :
    zero+x = x := by
  have hstored := stored_unpacked x
  symm
  refine ext_unpacked ?_ (by rw [hx]; exact nofun)
  rw [unpacked_add, unpacked_zero, hx]
  rw [hx] at hstored
  exact hstored.symm

end Mantissa

/-- A positive integer below `2^63` has a full mantissa. -/
theorem unpacked_ofNat_full {n : ℕ} (hn : 0 < n) (hlt : n < 2^63) : ∃ m e hm,
    (ofNat n).unpacked = .finite .positive m e hm ∧ m.log2 = 23 ∧ -23 ≤ e ∧ e ≤ 40 := by
  obtain ⟨m,e,hm,hu,hcanon,-⟩ := unpacked_ofNat_of_lt hn (hlt.trans (by decide))
  have hvalue : magnitude (ofNat n).unpacked = m*2^e := by rw [hu, magnitude]
  have hone : magnitude (ofNat 1).unpacked = 1 := by
    have hu : (ofNat 1).unpacked = .finite .positive (2^23) (-23) (by decide) := rfl
    rw [hu, magnitude]
    norm_num
  have htop : magnitude (ofNat (2^63)).unpacked = 2^63 := by
    have hu : (ofNat (2^63)).unpacked = .finite .positive (2^23) 40 (by decide) := rfl
    rw [hu, magnitude]
    norm_num
  have hlow := magnitude_ofNat_le one_pos hn (hlt.trans (by decide))
  have hhigh := magnitude_ofNat_le hn hlt.le (by decide)
  rw [hvalue, hone] at hlow
  rw [hvalue, htop] at hhigh
  have hself : ((2^m.log2 : ℕ) : ℚ) ≤ m := Nat.cast_le.mpr (Nat.log2_self_le hm.ne')
  have hnext : (m : ℚ) < ((2^(m.log2+1) : ℕ) : ℚ) := Nat.cast_lt.mpr Nat.lt_log2_self
  have hpow : (0 : ℚ) < 2^e := zpow_pos (by norm_num) e
  -- the value lies between the powers of two around its mantissa
  have hup : (2 : ℚ)^(0 : ℤ) < 2^((m.log2 : ℤ)+1+e) := by
    rw [zpow_zero, zpow_add₀ (by norm_num), show (m.log2 : ℤ)+1 = (m.log2+1 : ℕ) by norm_cast,
      zpow_natCast]
    push_cast at hnext
    exact hlow.trans_lt (mul_lt_mul_of_pos_right hnext hpow)
  have hdown : (2 : ℚ)^((m.log2 : ℤ)+e) ≤ 2^(63 : ℤ) := by
    rw [zpow_add₀ (by norm_num), zpow_natCast]
    push_cast at hself
    exact (mul_le_mul_of_nonneg_right hself hpow.le).trans (by exact_mod_cast hhigh)
  have hup' := (zpow_lt_zpow_iff_right₀ (by norm_num : (1 : ℚ) < 2)).mp hup
  have hdown' := (zpow_le_zpow_iff_right₀ (by norm_num : (1 : ℚ) < 2)).mp hdown
  have hbits : Format.mantissaBits .binary32 = 24 := by decide
  have hlt24 := hcanon.log2_lt
  rw [hbits] at hlt24
  have hne : e ≠ Format.minExponent .binary32 := by
    rw [minExponent_binary32]
    omega
  have hlog := hcanon.log2_eq hne
  rw [hbits] at hlog
  exact ⟨m,e,hm,hu,by omega,by omega,by omega⟩

theorem zero_div_ofNat {n : ℕ} (hn : 0 < n) (hlt : n < 2^63) : zero/ofNat n = zero := by
  obtain ⟨m,e,hm,hu,-⟩ := unpacked_ofNat_full hn hlt
  apply eq_zero
  have hdiv : div .binary32 (.zero .positive) (.finite .positive m e hm) = .zero .positive := rfl
  rw [unpacked_div, unpacked_zero, hu, hdiv]
  rfl

end F32
