import Mathlib

/-! Binary floating-point formats: what a bit pattern is read as, that packing gives the pattern
back, and that a quotient the format has room for is not rounded. -/
open Float.Model (Format UnpackedFloat totalExponent)
open Float.Model.UnpackedFloat

namespace FloatFormat
variable {spec : Format}

/-- The exponent is the one the format wants for the value. -/
def Canonical (spec : Format) (m : ℕ) (e : ℤ) : Prop :=
  spec.targetExponent (totalExponent m e) = e

theorem toBitVec_ofBitVec (s : BitVec 1) : (Sign.ofBitVec s).toBitVec = s := by
  revert s
  decide

/-- A pattern is its sign, exponent and mantissa put together. -/
theorem packComponents_unpack (b : BitVec spec.numBits) :
    packComponents spec (Sign.ofBitVec (unpackSign b)) (unpackExponent b) (unpackMantissa b) =
      b := by
  have hm := spec.hm
  have he := spec.he
  apply BitVec.eq_of_getLsbD_eq
  intro i hi
  simp only [packComponents, toBitVec_ofBitVec, BitVec.getLsbD_append, unpackMantissa,
    unpackExponent, unpackSign, BitVec.getLsbD_cast, BitVec.getLsbD_extractLsb]
  by_cases hlow : i < spec.mantissaBitsWithoutImplicit
  · simp [hlow]
    omega
  by_cases hmid : i-spec.mantissaBitsWithoutImplicit < spec.exponentBits
  · have hi' : spec.mantissaBitsWithoutImplicit+(i-spec.mantissaBitsWithoutImplicit) = i := by omega
    rw [hi']
    simp [hlow, hmid]
    omega
  · have hi' : spec.mantissaBitsWithoutImplicit+spec.exponentBits+
        (i-spec.mantissaBitsWithoutImplicit-spec.exponentBits) = i := by omega
    rw [hi']
    simp [hlow, hmid, Format.numBits] at hi ⊢
    omega

theorem toNat_implicit {w : ℕ} (m : BitVec w) : (1#1++m).toNat = 2^w+m.toNat := by
  rw [BitVec.toNat_append, ← Nat.shiftLeft_add_eq_or_of_lt m.isLt]
  simp [Nat.shiftLeft_eq]

theorem log2_implicit {w : ℕ} (m : BitVec w) : (1#1++m).toNat.log2 = w := by
  have hlt := m.isLt
  have hpos : 0 < 2^w := Nat.two_pow_pos w
  rw [toNat_implicit, Nat.log2_eq_iff (by omega), pow_succ]
  omega

theorem minExponent_eq :
    spec.minExponent = 1-(spec.exponentBias : ℤ)-spec.mantissaBitsWithoutImplicit := by
  have hpos : 0 < 2^(spec.exponentBits-1) := Nat.two_pow_pos _
  have hcast : ((2^(spec.exponentBits-1) : ℕ) : ℤ) = 2^(spec.exponentBits-1) := by norm_cast
  unfold Format.minExponent Format.exponentBias Format.mantissaBits
  omega

theorem toNat_ne_zero {w : ℕ} {v : BitVec w} (h : v ≠ 0#w) : v.toNat ≠ 0 :=
  fun hv => h (BitVec.eq_of_toNat_eq (by simpa using hv))

section Fields
variable {m : BitVec spec.mantissaBitsWithoutImplicit}

theorem log2_subnormal (hm : 0 < m.toNat) : m.toNat.log2 < spec.mantissaBitsWithoutImplicit :=
  (Nat.log2_lt hm.ne').mpr m.isLt

theorem canonical_subnormal (hm : 0 < m.toNat) : Canonical spec m.toNat spec.minExponent := by
  have hlog := log2_subnormal hm
  rw [Canonical, Format.targetExponent, totalExponent, Format.mantissaBits]
  omega

theorem pack_subnormal (hbits : 1 < spec.exponentBits) (hm : 0 < m.toNat) (s : Sign) :
    pack spec (.finite s m.toNat spec.minExponent hm) = packComponents spec s 0 m := by
  have hlog := log2_subnormal hm
  have hcapacity : 2^2 ≤ 2^spec.exponentBits := Nat.pow_le_pow_right (by decide) hbits
  have hmin := @minExponent_eq spec
  rw [pack, if_neg (by omega), if_neg (by unfold Format.mantissaBits; omega), BitVec.ofNat_toNat,
    BitVec.setWidth_eq]
  rfl

variable {x : BitVec spec.exponentBits}

theorem canonical_normal (hx : 0 < x.toNat) : Canonical spec (1#1++m).toNat
    (x.toNat-(spec.exponentBias+spec.mantissaBitsWithoutImplicit)) := by
  rw [Canonical, Format.targetExponent, totalExponent, minExponent_eq, Format.mantissaBits,
    log2_implicit]
  omega

theorem pack_normal (hx : x.toNat+1 < 2^spec.exponentBits) (hm : 0 < (1#1++m).toNat) (s : Sign) :
    pack spec (.finite s (1#1++m).toNat
      (x.toNat-(spec.exponentBias+spec.mantissaBitsWithoutImplicit)) hm) =
        packComponents spec s x m := by
  have hbiased : ((x.toNat : ℤ)-(spec.exponentBias+spec.mantissaBitsWithoutImplicit)+
      spec.exponentBias+spec.mantissaBitsWithoutImplicit).toNat = x.toNat := by omega
  -- the packed mantissa drops the implicit bit
  have hfield : BitVec.ofNat spec.mantissaBitsWithoutImplicit (1#1++m).toNat = m := by
    apply BitVec.eq_of_toNat_eq
    rw [BitVec.toNat_ofNat, toNat_implicit, Nat.add_mod_left, Nat.mod_eq_of_lt m.isLt]
  rw [pack, hbiased, if_neg (by omega),
    if_pos (by rw [log2_implicit, Format.mantissaBits, Nat.add_comm]), hfield, BitVec.ofNat_toNat,
    BitVec.setWidth_eq]

end Fields

/-- A pattern that is not a NaN is packed from what it is read as, a finite value in the exponent
that the format wants. -/
theorem unpack_cases (hbits : 1 < spec.exponentBits) (b : BitVec spec.numBits) :
    unpack spec b = .notANumber ∨ pack spec (unpack spec b) = b ∧
      ∀ s m e h, unpack spec b = .finite s m e h → Canonical spec m e := by
  have hparts := packComponents_unpack b
  have hexp := (unpackExponent b).isLt
  rw [unpack]
  by_cases hones : unpackExponent b = -1#_
  · rw [if_pos hones]
    by_cases hm : unpackMantissa b = 0#_
    · rw [if_pos hm]
      rw [hones, hm] at hparts
      exact .inr ⟨hparts,nofun⟩
    · exact .inl (if_neg hm)
  rw [if_neg hones]
  right
  by_cases hzero : unpackExponent b = 0#_
  · rw [if_pos hzero]
    rw [hzero] at hparts
    by_cases hm : unpackMantissa b = 0#_
    · rw [dif_pos hm]
      rw [hm] at hparts
      exact ⟨hparts,nofun⟩
    · have hleast : ((unpackExponent b).toNat : ℤ)-
          (spec.exponentBias+spec.mantissaBitsWithoutImplicit)+1 = spec.minExponent := by
        rw [hzero, minExponent_eq, BitVec.toNat_zero]
        omega
      simp only [dif_neg hm, hleast]
      refine ⟨(pack_subnormal hbits _ _).trans hparts,?_⟩
      rintro s m e h ⟨⟩
      exact canonical_subnormal h
  · rw [if_neg hzero]
    have hmax : (unpackExponent b).toNat ≠ 2^spec.exponentBits-1 := by
      intro h
      apply hones
      apply BitVec.eq_of_toNat_eq
      simpa [BitVec.neg_one_eq_allOnes] using h
    refine ⟨(pack_normal (by omega) _ _).trans hparts,?_⟩
    rintro s m e h ⟨⟩
    exact canonical_normal (Nat.pos_of_ne_zero (toNat_ne_zero hzero))

/-- The sign of a finite value is packed apart from the rest. -/
theorem exists_fields (m : ℕ) (e : ℤ) (hm : 0 < m) :
    ∃ x v, ∀ s, pack spec (.finite s m e hm) = packComponents spec s x v := by
  simp only [pack, packedInfinity]
  split
  · exact ⟨_,_,fun _ => rfl⟩
  · split
    · exact ⟨_,_,fun _ => rfl⟩
    · exact ⟨_,_,fun _ => rfl⟩

theorem pack_unpack (hbits : 1 < spec.exponentBits) {b : BitVec spec.numBits}
    (h : unpack spec b ≠ .notANumber) : pack spec (unpack spec b) = b :=
  ((unpack_cases hbits b).resolve_left h).1

theorem canonical_of_unpack (hbits : 1 < spec.exponentBits) {b : BitVec spec.numBits} {s : Sign}
    {m : ℕ} {e : ℤ} {hpos : 0 < m} (h : unpack spec b = .finite s m e hpos) :
    Canonical spec m e :=
  ((unpack_cases hbits b).resolve_left (by rw [h]; exact nofun)).2 s m e hpos h

theorem log2_mul_two_pow {m : ℕ} (hm : 0 < m) (k : ℕ) : (m*2^k).log2 = m.log2+k := by
  induction k with
  | zero => rw [pow_zero, mul_one, Nat.add_zero]
  | succ k ih =>
    have hne : m*2^k ≠ 0 := (Nat.mul_pos hm (Nat.two_pow_pos k)).ne'
    rw [show m*2^(k+1) = 2*(m*2^k) by ring, Nat.log2_two_mul hne, ih, Nat.add_assoc]

theorem log2_mul_lt {m n : ℕ} (hm : 0 < m) (hn : 0 < n) : (m*n).log2 < m.log2+n.log2+2 := by
  rw [Nat.log2_lt (Nat.mul_pos hm hn).ne']
  calc m*n < 2^(m.log2+1)*2^(n.log2+1) := Nat.mul_lt_mul'' Nat.lt_log2_self Nat.lt_log2_self
    _ = 2^(m.log2+n.log2+2) := by ring

/-- Shifting out zeros loses nothing. -/
theorem shiftRight_exact (m k : ℕ) :
    (ExtendedMantissa.mk (m*2^k) false false) >>> k = ExtendedMantissa.mk m false false := by
  change k.repeat ExtendedMantissa.shiftRightOne _ = _
  induction k generalizing m with
  | zero => rw [pow_zero, mul_one, Nat.repeat]
  | succ k ih =>
    rw [Nat.repeat, show m*2^(k+1) = m*2*2^k by ring, ih, ExtendedMantissa.shiftRightOne]
    simp

theorem shiftToTargetExponent_exact {m : ℕ} {e : ℤ} (hm : 0 < m) (h : Canonical spec m e) (k : ℕ) :
    shiftToTargetExponent spec (m*2^k) (e-k) .exact = (⟨m,false,false⟩,e) := by
  have ht : spec.targetExponent (totalExponent (m*2^k) (e-k)) = e := by
    have htotal : totalExponent (m*2^k) (e-k) = totalExponent m e := by
      rw [totalExponent, totalExponent, log2_mul_two_pow hm]
      omega
    rw [htotal, h]
  have hk : (e-(e-k)).toNat = k := by omega
  simp only [shiftToTargetExponent, ht, shiftToExponent, hk, ExtendedMantissa.ofMantissaAndAccuracy,
    shiftRight_exact, sub_add_cancel]

/-- A value the format has room for is not rounded. -/
theorem roundWithAccuracy_exact {m : ℕ} {e : ℤ} (hm : 0 < m) (h : Canonical spec m e) (s : Sign)
    (k : ℕ) : roundWithAccuracy spec s (m*2^k) (e-k) .exact = .finite s m e hm := by
  have hfirst := shiftToTargetExponent_exact hm h k
  have hsecond := shiftToTargetExponent_exact hm h 0
  rw [pow_zero, mul_one, Nat.cast_zero, sub_zero] at hsecond
  have hround : (ExtendedMantissa.mk m false false).roundedMantissa = m := rfl
  simp only [roundWithAccuracy, hfirst, hround, hsecond, dif_neg hm.ne']

/-- A quotient that the format has room for is not rounded. -/
theorem div_exact {m n d : ℕ} {e : ℤ} (hm : 0 < m) (hn : 0 < n) (hd : 0 < d)
    (h : Canonical spec m e) (hmul : n*2^(-e).toNat = m*d*2^e.toNat) (s t : Sign) :
    div spec (.finite s n 0 hn) (.finite t d 0 hd) = .finite (s/t) m e hm := by
  have hlog : (n.log2 : ℤ) < m.log2+d.log2+e+2 := by
    have hl := congrArg Nat.log2 hmul
    rw [log2_mul_two_pow hn, log2_mul_two_pow (Nat.mul_pos hm hd)] at hl
    have := log2_mul_lt hm hd
    omega
  obtain ⟨te,hte⟩ : ∃ te, te = min ((0 : ℤ)-0)
      (spec.targetExponent (totalExponent n 0-totalExponent d 0)) := ⟨_,rfl⟩
  have hle : te ≤ e := by
    unfold Canonical Format.targetExponent totalExponent at h
    unfold Format.targetExponent totalExponent at hte
    omega
  have hnum : n <<< ((0 : ℤ)-0-te).toNat = m*2^(e-te).toNat*d := by
    rw [Nat.shiftLeft_eq]
    apply Nat.eq_of_mul_eq_mul_right (Nat.two_pow_pos (-e).toNat)
    rw [mul_right_comm, hmul]
    have hpow : 2^e.toNat*2^((0 : ℤ)-0-te).toNat = 2^(e-te).toNat*2^(-e).toNat := by
      rw [← pow_add, ← pow_add]
      congr 1
      omega
    calc m*d*2^e.toNat*2^((0 : ℤ)-0-te).toNat = m*d*(2^e.toNat*2^((0 : ℤ)-0-te).toNat) := by ring
      _ = m*d*(2^(e-te).toNat*2^(-e).toNat) := by rw [hpow]
      _ = m*2^(e-te).toNat*d*2^(-e).toNat := by ring
  have hcore : divCore spec n 0 d 0 = (m*2^(e-te).toNat,e-(e-te).toNat,.exact) := by
    rw [divCore, ← hte, hnum, Nat.mul_div_cancel _ hd, Nat.mul_mod_left]
    have : e-((e-te).toNat : ℤ) = te := by omega
    rw [this]
    rfl
  rw [div, hcore]
  exact roundWithAccuracy_exact hm h _ _

theorem ofScientific_exact {m units n : ℕ} {e : ℤ} (hm : 0 < m) (h : Canonical spec m e)
    (hn : 0 < n) (hrange : n ≤ 2^spec.exponentBits) (hmul : units*2^(-e).toNat = m*10^n*2^e.toNat) :
    ofScientific spec units (-n) = .finite .positive m e hm := by
  have hunits : 0 < units := by
    apply Nat.pos_of_ne_zero
    rintro rfl
    have : 0 < m*10^n*2^e.toNat := by positivity
    omega
  have hcast : ((2^spec.exponentBits : ℕ) : ℤ) = 2^spec.exponentBits := by norm_cast
  have hn' : (-(-(n : ℤ))).toNat = n := by omega
  rw [ofScientific, dif_neg hunits.ne', if_neg (by omega), if_neg (by omega), if_neg (by omega)]
  simp only [hn']
  exact div_exact hm hunits _ h hmul _ _

end FloatFormat
