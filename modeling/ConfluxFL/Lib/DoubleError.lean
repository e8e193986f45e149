import Mathlib.Data.Real.Basic
import ConfluxFL.Lib.FloatError
import ConfluxFL.Lib.Floating

/-! Double precision against the real numbers: what an operation does to a value, and how the
relative errors of several operations add up. -/
open Float.Model (Format UnpackedFloat totalExponent)
open Float.Model.UnpackedFloat

/-- Two values that lie within `k` relative errors of each other. -/
def Near (ε : ℝ) (k : ℕ) (y x : ℝ) : Prop := x*(1-ε)^k ≤ y ∧ y*(1-ε)^k ≤ x

namespace Near
variable {ε y x y' x' z : ℝ} {j k : ℕ}

theorem refl (x : ℝ) : Near ε 0 x x := by
  rw [Near, pow_zero, mul_one]
  exact ⟨le_rfl,le_rfl⟩

theorem add (h : Near ε k y x) (h' : Near ε k y' x') : Near ε k (y+y') (x+x') := by
  constructor
  · rw [add_mul]
    exact add_le_add h.1 h'.1
  · rw [add_mul]
    exact add_le_add h.2 h'.2

section Bounded
variable (hlt : ε ≤ 1)
include hlt

theorem mono (hε : 0 ≤ ε) (h : Near ε j y x) (hle : j ≤ k) (hx : 0 ≤ x) (hy : 0 ≤ y) :
    Near ε k y x := by
  have hpow : (1-ε)^k ≤ (1-ε)^j :=
    pow_le_pow_of_le_one (by linarith) (by linarith) hle
  exact ⟨(mul_le_mul_of_nonneg_left hpow hx).trans h.1,
    (mul_le_mul_of_nonneg_left hpow hy).trans h.2⟩

theorem trans (h : Near ε j z y) (h' : Near ε k y x) : Near ε (j+k) z x := by
  have hj : 0 ≤ (1-ε)^j := pow_nonneg (by linarith) j
  have hk : 0 ≤ (1-ε)^k := pow_nonneg (by linarith) k
  constructor
  · calc x*(1-ε)^(j+k) = x*(1-ε)^k*(1-ε)^j := by ring
      _ ≤ y*(1-ε)^j := mul_le_mul_of_nonneg_right h'.1 hj
      _ ≤ z := h.1
  · calc z*(1-ε)^(j+k) = z*(1-ε)^j*(1-ε)^k := by ring
      _ ≤ y*(1-ε)^k := mul_le_mul_of_nonneg_right h.2 hk
      _ ≤ x := h'.2

/-- One rounding. -/
theorem of_error (hε : 0 ≤ ε) (hx : 0 ≤ x) (h : |y-x| ≤ ε*x) : Near ε 1 y x := by
  obtain ⟨hlow,hhigh⟩ := abs_le.mp h
  rw [Near, pow_one]
  refine ⟨by linarith,?_⟩
  have hsquare : 0 ≤ x*ε*ε := mul_nonneg (mul_nonneg hx hε) hε
  calc y*(1-ε) ≤ (x+ε*x)*(1-ε) := mul_le_mul_of_nonneg_right (by linarith) (by linarith)
    _ = x-x*ε*ε := by ring
    _ ≤ x := by linarith

theorem mul (hx : 0 ≤ x) (hy : 0 ≤ y) (hx' : 0 ≤ x') (hy' : 0 ≤ y') (h : Near ε j y x)
    (h' : Near ε k y' x') : Near ε (j+k) (y*y') (x*x') := by
  have hj : 0 ≤ (1-ε)^j := pow_nonneg (by linarith) j
  have hk : 0 ≤ (1-ε)^k := pow_nonneg (by linarith) k
  constructor
  · calc x*x'*(1-ε)^(j+k) = x*(1-ε)^j*(x'*(1-ε)^k) := by ring
      _ ≤ y*y' := mul_le_mul h.1 h'.1 (mul_nonneg hx' hk) hy
  · calc y*y'*(1-ε)^(j+k) = y*(1-ε)^j*(y'*(1-ε)^k) := by ring
      _ ≤ x*x' := mul_le_mul h.2 h'.2 (mul_nonneg hy' hk) hx

theorem div (hx : 0 ≤ x) (hy : 0 ≤ y) (hx' : 0 < x') (hy' : 0 < y') (h : Near ε j y x)
    (h' : Near ε k y' x') : Near ε (j+k) (y/y') (x/x') := by
  have hj : 0 ≤ (1-ε)^j := pow_nonneg (by linarith) j
  have hk : 0 ≤ (1-ε)^k := pow_nonneg (by linarith) k
  constructor
  · rw [le_div_iff₀ hy', div_mul_eq_mul_div, div_mul_eq_mul_div, div_le_iff₀ hx']
    calc x*(1-ε)^(j+k)*y' = x*(1-ε)^j*(y'*(1-ε)^k) := by ring
      _ ≤ y*x' := mul_le_mul h.1 h'.2 (mul_nonneg hy'.le hk) hy
  · rw [le_div_iff₀ hx', div_mul_eq_mul_div, div_mul_eq_mul_div, div_le_iff₀ hy']
    calc y*(1-ε)^(j+k)*x' = y*(1-ε)^j*(x'*(1-ε)^k) := by ring
      _ ≤ x*y' := mul_le_mul h.2 h'.1 (mul_nonneg hx'.le hk) hx

/-- The errors of `k` operations in all. -/
theorem bounds (hx : 0 ≤ x) (hy : 0 ≤ y) (h : Near ε k y x) :
    x*(1-k*ε) ≤ y ∧ y*(1-k*ε) ≤ x := by
  have hpow : 1-k*ε ≤ (1-ε)^k := by
    have := one_add_mul_le_pow (by linarith : -2 ≤ -ε) k
    rwa [mul_neg, ← sub_eq_add_neg, ← sub_eq_add_neg] at this
  exact ⟨(mul_le_mul_of_nonneg_left hpow hx).trans h.1,
    (mul_le_mul_of_nonneg_left hpow hy).trans h.2⟩

end Bounded
end Near

/-- Bernoulli's inequality from the other side, for as long as the errors are small. -/
theorem one_add_pow_le {ε : ℝ} (hε : 0 ≤ ε) {k : ℕ} (h : 2*k*ε ≤ 1) : (1+ε)^k ≤ 1+2*k*ε := by
  induction k with
  | zero => simp
  | succ k ih =>
    have hcast : ((k+1 : ℕ) : ℝ) = k+1 := Nat.cast_succ k
    rw [hcast] at h ⊢
    have hk : 2*k*ε ≤ 1 := by linarith
    have hsquare : 2*k*ε*ε ≤ 1*ε := mul_le_mul_of_nonneg_right hk hε
    calc (1+ε)^(k+1) = (1+ε)^k*(1+ε) := pow_succ _ _
      _ ≤ (1+2*k*ε)*(1+ε) := mul_le_mul_of_nonneg_right (ih hk) (by linarith)
      _ = 1+2*k*ε+ε+2*k*ε*ε := by ring
      _ ≤ 1+2*(k+1)*ε := by linarith

namespace F32
open FloatFormat
variable {x : F32}

theorem held (h : x.isFinite = true) : Held .binary32 x.unpacked :=
  ⟨(isFinite_iff x).mp h,fun hu => canonical_of_unpack (by decide) hu⟩

theorem toReal_eq (x : F32) : x.toReal = (toRat x.unpacked : ℚ) := by
  rw [toReal, value_unpacked]
  cases x.unpacked with
  | finite s m e hm => cases s <;> simp [toRat, signed]
  | _ => simp [toRat]

theorem abs_toReal_lt (x : F32) : |x.toReal| < 2^128 := by
  rw [toReal_eq, ← Rat.cast_abs]
  cases hu : x.unpacked with
  | finite s m e hm =>
    rw [toRat, abs_signed, abs_of_nonneg (mul_nonneg (Nat.cast_nonneg m) (two_zpow_pos e).le)]
    exact_mod_cast value_lt hu
  | _ =>
    change ((|(0 : ℚ)| : ℚ) : ℝ) < 2^128
    rw [abs_zero, Rat.cast_zero]
    positivity

/-- What a number holds of an exact value below the overflow. -/
theorem rounded_of_stored {u : UnpackedFloat} {q : ℚ} (h : RoundsTo .binary32 u q)
    (hlt : |q| ≤ 2^127) (hx : x.unpacked = stored u) :
    x.isFinite = true ∧ Rounded .binary32 x.toReal q := by
  have hrat : |toRat u| < 2^2^(8-1) :=
    (h.abs_lt (by decide) (by norm_num) hlt).trans_eq (by norm_num)
  have hstored : x.unpacked = u := hx.trans (h.toHeld.unpack_pack (by decide) hrat)
  refine ⟨(isFinite_iff x).mpr (hstored ▸ h.finite),?_⟩
  rw [toReal_eq, hstored]
  exact h.rounded

/-- A number other than zero is no smaller than the least one. -/
theorem eq_zero_or_le {x : F32} (h : x.isFinite = true) :
    x.toReal = 0 ∨ 2^(-149 : ℤ) ≤ |x.toReal| := by
  obtain ⟨i,hi⟩ := (held h).exists_units
  rw [toReal_eq, hi, minExponent_binary32]
  obtain rfl | hne := eq_or_ne i 0
  · left
    simp
  · right
    have hone : (1 : ℝ) ≤ |(i : ℝ)| := by exact_mod_cast Int.one_le_abs hne
    push_cast
    rw [abs_mul, abs_of_pos (zpow_pos (by norm_num : (0 : ℝ) < 2) _)]
    exact le_mul_of_one_le_left (zpow_pos (by norm_num) _).le hone

end F32

namespace F64
open FloatFormat

/-- What the bits are read as. -/
def unpacked (x : F64) : UnpackedFloat := unpack .binary64 x.bits.toBitVec

variable (x y : F64)

theorem value_unpacked : x.value.toModel.unpack = x.unpacked :=
  @unpack_pack_unpack .binary64 (by decide) x.bits.toBitVec

theorem isFinite_iff : x.isFinite = true ↔ Finite x.unpacked := by
  rw [← value_unpacked]
  rfl

theorem toReal_eq : x.toReal = (toRat x.unpacked : ℚ) := by
  rw [toReal, value_unpacked]
  cases x.unpacked with
  | finite s m e hm => cases s <;> simp [toRat, signed]
  | _ => simp [toRat]

theorem isNaN_eq_false_iff : x.isNaN = false ↔ x.unpacked ≠ .notANumber := by
  rw [← value_unpacked]
  change x.value.toModel.unpack.isNaN = false ↔ _
  cases x.value.toModel.unpack <;> simp [UnpackedFloat.isNaN]

def orderKey (x : F64) : ℤ ×ₗ ℤ ×ₗ ℤ := FloatFormat.orderKey x.unpacked

theorem lt_eq : x.lt y = x.unpacked.lt y.unpacked := by
  rw [← value_unpacked x, ← value_unpacked y]
  exact Bool.decide_eq_true

theorem le_eq : x.le y = x.unpacked.le y.unpacked := by
  rw [← value_unpacked x, ← value_unpacked y]
  exact Bool.decide_eq_true

variable {x y}

theorem lt_eq_orderKey (hx : x.isNaN = false) (hy : y.isNaN = false) :
    x.lt y = decide (x.orderKey < y.orderKey) :=
  (lt_eq x y).trans (FloatFormat.lt_eq_orderKey ((isNaN_eq_false_iff x).mp hx)
    ((isNaN_eq_false_iff y).mp hy))

/-! The minimum and the maximum of numbers pass over a NaN. -/

/-- The smaller one, and the other one of a NaN. -/
def minNum (x y : F64) : F64 :=
  if x.isNaN then y else if y.isNaN then x else if y.lt x then y else x

/-- The larger one, and the other one of a NaN. -/
def maxNum (x y : F64) : F64 :=
  if x.isNaN then y else if y.isNaN then x else if x.lt y then y else x

/-- No fractional part: from the mantissa's size on there is none. -/
def isWhole (x : F64) : Bool :=
  x.isFinite && (x.abs.beq (ofNat x.abs.floorToNat) || (ofNat (2^53)).le x.abs)

section Minimum
variable {t : F64}

theorem le_eq_false_of_nan (h : x.isNaN = true ∨ y.isNaN = true) : x.le y = false := by
  have hnan {z : F64} (hz : z.isNaN = true) : z.unpacked = .notANumber := by
    by_contra hne
    rw [(isNaN_eq_false_iff z).mpr hne] at hz
    cases hz
  rw [le_eq]
  obtain h | h := h
  · rw [hnan h]
    rfl
  · rw [hnan h]
    cases x.unpacked <;> rfl

theorem le_iff_orderKey (hx : x.isNaN = false) (hy : y.isNaN = false) :
    x.le y = true ↔ x.orderKey ≤ y.orderKey := by
  rw [le_eq, le_eq_not_lt ((isNaN_eq_false_iff x).mp hx) ((isNaN_eq_false_iff y).mp hy), ← lt_eq,
    lt_eq_orderKey hy hx, Bool.not_eq_true', decide_eq_false_iff_not, not_lt]

theorem minNum_le_iff : (x.minNum y).le t = true ↔ x.le t = true ∨ y.le t = true := by
  unfold minNum
  split_ifs with hx hy hlt
  · rw [le_eq_false_of_nan (.inl hx), Bool.false_eq_true, false_or]
  · rw [le_eq_false_of_nan (x := y) (.inl hy), Bool.false_eq_true, or_false]
  · rw [Bool.not_eq_true] at hx hy
    refine ⟨.inr,fun h => h.elim (fun hle => ?_) id⟩
    cases ht : t.isNaN with
    | true =>
      rw [le_eq_false_of_nan (.inr ht)] at hle
      cases hle
    | false =>
      rw [le_iff_orderKey hx ht] at hle
      rw [le_iff_orderKey hy ht]
      rw [lt_eq_orderKey hy hx, decide_eq_true_iff] at hlt
      exact hlt.le.trans hle
  · rw [Bool.not_eq_true] at hx hy
    refine ⟨.inl,fun h => h.elim id fun hle => ?_⟩
    cases ht : t.isNaN with
    | true =>
      rw [le_eq_false_of_nan (.inr ht)] at hle
      cases hle
    | false =>
      rw [le_iff_orderKey hy ht] at hle
      rw [le_iff_orderKey hx ht]
      rw [lt_eq_orderKey hy hx, decide_eq_true_iff, not_lt] at hlt
      exact hlt.trans hle

theorem foldl_minNum_le_iff {l : List F64} {m : F64} :
    (l.foldl minNum m).le t = true ↔ m.le t = true ∨ ∃ x ∈ l, x.le t = true := by
  induction l generalizing m with
  | nil => simp
  | cons x l ih =>
    rw [List.foldl_cons, ih, minNum_le_iff, or_assoc, List.exists_mem_cons_iff]

theorem infinity_le_eq_false (h : t.isFinite = true) : infinity.le t = false := by
  rw [le_eq]
  have hinf : infinity.unpacked = .infinity .positive := rfl
  obtain ⟨s,ht⟩ | ⟨s,m,e,hm,ht⟩ := finite_cases ((isFinite_iff t).mp h)
  · rw [hinf, ht]
    rfl
  · rw [hinf, ht]
    cases s <;> rfl

end Minimum

theorem held (h : x.isFinite = true) : Held .binary64 x.unpacked :=
  ⟨(isFinite_iff x).mp h,fun hu => canonical_of_unpack (by decide) hu⟩

theorem ulp_binary64 : ulp .binary64 = 1/4503599627370496 := by
  norm_num [ulp]

theorem minExponent_binary64 : Format.minExponent .binary64 = -1074 := by decide

/-- A number with what it was rounded from. -/
structure Rounds (z : F64) (x : ℝ) : Prop where
  isFinite : z.isFinite = true
  rounded : Rounded .binary64 z.toReal x

theorem rounds_of_stored {u : UnpackedFloat} {q : ℚ} (h : RoundsTo .binary64 u q)
    (hlt : |(q : ℝ)| ≤ 2^1023) (hx : x.unpacked = unpack .binary64 (pack .binary64 u)) :
    x.Rounds q := by
  have hlt' : |q| ≤ 2^1023 := by exact_mod_cast hlt
  have hbound : (2 : ℚ) < 2^1023 := lt_self_pow₀ (by norm_num) (by norm_num)
  have hrat : |toRat u| < 2^2^(11-1) :=
    (h.abs_lt (by decide) hbound hlt').trans_eq (pow_succ' 2 1023).symm
  have hstored : x.unpacked = u := hx.trans (h.toHeld.unpack_pack (by decide) hrat)
  refine ⟨(isFinite_iff x).mpr (hstored ▸ h.finite),?_⟩
  rw [toReal_eq, hstored]
  exact h.rounded

section Operations
variable (hx : x.isFinite = true) (hy : y.isFinite = true)
include hx hy

theorem lt_eq_toReal : x.lt y = decide (x.toReal < y.toReal) := by
  rw [lt_eq, FloatFormat.lt_eq (held hx) (held hy), toReal_eq, toReal_eq]
  exact decide_eq_decide.mpr Rat.cast_lt.symm

theorem le_eq_toReal : x.le y = decide (x.toReal ≤ y.toReal) := by
  rw [le_eq, FloatFormat.le_eq (held hx) (held hy), toReal_eq, toReal_eq]
  exact decide_eq_decide.mpr Rat.cast_le.symm

theorem rounds_add (hlt : |x.toReal+y.toReal| ≤ 2^1023) : (x+y).Rounds (x.toReal+y.toReal) := by
  have hunpacked : (x+y).unpacked = unpack .binary64 (pack .binary64
      (add .binary64 x.unpacked y.unpacked)) := by
    rw [← value_unpacked x, ← value_unpacked y]
    rfl
  rw [toReal_eq, toReal_eq, ← Rat.cast_add] at hlt ⊢
  exact rounds_of_stored (roundsTo_add (held hx) (held hy)) hlt hunpacked

theorem rounds_mul (hlt : |x.toReal*y.toReal| ≤ 2^1023) : (x*y).Rounds (x.toReal*y.toReal) := by
  have hunpacked : (x*y).unpacked = unpack .binary64 (pack .binary64
      (mul .binary64 x.unpacked y.unpacked)) := by
    rw [← value_unpacked x, ← value_unpacked y]
    rfl
  rw [toReal_eq, toReal_eq, ← Rat.cast_mul] at hlt ⊢
  exact rounds_of_stored (roundsTo_mul (by decide) (held hx) (held hy)) hlt hunpacked

theorem rounds_div (hy0 : y.toReal ≠ 0) (hleast : x.toReal ≠ 0 → 2^(-1074 : ℤ) ≤ |x.toReal/y.toReal|)
    (hlt : |x.toReal/y.toReal| ≤ 2^1023) : (x/y).Rounds (x.toReal/y.toReal) := by
  have hunpacked : (x/y).unpacked = unpack .binary64 (pack .binary64
      (div .binary64 x.unpacked y.unpacked)) := by
    rw [← value_unpacked x, ← value_unpacked y]
    rfl
  rw [toReal_eq, toReal_eq, ← Rat.cast_div] at hlt hleast ⊢
  rw [toReal_eq, Rat.cast_ne_zero] at hy0
  refine rounds_of_stored (roundsTo_div (held hx) (held hy) hy0 fun hne => ?_) hlt hunpacked
  have h := hleast (Rat.cast_ne_zero.mpr hne)
  rw [← Rat.cast_abs] at h
  exact Rat.cast_le.mp ((Rat.cast_zpow 2 (-1074)).trans_le h)

end Operations

theorem rounds_ofNat {n : ℕ} (hlt : (n : ℝ) ≤ 2^1023) : (ofNat n).Rounds n := by
  have hround := @roundsTo_normalize .binary64 n 0 .positive
  rw [zpow_zero, mul_one] at hround
  have hcast : ((((n : ℤ) : ℚ)) : ℝ) = n := by norm_cast
  rw [← hcast] at hlt ⊢
  refine rounds_of_stored hround ?_ rfl
  rwa [hcast, Nat.abs_cast, ← hcast]

/-- An integer of the mantissa's size is exact. -/
theorem toReal_ofNat {n : ℕ} (hlt : n < 2^53) :
    (ofNat n).isFinite = true ∧ (ofNat n).toReal = n := by
  have hle : (n : ℝ) ≤ 2^1023 := by
    have hcast : (n : ℝ) ≤ 2^53 := by exact_mod_cast hlt.le
    exact hcast.trans (pow_le_pow_right₀ (by norm_num) (by norm_num))
  have hrounds := rounds_ofNat hle
  refine ⟨hrounds.isFinite,hrounds.rounded.exact (q := n) ⟨n,0,hlt,by decide,?_⟩ (by norm_cast)⟩
  rw [zpow_zero, mul_one]
  norm_cast

theorem fits_of_held32 {u : UnpackedFloat} (h : Held .binary32 u) : Fits .binary64 (toRat u) := by
  obtain ⟨s,rfl⟩ | ⟨s,m,e,hm,rfl⟩ := finite_cases h.finite
  · exact ⟨0,0,by decide,by decide,by rw [Int.cast_zero, zero_mul]; rfl⟩
  · have hlog := (h.canonical rfl).log2_lt
    have hleast := (h.canonical rfl).minExponent_le
    have hbits : Format.mantissaBits .binary32 = 24 := by decide
    have hmin : Format.minExponent .binary64 = -1074 := by decide
    have hsize : m < 2^53 := by
      have := (Nat.log2_lt hm.ne').mp hlog
      rw [hbits] at this
      exact this.trans (by decide)
    rw [F32.minExponent_binary32] at hleast
    refine ⟨s.apply m,e,?_,by omega,?_⟩
    · cases s with
      | positive => exact hsize
      | negative => exact (Int.natAbs_neg _).trans_lt hsize
    · rw [cast_apply, ← signed_mul_right]
      rfl

/-- The conversion from single precision is exact. -/
theorem toReal_ofF32 {x : F32} (h : x.isFinite = true) :
    (ofF32 x).isFinite = true ∧ (ofF32 x).toReal = x.toReal := by
  have hheld := F32.held h
  have hlt : |((toRat x.unpacked : ℚ) : ℝ)| ≤ 2^1023 := by
    rw [← F32.toReal_eq]
    exact (F32.abs_toReal_lt x).le.trans (pow_le_pow_right₀ (by norm_num) (by norm_num))
  have hrounds : (ofF32 x).Rounds (toRat x.unpacked : ℚ) := by
    obtain ⟨s,hu⟩ | ⟨s,m,e,hm,hu⟩ := finite_cases hheld.finite
    · have hunpacked : (ofF32 x).unpacked = unpack .binary64 (pack .binary64 (.zero s)) := by
        rw [ofF32, F32.value_unpacked, hu]
        rfl
      rw [hu] at hlt ⊢
      exact rounds_of_stored (roundsTo_zero s) hlt hunpacked
    · have hunpacked : (ofF32 x).unpacked =
          unpack .binary64 (pack .binary64 (UnpackedFloat.round .binary64 s m e)) := by
        rw [ofF32, F32.value_unpacked, hu]
        rfl
      rw [hu] at hlt ⊢
      exact rounds_of_stored (roundsTo_round hm e s) hlt hunpacked
  rw [F32.toReal_eq]
  exact ⟨hrounds.isFinite,hrounds.rounded.exact (fits_of_held32 hheld) rfl⟩

/-- The conversion to single precision rounds once. -/
theorem rounded_toF32 {x : F64} (h : x.isFinite = true) (hlt : |x.toReal| ≤ 2^127) :
    x.toF32.isFinite = true ∧ Rounded .binary32 x.toF32.toReal x.toReal := by
  rw [toReal_eq] at hlt ⊢
  have hlt' : |toRat x.unpacked| ≤ 2^127 := by exact_mod_cast hlt
  obtain ⟨s,hu⟩ | ⟨s,m,e,hm,hu⟩ := finite_cases ((isFinite_iff x).mp h)
  · have hunpacked : x.toF32.unpacked = F32.stored (.zero s) := by
      rw [toF32, value_unpacked, hu]
      rfl
    rw [hu] at hlt' ⊢
    exact F32.rounded_of_stored (roundsTo_zero s) hlt' hunpacked
  · have hunpacked : x.toF32.unpacked = F32.stored (UnpackedFloat.round .binary32 s m e) := by
      rw [toF32, value_unpacked, hu]
      rfl
    rw [hu] at hlt' ⊢
    exact F32.rounded_of_stored (roundsTo_round hm e s) hlt' hunpacked

theorem toReal_one : (one : F64).toReal = 1 := by
  have hone : one.unpacked = .finite .positive (2^52) (-52) (by decide) := rfl
  rw [toReal_eq, hone]
  norm_num [FloatFormat.toRat, FloatFormat.signed]

/-- Only a zero passes for one. -/
theorem toReal_of_beq_zero {x : F64} (h : x.beq zero = true) : x.toReal = 0 := by
  have hbeq : x.unpacked.beq (.zero .positive) = true := by
    rw [← value_unpacked]
    exact h
  rw [toReal_eq]
  cases hu : x.unpacked with
  | zero s => exact Rat.cast_zero
  | infinity s => exact Rat.cast_zero
  | notANumber => exact Rat.cast_zero
  | finite s m e hm =>
    rw [hu] at hbeq
    cases s <;> cases hbeq

theorem exists_units (h : x.isFinite = true) : ∃ i : ℤ,
    x.toReal = ((i*2^Format.minExponent .binary64 : ℚ) : ℝ) := by
  obtain ⟨i,hi⟩ := (held h).exists_units
  exact ⟨i,by rw [toReal_eq, hi]⟩

theorem fits_zero : Fits .binary64 0 :=
  ⟨0,0,by decide,by decide,by rw [Int.cast_zero, zero_mul]⟩

theorem Rounds.eq_zero {z : F64} (h : z.Rounds 0) : z.toReal = 0 :=
  h.rounded.exact fits_zero Rat.cast_zero.symm

/-- Away from the least numbers the error is relative. -/
theorem Rounds.relative {z : F64} {r : ℝ} (h : z.Rounds r) (hr : r = 0 ∨ 2^(-1022 : ℤ) ≤ |r|) :
    |z.toReal-r| ≤ 1/2^52*|r| := by
  obtain rfl | hr := hr
  · rw [h.eq_zero, sub_zero, abs_zero, mul_zero]
  · have herror := h.rounded.error
    rw [ulp_binary64, minExponent_binary64] at herror
    have hexp : (-1074 : ℤ) = -((52 : ℕ) : ℤ)+(-1022) := rfl
    have hleast : (2 : ℝ)^(-1074 : ℤ) = 1/2^52*2^(-1022 : ℤ) := by
      rw [hexp, zpow_add₀ (by norm_num), zpow_neg, zpow_natCast, one_div]
    refine herror.trans (max_le (le_of_eq ?_) ?_)
    · norm_num
    · rw [hleast]
      exact mul_le_mul_of_nonneg_left hr (by norm_num)

/-- A result of the least numbers' size that is a whole number of units is exact. -/
theorem Rounds.relative_of_units {z : F64} {r : ℝ} (h : z.Rounds r) {i : ℤ}
    (hi : r = ((i*2^Format.minExponent .binary64 : ℚ) : ℝ)) : |z.toReal-r| ≤ 1/2^52*|r| := by
  by_cases hsmall : 2^(-1022 : ℤ) ≤ |r|
  · exact h.relative (.inr hsmall)
  have hfits : Fits .binary64 (i*2^Format.minExponent .binary64) := by
    refine ⟨i,_,?_,le_rfl,rfl⟩
    have hpow : (0 : ℝ) < 2^(-1074 : ℤ) := zpow_pos (by norm_num) _
    have hexp : (-1022 : ℤ) = ((52 : ℕ) : ℤ)+(-1074) := rfl
    rw [not_le, hi, minExponent_binary64, Rat.cast_mul, Rat.cast_zpow, Rat.cast_intCast,
      Rat.cast_ofNat, abs_mul, abs_of_pos hpow, hexp, zpow_add₀ (by norm_num), zpow_natCast] at hsmall
    have hlt := lt_of_mul_lt_mul_right hsmall hpow.le
    have hint : |i| < 2^52 := by exact_mod_cast hlt
    have hbits : Format.mantissaBits .binary64 = 53 := by decide
    rw [hbits]
    have := abs_lt.mp hint
    omega
  rw [h.rounded.exact hfits hi, sub_self, abs_zero]
  positivity

/-- A sum has no error of another kind: where it is small it is exact. -/
theorem relative_add (hx : x.isFinite = true) (hy : y.isFinite = true)
    (hlt : |x.toReal+y.toReal| ≤ 2^1023) :
    (x+y).isFinite = true ∧ |(x+y).toReal-(x.toReal+y.toReal)| ≤ 1/2^52*|x.toReal+y.toReal| := by
  have h := rounds_add hx hy hlt
  obtain ⟨i,hi⟩ := exists_units hx
  obtain ⟨j,hj⟩ := exists_units hy
  refine ⟨h.isFinite,h.relative_of_units (i := i+j) ?_⟩
  rw [hi, hj, ← Rat.cast_add, ← add_mul, Int.cast_add]

/-- A number that is not below zero, with the value it is `k` roundings away from. -/
structure IsNear (k : ℕ) (z : F64) (r : ℝ) : Prop where
  isFinite : z.isFinite = true
  nonneg : 0 ≤ r
  near : Near (1/2^52) k z.toReal r

namespace IsNear
variable {j k : ℕ} {x y : F64} {r q : ℝ}

theorem unit_le_one : (1/2^52 : ℝ) ≤ 1 := by norm_num

theorem two_mul_bound : (2 : ℝ)*2^1000 ≤ 2^1023 := by
  rw [← pow_succ']
  exact pow_le_pow_right₀ (by norm_num) (by norm_num)

theorem toReal_nonneg (h : x.IsNear k r) : 0 ≤ x.toReal :=
  (mul_nonneg h.nonneg (pow_nonneg (by norm_num) k)).trans h.near.1

theorem mono (h : x.IsNear j r) (hle : j ≤ k) : x.IsNear k r :=
  ⟨h.isFinite,h.nonneg,h.near.mono unit_le_one (by norm_num) hle h.nonneg h.toReal_nonneg⟩

theorem bounds (h : x.IsNear k r) : r*(1-k*(1/2^52)) ≤ x.toReal ∧ x.toReal*(1-k*(1/2^52)) ≤ r :=
  h.near.bounds unit_le_one h.nonneg h.toReal_nonneg

/-- After a sensible number of operations neither value is more than twice the other. -/
theorem le_two_mul_of_near (hr : 0 ≤ r) (hq : 0 ≤ q) (h : Near (1/2^52) k q r) (hk : k ≤ 2^51) :
    r ≤ 2*q ∧ q ≤ 2*r := by
  obtain ⟨hlow,hhigh⟩ := h.bounds unit_le_one hr hq
  have hk' : (k : ℝ) ≤ 2^51 := by exact_mod_cast hk
  have hhalf : (1/2 : ℝ) ≤ 1-k*(1/2^52) := by linarith
  have hr' := mul_le_mul_of_nonneg_left hhalf hr
  have hq' := mul_le_mul_of_nonneg_left hhalf hq
  constructor <;> linarith

theorem le_two_mul (h : x.IsNear k r) (hk : k ≤ 2^51) : r ≤ 2*x.toReal ∧ x.toReal ≤ 2*r :=
  le_two_mul_of_near h.nonneg h.toReal_nonneg h.near hk

theorem of_exact (hx : x.isFinite = true) (hr : x.toReal = r) (hnonneg : 0 ≤ r) : x.IsNear 0 r :=
  ⟨hx,hnonneg,hr ▸ Near.refl _⟩

/-- The value and one more rounding. -/
theorem of_relative (hx : x.isFinite = true) (hq : 0 ≤ q) (hr : 0 ≤ r)
    (h : |x.toReal-q| ≤ 1/2^52*q) (hnear : Near (1/2^52) k q r) : x.IsNear (k+1) r := by
  have hone := Near.of_error unit_le_one (by norm_num) hq h
  refine ⟨hx,hr,?_⟩
  rw [Nat.add_comm]
  exact hone.trans unit_le_one hnear

theorem add (hx : x.IsNear k r) (hy : y.IsNear k q) (hlt : r+q ≤ 2^1000) (hk : k ≤ 2^51) :
    (x+y).IsNear (k+1) (r+q) := by
  have hx' := (hx.le_two_mul hk).2
  have hy' := (hy.le_two_mul hk).2
  have hnonneg : 0 ≤ x.toReal+y.toReal := add_nonneg hx.toReal_nonneg hy.toReal_nonneg
  obtain ⟨hfinite,herror⟩ := relative_add hx.isFinite hy.isFinite (by
    rw [abs_of_nonneg hnonneg]
    calc x.toReal+y.toReal ≤ 2*r+2*q := add_le_add hx' hy'
      _ = 2*(r+q) := (mul_add 2 r q).symm
      _ ≤ 2*2^1000 := mul_le_mul_of_nonneg_left hlt (by norm_num)
      _ ≤ 2^1023 := two_mul_bound)
  rw [abs_of_nonneg hnonneg] at herror
  exact of_relative hfinite hnonneg (add_nonneg hx.nonneg hy.nonneg) herror (hx.near.add hy.near)

/-- Neither too small nor too large for one more operation. -/
structure Moderate (r : ℝ) : Prop where
  le : r ≤ 2^1000
  least : r = 0 ∨ 2^(-1000 : ℤ) ≤ r

theorem abs_le_of_near (hr : 0 ≤ r) (hq : 0 ≤ q) (h : Near (1/2^52) k q r) (hk : k ≤ 2^51)
    (hlt : r ≤ 2^1000) : |q| ≤ 2^1023 := by
  rw [abs_of_nonneg hq]
  calc q ≤ 2*r := (le_two_mul_of_near hr hq h hk).2
    _ ≤ 2*2^1000 := mul_le_mul_of_nonneg_left hlt (by norm_num)
    _ ≤ 2^1023 := two_mul_bound

/-- A value near a moderate one is zero or not too small. -/
theorem least_of_near (hr : 0 ≤ r) (hq : 0 ≤ q) (h : Near (1/2^52) k q r) (hk : k ≤ 2^51)
    (hmoderate : Moderate r) : q = 0 ∨ 2^(-1001 : ℤ) ≤ q := by
  obtain ⟨hlow,hhigh⟩ := le_two_mul_of_near hr hq h hk
  obtain rfl | hleast := hmoderate.least
  · rw [mul_zero] at hhigh
    exact .inl (le_antisymm hhigh hq)
  · have hexp : (-1000 : ℤ) = ((1 : ℕ) : ℤ)+(-1001) := rfl
    rw [hexp, zpow_add₀ (by norm_num), zpow_natCast, pow_one] at hleast
    exact .inr (le_of_mul_le_mul_left (hleast.trans hlow) (by norm_num))

/-- The rounding of a value near a moderate one. -/
theorem of_rounds {z : F64} (h : z.Rounds q) (hr : 0 ≤ r) (hq : 0 ≤ q)
    (hnear : Near (1/2^52) k q r) (hk : k ≤ 2^51) (hmoderate : Moderate r) :
    z.IsNear (k+1) r := by
  refine of_relative h.isFinite hq hr ?_ hnear
  have hpow : (2 : ℝ)^(-1022 : ℤ) ≤ 2^(-1001 : ℤ) :=
    zpow_le_zpow_right₀ (by norm_num) (by norm_num)
  have hrelative := h.relative ((least_of_near hr hq hnear hk hmoderate).imp_right fun hleast =>
    hpow.trans (hleast.trans (le_abs_self q)))
  rwa [abs_of_nonneg hq] at hrelative

theorem mul (hx : x.IsNear j r) (hy : y.IsNear k q) (hk : j+k ≤ 2^51) (hmoderate : Moderate (r*q)) :
    (x*y).IsNear (j+k+1) (r*q) := by
  have hnear := hx.near.mul unit_le_one hx.nonneg hx.toReal_nonneg hy.nonneg hy.toReal_nonneg hy.near
  have hvalue := mul_nonneg hx.toReal_nonneg hy.toReal_nonneg
  have hexact := mul_nonneg hx.nonneg hy.nonneg
  exact of_rounds (rounds_mul hx.isFinite hy.isFinite
    (abs_le_of_near hexact hvalue hnear hk hmoderate.le)) hexact hvalue hnear hk hmoderate

theorem div (hx : x.IsNear j r) (hy : y.IsNear k q) (hq : 0 < q) (hk : j+k ≤ 2^51)
    (hmoderate : Moderate (r/q)) : (x/y).IsNear (j+k+1) (r/q) := by
  have hy0 : 0 < y.toReal := by
    have := (hy.le_two_mul (by omega)).1
    linarith
  have hnear := hx.near.div unit_le_one hx.nonneg hx.toReal_nonneg hq hy0 hy.near
  have hvalue := div_nonneg hx.toReal_nonneg hy0.le
  have hexact := div_nonneg hx.nonneg hq.le
  have hpow : (2 : ℝ)^(-1074 : ℤ) ≤ 2^(-1001 : ℤ) :=
    zpow_le_zpow_right₀ (by norm_num) (by norm_num)
  have hleast (hne : x.toReal ≠ 0) : 2^(-1074 : ℤ) ≤ |x.toReal/y.toReal| := by
    have := (least_of_near hexact hvalue hnear hk hmoderate).resolve_left (div_ne_zero hne hy0.ne')
    exact hpow.trans (this.trans (le_abs_self _))
  exact of_rounds (rounds_div hx.isFinite hy.isFinite hy0.ne' hleast
    (abs_le_of_near hexact hvalue hnear hk hmoderate.le)) hexact hvalue hnear hk hmoderate

theorem ofNat {n : ℕ} (h : n < 2^53) : (F64.ofNat n).IsNear 0 n :=
  of_exact (toReal_ofNat h).1 (toReal_ofNat h).2 (Nat.cast_nonneg n)

theorem negZero : F64.negZero.IsNear 0 0 :=
  of_exact (by decide) ((toReal_eq _).trans Rat.cast_zero) le_rfl

/-- Sums add one rounding for each term. -/
theorem foldl {α : Type} {as : List α} {f : α → F64} {g : α → ℝ} (h : ∀ a ∈ as, (f a).IsNear k (g a))
    {acc : F64} {start : ℝ} (hacc : acc.IsNear k start) (hlt : start+(as.map g).sum ≤ 2^1000)
    (hk : k+as.length ≤ 2^51) :
    ((as.map f).foldl (· + ·) acc).IsNear (k+as.length) (start+(as.map g).sum) := by
  induction as generalizing acc start k with
  | nil =>
    rw [List.map_nil, List.map_nil, List.sum_nil, add_zero]
    exact hacc
  | cons a as ih =>
    rw [List.forall_mem_cons] at h
    rw [List.length_cons] at hk ⊢
    simp only [List.map_cons, List.sum_cons, List.foldl_cons, ← add_assoc] at hlt ⊢
    have hrest : 0 ≤ (as.map g).sum := List.sum_nonneg fun q hq => by
      obtain ⟨b,hb,rfl⟩ := List.mem_map.mp hq
      exact (h.2 b hb).nonneg
    have hstep := hacc.add h.1 ((le_add_of_nonneg_right hrest).trans hlt) (by omega)
    have hsum := ih (fun b hb => (h.2 b hb).mono (Nat.le_succ k)) hstep hlt (by omega)
    have hcount : k.succ+as.length = k+(as.length+1) := by omega
    rwa [hcount] at hsum

theorem sum {α : Type} {as : List α} {f : α → F64} {g : α → ℝ} (h : ∀ a ∈ as, (f a).IsNear k (g a))
    (hlt : (as.map g).sum ≤ 2^1000) (hk : k+as.length ≤ 2^51) :
    (Floating.sum (as.map f)).IsNear (k+as.length) (as.map g).sum := by
  have hfold := foldl h (negZero.mono (Nat.zero_le k)) ((zero_add _).trans_le hlt) hk
  rwa [zero_add] at hfold

end IsNear

/-- A number `k` roundings away from a sum whose terms come to `a` in size. -/
structure HoldsSum (k : ℕ) (z : F64) (r a : ℝ) : Prop where
  isFinite : z.isFinite = true
  size : |r| ≤ a
  error : |z.toReal-r| ≤ ((1+1/2^52)^k-1)*a

namespace HoldsSum
variable {j k n : ℕ} {x y : F64} {r q a b : ℝ}

theorem growth_mono (h : j ≤ k) : (1+1/2^52 : ℝ)^j ≤ (1+1/2^52)^k :=
  pow_le_pow_right₀ (by norm_num) h

theorem growth_le (hk : k ≤ 2^51) : (1+1/2^52 : ℝ)^k ≤ 1+2*k*(1/2^52) := by
  have hcast : (k : ℝ) ≤ 2^51 := by exact_mod_cast hk
  exact one_add_pow_le (by norm_num) (by linarith)

theorem mono (h : x.HoldsSum j r a) (hle : j ≤ k) : x.HoldsSum k r a :=
  ⟨h.isFinite,h.size,h.error.trans (mul_le_mul_of_nonneg_right
    (sub_le_sub_right (growth_mono hle) 1) ((abs_nonneg r).trans h.size))⟩

theorem abs_toReal_le (h : x.HoldsSum k r a) : |x.toReal| ≤ (1+1/2^52)^k*a := by
  have herror := h.error
  have hsize := h.size
  have htri := abs_sub_abs_le_abs_sub x.toReal r
  linarith

/-- After a sensible number of roundings the number is at most twice the size of its terms. -/
theorem abs_le_two_mul (h : x.HoldsSum k r a) (hk : k ≤ 2^51) : |x.toReal| ≤ 2*a := by
  have hcast : (k : ℝ) ≤ 2^51 := by exact_mod_cast hk
  have hgrowth := growth_le hk
  exact h.abs_toReal_le.trans (mul_le_mul_of_nonneg_right (by linarith)
    ((abs_nonneg r).trans h.size))

theorem of_exact (hx : x.isFinite = true) : x.HoldsSum 0 x.toReal |x.toReal| := by
  refine ⟨hx,le_rfl,?_⟩
  rw [sub_self, abs_zero, pow_zero, sub_self, zero_mul]

theorem zero : F64.zero.HoldsSum 0 0 0 := by
  have hzero : F64.zero.toReal = 0 := (toReal_eq _).trans Rat.cast_zero
  have h := @of_exact F64.zero (by decide)
  rwa [hzero, abs_zero] at h

theorem of_f32 {x : F32} (hx : x.isFinite = true) :
    (ofF32 x).HoldsSum 0 x.toReal |x.toReal| := by
  have h := of_exact (toReal_ofF32 hx).1
  rwa [(toReal_ofF32 hx).2] at h

/-- One more term, and one more rounding. -/
theorem add (hx : x.HoldsSum k r a) (hy : y.HoldsSum k q b) (hlt : a+b ≤ 2^1000) (hk : k ≤ 2^51) :
    (x+y).HoldsSum (k+1) (r+q) (a+b) := by
  have hnonneg : 0 ≤ a+b := (abs_nonneg r).trans (hx.size.trans
    (le_add_of_nonneg_right ((abs_nonneg q).trans hy.size)))
  have hvalue : |x.toReal+y.toReal| ≤ (1+1/2^52)^k*(a+b) :=
    (abs_add_le _ _).trans ((add_le_add hx.abs_toReal_le hy.abs_toReal_le).trans_eq
      (mul_add _ a b).symm)
  have hfit : |x.toReal+y.toReal| ≤ 2^1023 :=
    calc |x.toReal+y.toReal| ≤ 2*a+2*b := (abs_add_le _ _).trans
          (add_le_add (hx.abs_le_two_mul hk) (hy.abs_le_two_mul hk))
      _ = 2*(a+b) := (mul_add 2 a b).symm
      _ ≤ 2*2^1000 := mul_le_mul_of_nonneg_left hlt (by norm_num)
      _ ≤ 2^1023 := IsNear.two_mul_bound
  obtain ⟨hfinite,herror⟩ := relative_add hx.isFinite hy.isFinite hfit
  refine ⟨hfinite,(abs_add_le r q).trans (add_le_add hx.size hy.size),?_⟩
  have hterms : |x.toReal+y.toReal-(r+q)| ≤ ((1+1/2^52)^k-1)*(a+b) := by
    rw [add_sub_add_comm, mul_add]
    exact (abs_add_le _ _).trans (add_le_add hx.error hy.error)
  have hstep : 1/2^52*|x.toReal+y.toReal| ≤ 1/2^52*((1+1/2^52)^k*(a+b)) :=
    mul_le_mul_of_nonneg_left hvalue (by norm_num)
  calc |(x+y).toReal-(r+q)| ≤ |(x+y).toReal-(x.toReal+y.toReal)|+|x.toReal+y.toReal-(r+q)| :=
        abs_sub_le _ _ _
    _ ≤ 1/2^52*((1+1/2^52)^k*(a+b))+((1+1/2^52)^k-1)*(a+b) :=
        add_le_add (herror.trans hstep) hterms
    _ = ((1+1/2^52)^(k+1)-1)*(a+b) := by rw [pow_succ]; ring

/-- A single-precision number times a factor that has been rounded once. -/
theorem scale {d : F64} {v : F32} (hd : d.IsNear 1 q) (hv : v.isFinite = true) (hq : q ≤ 1)
    (hleast : 2^(-100 : ℤ) ≤ q) : (d*ofF32 v).HoldsSum 3 (q*v.toReal) (q*|v.toReal|) := by
  obtain ⟨hv',hvalue⟩ := toReal_ofF32 hv
  have hd' : |d.toReal-q| ≤ ((1+1/2^52)^2-1)*q := by
    obtain ⟨hlow,hhigh⟩ := hd.near
    have hq0 := hd.nonneg
    rw [pow_one] at hlow hhigh
    rw [abs_le]
    constructor <;> nlinarith
  have hterm : |d.toReal*v.toReal| ≤ (1+1/2^52)^2*(q*|v.toReal|) := by
    rw [abs_mul, ← mul_assoc]
    have htri := abs_sub_abs_le_abs_sub d.toReal q
    rw [abs_of_nonneg hd.nonneg] at htri
    exact mul_le_mul_of_nonneg_right (by linarith) (abs_nonneg _)
  have hsmall : d.toReal*v.toReal = 0 ∨ 2^(-1022 : ℤ) ≤ |d.toReal*v.toReal| := by
    obtain hzero | hleast' := F32.eq_zero_or_le hv
    · exact .inl (by rw [hzero, mul_zero])
    · have hdown : (2 : ℝ)^(-101 : ℤ) ≤ |d.toReal| := by
        have hexp : (-100 : ℤ) = ((1 : ℕ) : ℤ)+(-101) := rfl
        rw [hexp, zpow_add₀ (by norm_num), zpow_natCast, pow_one] at hleast
        have := (hd.le_two_mul (by norm_num)).1
        exact (le_of_mul_le_mul_left (hleast.trans this) (by norm_num)).trans (le_abs_self _)
      have hexp : (2 : ℝ)^(-1022 : ℤ) ≤ 2^(-101 : ℤ)*2^(-149 : ℤ) := by
        rw [← zpow_add₀ (by norm_num)]
        exact zpow_le_zpow_right₀ (by norm_num) (by norm_num)
      rw [abs_mul]
      exact .inr (hexp.trans (mul_le_mul hdown hleast' (by positivity) (abs_nonneg _)))
  have hrounds := rounds_mul hd.isFinite hv' (by
    rw [hvalue]
    have hv128 := (F32.abs_toReal_lt v).le
    have hd2 := (hd.le_two_mul (by norm_num)).2
    rw [abs_mul, abs_of_nonneg hd.toReal_nonneg]
    calc d.toReal*|v.toReal| ≤ 2*2^128 :=
          mul_le_mul (by linarith) hv128 (abs_nonneg _) (by norm_num)
      _ = 2^129 := by norm_num
      _ ≤ 2^1023 := pow_le_pow_right₀ (by norm_num) (by norm_num))
  rw [hvalue] at hrounds
  have hround := hrounds.relative hsmall
  refine ⟨hrounds.isFinite,by rw [abs_mul, abs_of_nonneg hd.nonneg],?_⟩
  have hfactor : |d.toReal*v.toReal-q*v.toReal| ≤ ((1+1/2^52)^2-1)*(q*|v.toReal|) := by
    rw [← sub_mul, abs_mul, ← mul_assoc]
    exact mul_le_mul_of_nonneg_right hd' (abs_nonneg _)
  calc |(d*ofF32 v).toReal-q*v.toReal| ≤
        |(d*ofF32 v).toReal-d.toReal*v.toReal|+|d.toReal*v.toReal-q*v.toReal| := abs_sub_le _ _ _
    _ ≤ 1/2^52*((1+1/2^52)^2*(q*|v.toReal|))+((1+1/2^52)^2-1)*(q*|v.toReal|) :=
        add_le_add (hround.trans (mul_le_mul_of_nonneg_left hterm (by norm_num))) hfactor
    _ = ((1+1/2^52)^3-1)*(q*|v.toReal|) := by ring

/-- A value taken a whole number of times. -/
theorem mul_ofNat (hx : x.isFinite = true) {n : ℕ} (hn : n < 2^53) (hlt : n*|x.toReal| ≤ 2^1000) :
    (x*ofNat n).HoldsSum 1 (n*x.toReal) (n*|x.toReal|) := by
  obtain ⟨hfinite,hvalue⟩ := toReal_ofNat hn
  have habs : |x.toReal*n| = n*|x.toReal| := by rw [abs_mul, Nat.abs_cast, mul_comm]
  have hpow : (2 : ℝ)^1000 ≤ 2^1023 := pow_le_pow_right₀ (by norm_num) (by norm_num)
  have hrounds := rounds_mul hx hfinite (by rw [hvalue, habs]; exact hlt.trans hpow)
  rw [hvalue] at hrounds
  obtain ⟨i,hi⟩ := exists_units hx
  have hunits : x.toReal*n = (((i*n : ℤ)*2^Format.minExponent .binary64 : ℚ) : ℝ) := by
    rw [hi]
    push_cast
    ring
  have herror := hrounds.relative_of_units hunits
  refine ⟨hrounds.isFinite,by rw [← habs, mul_comm],?_⟩
  rw [mul_comm (n : ℝ) x.toReal, ← habs, pow_one, add_sub_cancel_left]
  exact herror

theorem neg_zero : F64.negZero.HoldsSum 0 0 0 := by
  have hzero : F64.negZero.toReal = 0 := (toReal_eq _).trans Rat.cast_zero
  have h := of_exact (x := F64.negZero) (by decide)
  rwa [hzero, abs_zero] at h

theorem foldl {α : Type} {as : List α} {f : α → F64} {g size : α → ℝ} {r a : ℝ}
    (h : ∀ v ∈ as, (f v).HoldsSum k (g v) (size v)) (hx : x.HoldsSum k r a)
    (hlt : a+(as.map size).sum ≤ 2^1000) (hcount : k+as.length ≤ 2^51) :
    ((as.map f).foldl (· + ·) x).HoldsSum (k+as.length) (r+(as.map g).sum)
      (a+(as.map size).sum) := by
  induction as generalizing x r a k with
  | nil => simpa using hx
  | cons v as ih =>
    rw [List.forall_mem_cons] at h
    rw [List.length_cons] at hcount ⊢
    simp only [List.map_cons, List.sum_cons, List.foldl_cons, ← add_assoc] at hlt ⊢
    have hrest : 0 ≤ (as.map size).sum := List.sum_nonneg fun b hb => by
      obtain ⟨w,hw,rfl⟩ := List.mem_map.mp hb
      exact (abs_nonneg _).trans (h.2 w hw).size
    have hstep := hx.add h.1 ((le_add_of_nonneg_right hrest).trans hlt) (by omega)
    have hfold := ih (fun w hw => (h.2 w hw).mono (Nat.le_add_right k 1)) hstep hlt (by omega)
    rwa [Nat.add_right_comm, Nat.add_assoc] at hfold

/-- Terms added up from minus zero. -/
theorem sum {α : Type} {as : List α} {f : α → F64} {g size : α → ℝ}
    (h : ∀ v ∈ as, (f v).HoldsSum k (g v) (size v)) (hlt : (as.map size).sum ≤ 2^1000)
    (hcount : k+as.length ≤ 2^51) :
    (Floating.sum (as.map f)).HoldsSum (k+as.length) (as.map g).sum (as.map size).sum := by
  have hfold := foldl h (neg_zero.mono (Nat.zero_le k)) ((zero_add _).trans_le hlt) hcount
  rwa [zero_add, zero_add] at hfold

/-- Terms taken in one after another, all scaled by one factor. -/
theorem foldl_scale {α : Type} {as : List α} {f : α → F32} {d : F64} (hd : d.IsNear 1 q) (hq : q ≤ 1)
    (hleast : 2^(-100 : ℤ) ≤ q) (hf : ∀ v ∈ as, (f v).isFinite = true) (hx : x.HoldsSum k r a)
    (hk : 3 ≤ k) (hlt : a+q*(as.map fun v => |(f v).toReal|).sum ≤ 2^1000)
    (hcount : k+as.length ≤ 2^51) :
    (as.foldl (fun acc v => acc+d*ofF32 (f v)) x).HoldsSum (k+as.length)
      (r+q*(as.map fun v => (f v).toReal).sum) (a+q*(as.map fun v => |(f v).toReal|).sum) := by
  rw [← List.sum_map_mul_left] at hlt ⊢
  rw [← List.sum_map_mul_left]
  have hfold := foldl (fun v hv => (scale hd (hf v hv) hq hleast).mono hk) hx hlt hcount
  rwa [List.foldl_map] at hfold

/-- The error of as many roundings as there are clients. -/
theorem error_le (h : x.HoldsSum k r a) (hk : k ≤ 2^25) : |x.toReal-r| ≤ 1/2^26*a := by
  have hcast : (k : ℝ) ≤ 2^25 := by exact_mod_cast hk
  have hgrowth : (1+1/2^52 : ℝ)^k-1 ≤ 1/2^26 := by
    linarith [growth_le (hk.trans (by norm_num))]
  exact h.error.trans (mul_le_mul_of_nonneg_right hgrowth ((abs_nonneg r).trans h.size))

/-- What single precision keeps of it. -/
theorem toF32 (h : x.HoldsSum k r a) (hk : k ≤ 2^25) (ha : a ≤ 2^126) :
    x.toF32.isFinite = true ∧ |x.toF32.toReal-r| ≤ 1/2^22*a+2^(-149 : ℤ) := by
  have ha0 : 0 ≤ a := (abs_nonneg r).trans h.size
  have habs := h.abs_le_two_mul (hk.trans (by norm_num))
  have herror := h.error_le hk
  obtain ⟨hfinite,hrounded⟩ := rounded_toF32 h.isFinite (by linarith)
  refine ⟨hfinite,?_⟩
  have hround := hrounded.error
  rw [F32.ulp_binary32, F32.minExponent_binary32] at hround
  have hpow : (0 : ℝ) ≤ 2^(-149 : ℤ) := (zpow_pos (by norm_num) _).le
  have hmax := hround.trans (max_le_add_of_nonneg (by positivity) hpow)
  push_cast at hmax
  have hsize : |x.toReal| ≤ (1+1/2^26)*a := by
    have := abs_sub_abs_le_abs_sub x.toReal r
    linarith [h.size]
  calc |x.toF32.toReal-r| ≤ |x.toF32.toReal-x.toReal|+|x.toReal-r| := abs_sub_le _ _ _
    _ ≤ 1/2^22*a+2^(-149 : ℤ) := by linarith

end HoldsSum

section Exact

/-- A whole number of some binary fraction. -/
theorem fits_div_pow {n j : ℕ} (hn : n < 2^53) (hj : j ≤ 1074) : Fits .binary64 (n/2^j) := by
  have hmin : Format.minExponent .binary64 = -1074 := by decide
  refine ⟨n,-j,hn,by omega,?_⟩
  rw [zpow_neg, zpow_natCast, ← div_eq_mul_inv]
  rfl

theorem Rounds.exact {z : F64} {n j : ℕ} (h : z.Rounds ((n : ℝ)/2^j)) (hn : n < 2^53)
    (hj : j ≤ 1074) : z.toReal = n/2^j :=
  h.rounded.exact (fits_div_pow hn hj) (by push_cast; rfl)

theorem div_pow_le {n : ℕ} (hn : n < 2^53) (j : ℕ) : |(n : ℝ)/2^j| ≤ 2^1023 := by
  have hn' : (n : ℝ) ≤ 2^53 := by exact_mod_cast hn.le
  rw [abs_of_nonneg (by positivity)]
  calc (n : ℝ)/2^j ≤ n := div_le_self (Nat.cast_nonneg n) (one_le_pow₀ (by norm_num))
    _ ≤ 2^53 := hn'
    _ ≤ 2^1023 := pow_le_pow_right₀ (by norm_num) (by norm_num)

/-- A product that is a whole number of some fraction is not rounded. -/
theorem exact_mul {x y : F64} {n j : ℕ} (hx : x.isFinite = true) (hy : y.isFinite = true)
    (hn : n < 2^53) (hj : j ≤ 1074) (h : x.toReal*y.toReal = n/2^j) :
    (x*y).isFinite = true ∧ (x*y).toReal = n/2^j := by
  have hrounds := rounds_mul hx hy (by rw [h]; exact div_pow_le hn j)
  rw [h] at hrounds
  exact ⟨hrounds.isFinite,hrounds.exact hn hj⟩

/-- Neither is such a quotient. -/
theorem exact_div {x y : F64} {n j : ℕ} (hx : x.isFinite = true) (hy : y.isFinite = true)
    (hy0 : y.toReal ≠ 0) (hn : n < 2^53) (hj : j ≤ 1074) (h : x.toReal/y.toReal = n/2^j) :
    (x/y).isFinite = true ∧ (x/y).toReal = n/2^j := by
  have hleast : x.toReal ≠ 0 → (2 : ℝ)^(-1074 : ℤ) ≤ |x.toReal/y.toReal| := by
    intro hx0
    have hne : (n : ℝ)/2^j ≠ 0 := h ▸ div_ne_zero hx0 hy0
    have hone : (1 : ℝ) ≤ n := Nat.one_le_cast.mpr (Nat.pos_of_ne_zero fun hzero => hne (by
      rw [hzero, Nat.cast_zero, zero_div]))
    rw [h, abs_of_nonneg (by positivity)]
    calc (2 : ℝ)^(-1074 : ℤ) ≤ 2^(-(j : ℤ)) := zpow_le_zpow_right₀ (by norm_num) (by omega)
      _ = 1/2^j := by rw [zpow_neg, zpow_natCast, one_div]
      _ ≤ n/2^j := div_le_div_of_nonneg_right hone (by positivity)
  have hrounds := rounds_div hx hy hy0 hleast (by rw [h]; exact div_pow_le hn j)
  rw [h] at hrounds
  exact ⟨hrounds.isFinite,hrounds.exact hn hj⟩

variable {α : Type} {as : List α} {f : α → F64} {i : α → ℕ} {j : ℕ}

theorem exact_foldl (hj : j ≤ 1074)
    (h : ∀ a ∈ as, (f a).isFinite = true ∧ (f a).toReal = i a/2^j) {acc : F64} {n : ℕ}
    (hacc : acc.isFinite = true ∧ acc.toReal = n/2^j) (hlt : n+(as.map i).sum < 2^53) :
    ((as.map f).foldl (· + ·) acc).isFinite = true ∧
      ((as.map f).foldl (· + ·) acc).toReal = ((n+(as.map i).sum : ℕ) : ℝ)/2^j := by
  induction as generalizing acc n with
  | nil => exact hacc
  | cons a as ih =>
    rw [List.forall_mem_cons] at h
    simp only [List.map_cons, List.sum_cons, List.foldl_cons, ← add_assoc] at hlt ⊢
    have hsum : acc.toReal+(f a).toReal = ((n+i a : ℕ) : ℝ)/2^j := by
      rw [hacc.2, h.1.2, ← add_div, Nat.cast_add]
    have hstep := rounds_add hacc.1 h.1.1 (hsum ▸ div_pow_le (by omega) j)
    rw [hsum] at hstep
    exact ih h.2 ⟨hstep.isFinite,hstep.exact (by omega) hj⟩ hlt

/-- Sums of whole numbers of one fraction are exact while the mantissa has room for them. -/
theorem exact_sum (hj : j ≤ 1074)
    (h : ∀ a ∈ as, (f a).isFinite = true ∧ (f a).toReal = i a/2^j) (hlt : (as.map i).sum < 2^53) :
    (Floating.sum (as.map f)).isFinite = true ∧
      (Floating.sum (as.map f)).toReal = ((as.map i).sum : ℕ)/2^j := by
  have hzero : F64.negZero.isFinite = true ∧ F64.negZero.toReal = ((0 : ℕ) : ℝ)/2^j := by
    refine ⟨by decide,?_⟩
    rw [Nat.cast_zero, zero_div]
    exact (toReal_eq _).trans Rat.cast_zero
  have hfold := exact_foldl hj h hzero ((Nat.zero_add _).trans_lt hlt)
  rwa [Nat.zero_add] at hfold

end Exact

end F64
