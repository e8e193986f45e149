import Mathlib.Data.Prod.Lex
import ConfluxFL.Lib.F32
import ConfluxFL.Lib.FloatRounding

/-! Laws of single-precision arithmetic: its neutral elements, what divides out, and which
operations can come to a NaN. -/
open Float.Model (Format UnpackedFloat totalExponent)
open Float.Model.UnpackedFloat FloatFormat

namespace FloatFormat
variable {spec : Format} {u v : UnpackedFloat}

/-- Not below zero, and a number; either zero counts. -/
def Nonneg : UnpackedFloat → Prop
  | .zero _ | .finite .positive _ _ _ | .infinity .positive => True
  | _ => False

/-- A zero or a finite number. -/
def Finite (u : UnpackedFloat) : Prop := u.isFinite = true

theorem Nonneg.ne_nan (h : Nonneg u) : u ≠ .notANumber := by
  rintro rfl
  exact h

theorem Finite.ne_nan (h : Finite u) : u ≠ .notANumber := by
  rintro rfl
  cases h

theorem finite_cases (h : Finite u) :
    (∃ s, u = .zero s) ∨ ∃ s m e hm, u = .finite s m e hm := by
  cases u with
  | zero s => exact .inl ⟨s,rfl⟩
  | finite s m e hm => exact .inr ⟨s,m,e,hm,rfl⟩
  | infinity s => cases h
  | notANumber => cases h

theorem nonneg_cases (h : Nonneg u) : (∃ s, u = .zero s) ∨
    (∃ m e hm, u = .finite .positive m e hm) ∨ u = .infinity .positive := by
  cases u with
  | zero s => exact .inl ⟨s,rfl⟩
  | finite s m e hm =>
    cases s with
    | positive => exact .inr (.inl ⟨m,e,hm,rfl⟩)
    | negative => exact h.elim
  | infinity s =>
    cases s with
    | positive => exact .inr (.inr rfl)
    | negative => exact h.elim
  | notANumber => exact h.elim

theorem roundWithAccuracy_sign (s : Sign) (m : ℕ) (e : ℤ) (acc : Accuracy) :
    roundWithAccuracy spec s m e acc = .zero s ∨
      ∃ m' e' h, roundWithAccuracy spec s m e acc = .finite s m' e' h := by
  simp only [roundWithAccuracy]
  split
  · exact .inl rfl
  · rename_i hne
    exact .inr ⟨_,_,Nat.pos_of_ne_zero hne,rfl⟩

theorem nonneg_roundWithAccuracy (m : ℕ) (e : ℤ) (acc : Accuracy) :
    Nonneg (roundWithAccuracy spec .positive m e acc) := by
  obtain h | ⟨m',e',hm,h⟩ := @roundWithAccuracy_sign spec .positive m e acc
  · rw [h]
    trivial
  · rw [h]
    trivial

theorem finite_roundWithAccuracy (s : Sign) (m : ℕ) (e : ℤ) (acc : Accuracy) :
    Finite (roundWithAccuracy spec s m e acc) := by
  obtain h | ⟨m',e',hm,h⟩ := @roundWithAccuracy_sign spec s m e acc
  · rw [h]
    rfl
  · rw [h]
    rfl

theorem finite_normalize (n e : ℤ) (s : Sign) : Finite (UnpackedFloat.normalize spec n e s) := by
  unfold UnpackedFloat.normalize
  split
  · exact finite_roundWithAccuracy ..
  · rfl
  · exact finite_roundWithAccuracy ..

/-- What comes back of a finite number keeps its sign and may have become infinite or zero. -/
theorem unpack_pack_cases (s : Sign) (m : ℕ) (e : ℤ) (hm : 0 < m) :
    unpack spec (pack spec (.finite s m e hm)) = .infinity s ∨
      unpack spec (pack spec (.finite s m e hm)) = .zero s ∨
      ∃ m' e' hm', unpack spec (pack spec (.finite s m e hm)) = .finite s m' e' hm' := by
  have hcomponents (x : BitVec spec.exponentBits) (w : BitVec spec.mantissaBitsWithoutImplicit)
      (hx : x ≠ -1#_) : unpack spec (packComponents spec s x w) = .zero s ∨
        ∃ m' e' hm', unpack spec (packComponents spec s x w) = .finite s m' e' hm' := by
    simp only [unpack, unpackExponent_packComponents, unpackMantissa_packComponents,
      unpackSign_packComponents, if_neg hx]
    split
    · split
      · exact .inl rfl
      · rename_i hw
        exact .inr ⟨_,_,Nat.pos_of_ne_zero (toNat_ne_zero hw),rfl⟩
    · exact .inr ⟨_,_,by rw [toNat_implicit]; positivity,rfl⟩
  have hcapacity : 0 < 2^spec.exponentBits := Nat.two_pow_pos _
  rw [pack]
  split
  · left
    simp only [packedInfinity, unpack, unpackExponent_packComponents,
      unpackMantissa_packComponents, unpackSign_packComponents, if_pos]
    rfl
  · rename_i hmax
    split
    · right
      refine hcomponents _ _ fun heq => ?_
      have := congrArg BitVec.toNat heq
      rw [BitVec.neg_one_eq_allOnes, BitVec.toNat_allOnes, BitVec.toNat_ofNat,
        Nat.mod_eq_of_lt (by omega)] at this
      omega
    · right
      have hpos : 1 < 2^spec.exponentBits := Nat.one_lt_two_pow spec.he.ne'
      refine hcomponents _ _ fun heq => ?_
      have := congrArg BitVec.toNat heq
      rw [BitVec.neg_one_eq_allOnes, BitVec.toNat_allOnes, BitVec.toNat_zero] at this
      omega

end FloatFormat

namespace F32

/-- What the bits are read as. -/
def unpacked (x : F32) : UnpackedFloat := unpack .binary32 x.bits.toBitVec

/-- What is read back of a result. -/
def stored (u : UnpackedFloat) : UnpackedFloat := unpack .binary32 (pack .binary32 u)

theorem stored_unpacked (x : F32) : stored x.unpacked = x.unpacked := by
  by_cases h : x.unpacked = .notANumber
  · rw [h]
    rfl
  · have hpack : pack .binary32 x.unpacked = x.bits.toBitVec :=
      @pack_unpack .binary32 (by decide) x.bits.toBitVec h
    exact congrArg (unpack .binary32) hpack

theorem value_unpacked (x : F32) : x.value.toModel.unpack = x.unpacked := stored_unpacked x

/-- A number is determined by what it is read as. -/
theorem ext_unpacked {x y : F32} (h : x.unpacked = y.unpacked) (hnan : x.unpacked ≠ .notANumber) :
    x = y := by
  have hx : pack .binary32 x.unpacked = x.bits.toBitVec :=
    @pack_unpack .binary32 (by decide) x.bits.toBitVec hnan
  have hnan' : y.unpacked ≠ .notANumber := h ▸ hnan
  have hy : pack .binary32 y.unpacked = y.bits.toBitVec :=
    @pack_unpack .binary32 (by decide) y.bits.toBitVec hnan'
  have hbits : x.bits = y.bits := UInt32.toBitVec_inj.mp (hx.symm.trans ((congrArg _ h).trans hy))
  cases x
  cases y
  exact congrArg F32.mk hbits

section Operations
variable (x y : F32)

theorem unpacked_add : (x+y).unpacked = stored (add .binary32 x.unpacked y.unpacked) := by
  rw [← value_unpacked x, ← value_unpacked y]
  rfl

theorem unpacked_sub : (x-y).unpacked = stored (sub .binary32 x.unpacked y.unpacked) := by
  rw [← value_unpacked x, ← value_unpacked y]
  rfl

theorem unpacked_mul : (x*y).unpacked = stored (mul .binary32 x.unpacked y.unpacked) := by
  rw [← value_unpacked x, ← value_unpacked y]
  rfl

theorem unpacked_div : (x/y).unpacked = stored (div .binary32 x.unpacked y.unpacked) := by
  rw [← value_unpacked x, ← value_unpacked y]
  rfl

theorem unpacked_sqrt : x.sqrt.unpacked = stored (UnpackedFloat.sqrt .binary32 x.unpacked) := by
  rw [← value_unpacked x]
  rfl

theorem unpacked_ofNat (n : ℕ) :
    (ofNat n).unpacked = stored (UnpackedFloat.normalize .binary32 n 0 .positive) := rfl

theorem isFinite_iff : x.isFinite = true ↔ Finite x.unpacked := by
  rw [← value_unpacked]
  rfl

theorem isNaN_eq_false_iff : x.isNaN = false ↔ x.unpacked ≠ .notANumber := by
  rw [← value_unpacked]
  change x.value.toModel.unpack.isNaN = false ↔ _
  cases x.value.toModel.unpack <;> simp [UnpackedFloat.isNaN]

theorem lt_eq : x.lt y = x.unpacked.lt y.unpacked := by
  rw [← value_unpacked x, ← value_unpacked y]
  exact Bool.decide_eq_true

theorem beq_eq : x.beq y = x.unpacked.beq y.unpacked := by
  rw [← value_unpacked x, ← value_unpacked y]
  rfl

end Operations

theorem unpacked_one : one.unpacked = .finite .positive (2^23) (-23) (by decide) := rfl

theorem unpacked_zero : zero.unpacked = .zero .positive := rfl

theorem unpacked_negZero : negZero.unpacked = .zero .negative := rfl

section Neutral
variable {x : F32}

theorem stored_of_finite (s : Sign) {m : ℕ} {e : ℤ} (hm : 0 < m) (h : Canonical .binary32 m e)
    (hlt : (m : ℚ)*2^e < 2^128) :
    stored (.finite s m e hm) = .finite s m e hm :=
  unpack_pack_of_lt hm h (by decide) hlt s

theorem mul_one_of_finite (h : x.isFinite = true) : x*one = x := by
  have hx := (isFinite_iff x).mp h
  have hstored := stored_unpacked x
  symm
  refine ext_unpacked ?_ hx.ne_nan
  rw [unpacked_mul, unpacked_one]
  obtain ⟨s,hu⟩ | ⟨s,m,e,hm,hu⟩ := finite_cases hx
  · rw [hu] at hstored ⊢
    cases s <;> exact hstored.symm
  · have hcanon : Canonical .binary32 m e := canonical_of_unpack (by decide) hu
    have hround := roundWithAccuracy_exact hm hcanon s 23
    have hsign : s*Sign.positive = s := by cases s <;> rfl
    have hmul : mul .binary32 (.finite s m e hm) (.finite .positive (2^23) (-23) (by decide)) =
        .finite s m e hm := by
      rw [mul, hsign]
      exact hround
    rw [hu] at hstored ⊢
    rw [hmul, hstored]

/-- Adding to positive zero only loses the sign of a negative one. -/
theorem zero_add_of_finite (h : x.isFinite = true) : zero+x = if x = negZero then zero else x := by
  have hx := (isFinite_iff x).mp h
  have hstored := stored_unpacked x
  split
  · next heq =>
    rw [heq]
    decide +kernel
  · next hne =>
    symm
    refine ext_unpacked ?_ hx.ne_nan
    rw [unpacked_add, unpacked_zero]
    obtain ⟨s,hu⟩ | ⟨s,m,e,hm,hu⟩ := finite_cases hx
    · cases s with
      | positive =>
        rw [hu]
        rfl
      | negative => exact absurd (ext_unpacked (hu.trans unpacked_negZero.symm) hx.ne_nan) hne
    · rw [hu] at hstored ⊢
      exact hstored.symm

theorem negZero_add (h : x.unpacked ≠ .notANumber) : negZero+x = x := by
  have hstored := stored_unpacked x
  symm
  refine ext_unpacked ?_ h
  rw [unpacked_add, unpacked_negZero]
  cases hu : x.unpacked with
  | notANumber => exact absurd hu h
  | infinity s => cases s <;> rfl
  | zero s => cases s <;> rfl
  | finite s m e hm =>
    rw [hu] at hstored
    exact hstored.symm

theorem divCore_self {m : ℕ} (hm : 0 < m) (e : ℤ) :
    divCore .binary32 m e m e = (2^23*2^1,-23-((1 : ℕ) : ℤ),.exact) := by
  have ht : min (0 : ℤ) (Format.targetExponent .binary32 0) = -24 := by decide
  have hshift : ((0 : ℤ)- -24).toNat = 24 := by decide
  simp only [divCore, sub_self, ht, hshift, Nat.shiftLeft_eq, Nat.mul_div_cancel_left _ hm,
    Nat.mul_mod_right, accuracyOfFraction, if_pos]
  rfl

theorem canonical_one : Canonical .binary32 (2^23) (-23) := by
  rw [Canonical, totalExponent, Nat.log2_two_pow]
  decide

/-- A number that is neither zero nor infinite divides itself once. -/
theorem div_self_of_finite {s : Sign} {m : ℕ} {e : ℤ} {hm : 0 < m} (h : x.unpacked = .finite s m e hm) :
    x/x = one := by
  have hsign : s/s = .positive := by cases s <;> rfl
  have hround := @roundWithAccuracy_exact .binary32 (2^23) (-23) (by decide) canonical_one .positive 1
  have hdiv : div .binary32 (.finite s m e hm) (.finite s m e hm) =
      .finite .positive (2^23) (-23) (by decide) := by
    rw [div, hsign, divCore_self hm]
    exact hround
  symm
  refine ext_unpacked ?_ ?_
  · rw [unpacked_div, h, hdiv, unpacked_one]
    rfl
  · rw [unpacked_one]
    intro hnan
    cases hnan

end Neutral

/-! Integers. -/

theorem ulp_binary32 : ulp .binary32 = 1/8388608 := by
  norm_num [ulp]

theorem minExponent_binary32 : Format.minExponent .binary32 = -149 := by decide

theorem normalize_pos {n : ℕ} (hn : 0 < n) :
    UnpackedFloat.normalize .binary32 n 0 .positive =
      UnpackedFloat.round .binary32 .positive n 0 := by
  have hcompare : compare (n : ℤ) 0 = .gt := Int.compare_eq_gt.mpr (by omega)
  rw [UnpackedFloat.normalize, hcompare]
  rfl

/-- A positive integer is read as a number within a rounding of it, or is too large. -/
theorem unpacked_ofNat_cases {n : ℕ} (hn : 0 < n) : ∃ m e hm,
    Canonical .binary32 m e ∧ (n : ℚ)*(1-ulp .binary32)-2^(-149 : ℤ) ≤ m*2^e ∧
      (m : ℚ)*2^e ≤ n*(1+ulp .binary32)+2^(-149 : ℤ) ∧
      (ofNat n).unpacked = stored (.finite .positive m e hm) := by
  obtain ⟨hform,hlow,hhigh⟩ := @round_spec .binary32 n 0 hn .positive
  rw [minExponent_binary32, zpow_zero, mul_one] at hlow hhigh
  have hone : (1 : ℚ) ≤ n := Nat.one_le_cast.mpr hn
  have hleast : (2 : ℚ)^(-149 : ℤ) ≤ 1/2 := by norm_num
  have hpos : 0 < magnitude (UnpackedFloat.round .binary32 .positive n 0) := by
    rw [ulp_binary32] at hlow
    linarith
  rw [unpacked_ofNat, normalize_pos hn]
  obtain hzero | ⟨m,e,hm,heq,hcanon⟩ := hform
  · rw [hzero] at hpos
    exact absurd hpos (lt_irrefl _)
  · rw [heq] at hlow hhigh ⊢
    exact ⟨m,e,hm,hcanon,hlow,hhigh,rfl⟩

theorem unpacked_ofNat_of_lt {n : ℕ} (hn : 0 < n) (hlt : n < 2^127) : ∃ m e hm,
    (ofNat n).unpacked = .finite .positive m e hm ∧ Canonical .binary32 m e ∧
      (n : ℚ)*(1-ulp .binary32)-2^(-149 : ℤ) ≤ m*2^e ∧
      (m : ℚ)*2^e ≤ n*(1+ulp .binary32)+2^(-149 : ℤ) := by
  obtain ⟨m,e,hm,hcanon,hlow,hhigh,heq⟩ := unpacked_ofNat_cases hn
  have hn' : (n : ℚ) ≤ 2^127 := by exact_mod_cast hlt.le
  have hfits : (m : ℚ)*2^e < 2^128 := by
    rw [ulp_binary32] at hhigh
    have hleast : (2 : ℚ)^(-149 : ℤ) ≤ 1 := by norm_num
    calc (m : ℚ)*2^e ≤ 2^127*(1+1/8388608)+1 := by linarith
      _ < 2^128 := by norm_num
  rw [stored_of_finite .positive hm hcanon hfits] at heq
  exact ⟨m,e,hm,heq,hcanon,hlow,hhigh⟩

/-! No NaN. -/

theorem stored_ne_nan {u : UnpackedFloat} (h : u ≠ .notANumber) : stored u ≠ .notANumber := by
  cases u with
  | notANumber => exact absurd rfl h
  | infinity s => cases s <;> exact nofun
  | zero s => cases s <;> exact nofun
  | finite s m e hm =>
    unfold stored
    obtain hu | hu | ⟨m',e',hm',hu⟩ := @unpack_pack_cases .binary32 s m e hm <;>
      · rw [hu]
        exact nofun

theorem nonneg_stored {u : UnpackedFloat} (h : FloatFormat.Nonneg u) :
    FloatFormat.Nonneg (stored u) := by
  obtain ⟨s,rfl⟩ | ⟨m,e,hm,rfl⟩ | rfl := nonneg_cases h
  · cases s <;> trivial
  · unfold stored
    obtain hu | hu | ⟨m',e',hm',hu⟩ := @unpack_pack_cases .binary32 .positive m e hm <;>
      · rw [hu]
        trivial
  · trivial

/-- Not below zero, and a number. -/
def Nonneg (x : F32) : Prop := FloatFormat.Nonneg x.unpacked

section Nonneg
variable {x y : F32}

theorem Nonneg.ne_nan (h : x.Nonneg) : x.unpacked ≠ .notANumber := FloatFormat.Nonneg.ne_nan h

theorem Nonneg.add (hx : x.Nonneg) (hy : y.Nonneg) : (x+y).Nonneg := by
  unfold Nonneg at *
  rw [unpacked_add]
  refine nonneg_stored ?_
  obtain ⟨s,hu⟩ | ⟨m,e,hm,hu⟩ | hu := nonneg_cases hx
  · rw [hu]
    obtain ⟨t,hv⟩ | ⟨m',e',hm',hv⟩ | hv := nonneg_cases hy <;> rw [hv]
    · cases s <;> cases t <;> trivial
    · trivial
    · trivial
  · rw [hu]
    obtain ⟨t,hv⟩ | ⟨m',e',hm',hv⟩ | hv := nonneg_cases hy <;> rw [hv]
    · trivial
    · simp only [UnpackedFloat.add, UnpackedFloat.normalize]
      split
      · rename_i hlt
        have hneg := Int.compare_eq_lt.mp hlt
        simp only [Sign.apply] at hneg
        omega
      · trivial
      · exact nonneg_roundWithAccuracy _ _ _
    · trivial
  · rw [hu]
    obtain ⟨t,hv⟩ | ⟨m',e',hm',hv⟩ | hv := nonneg_cases hy <;>
      · rw [hv]
        trivial

/-- A square is not below zero. -/
theorem nonneg_mul_self (h : x.unpacked ≠ .notANumber) : (x*x).Nonneg := by
  unfold Nonneg
  rw [unpacked_mul]
  refine nonneg_stored ?_
  cases hu : x.unpacked with
  | notANumber => exact absurd hu h
  | infinity s => cases s <;> trivial
  | zero s => trivial
  | finite s m e hm =>
    have hsign : s*s = .positive := by cases s <;> rfl
    rw [mul, hsign]
    exact nonneg_roundWithAccuracy _ _ _

theorem Nonneg.sqrt (h : x.Nonneg) : x.sqrt.Nonneg := by
  unfold Nonneg at *
  rw [unpacked_sqrt]
  refine nonneg_stored ?_
  obtain ⟨s,hu⟩ | ⟨m,e,hm,hu⟩ | hu := nonneg_cases h <;> rw [hu]
  · trivial
  · exact nonneg_roundWithAccuracy _ _ _
  · trivial

theorem nonneg_sum {xs : List F32} (h : ∀ x ∈ xs, x.Nonneg) : (F32.sum xs).Nonneg := by
  have hfold : ∀ acc : F32, acc.Nonneg → (xs.foldl (· + ·) acc).Nonneg := by
    induction xs with
    | nil => exact fun _ hacc => hacc
    | cons x xs ih =>
      intro acc hacc
      exact ih (fun y hy => h y (List.mem_cons_of_mem x hy)) _ (hacc.add (h x List.mem_cons_self))
  exact hfold negZero trivial

/-- From a finite number, subtracting gives a number. -/
theorem sub_ne_nan (hx : Finite x.unpacked) (hy : y.unpacked ≠ .notANumber) :
    (x-y).unpacked ≠ .notANumber := by
  rw [unpacked_sub]
  refine stored_ne_nan ?_
  obtain ⟨s,hu⟩ | ⟨s,m,e,hm,hu⟩ := finite_cases hx <;> rw [hu]
  · cases hv : y.unpacked with
    | notANumber => exact absurd hv hy
    | zero t => cases s <;> cases t <;> exact nofun
    | _ => exact nofun
  · cases hv : y.unpacked with
    | notANumber => exact absurd hv hy
    | finite t m' e' hm' => exact (finite_normalize _ _ _).ne_nan
    | _ => exact nofun

/-- Adding a finite number to a number gives a number. -/
theorem add_ne_nan (hx : x.unpacked ≠ .notANumber) (hy : Finite y.unpacked) :
    (x+y).unpacked ≠ .notANumber := by
  rw [unpacked_add]
  refine stored_ne_nan ?_
  obtain ⟨t,hv⟩ | ⟨t,m,e,hm,hv⟩ := finite_cases hy <;> rw [hv]
  · cases hu : x.unpacked with
    | notANumber => exact absurd hu hx
    | zero s => cases s <;> cases t <;> exact nofun
    | _ => exact nofun
  · cases hu : x.unpacked with
    | notANumber => exact absurd hu hx
    | finite s m' e' hm' => exact (finite_normalize _ _ _).ne_nan
    | _ => exact nofun

end Nonneg

/-! The order of the values that are not below zero. -/

/-- By kind, then exponent, then mantissa. -/
def key (x : F32) : ℕ ×ₗ ℤ ×ₗ ℕ :=
  match x.unpacked with
  | .zero _ => toLex (0,toLex (0,0))
  | .finite _ m e _ => toLex (1,toLex (e,m))
  | .infinity _ => toLex (2,toLex (0,0))
  | .notANumber => toLex (3,toLex (0,0))

theorem then_eq_lt_iff {e e' : ℤ} {m m' : ℕ} :
    (compare e e').then (compare m m') = .lt ↔ e < e' ∨ e = e' ∧ m < m' := by
  rcases lt_trichotomy e e' with h | h | h
  · rw [Int.compare_eq_lt.mpr h]
    simp [Ordering.then,h]
  · rw [Int.compare_eq_eq.mpr h, h]
    simp [Ordering.then,Nat.compare_eq_lt]
  · rw [Int.compare_eq_gt.mpr h]
    simp [Ordering.then,h.not_gt,h.ne']

theorem lt_eq_key {x y : F32} (hx : x.Nonneg) (hy : y.Nonneg) :
    x.lt y = decide (x.key < y.key) := by
  rw [lt_eq, key, key]
  obtain ⟨s,hu⟩ | ⟨m,e,hm,hu⟩ | hu := nonneg_cases hx
  · obtain ⟨t,hv⟩ | ⟨m',e',hm',hv⟩ | hv := nonneg_cases hy <;> rw [hu, hv] <;> rfl
  · obtain ⟨t,hv⟩ | ⟨m',e',hm',hv⟩ | hv := nonneg_cases hy <;> rw [hu, hv]
    · rfl
    · rw [Bool.eq_iff_iff, decide_eq_true_iff]
      simp only [UnpackedFloat.lt, UnpackedFloat.compare, Prod.Lex.toLex_lt_toLex, lt_irrefl,
        true_and, false_or, beq_iff_eq, Option.some.injEq, then_eq_lt_iff]
    · rfl
  · obtain ⟨t,hv⟩ | ⟨m',e',hm',hv⟩ | hv := nonneg_cases hy <;> rw [hu, hv] <;> rfl

theorem beq_self {x : F32} (h : x.unpacked ≠ .notANumber) : x.beq x = true := by
  rw [beq_eq, UnpackedFloat.beq]
  cases hu : x.unpacked with
  | notANumber => exact absurd hu h
  | infinity s => cases s <;> rfl
  | zero s => cases s <;> rfl
  | finite s m e hm => cases s <;> simp [UnpackedFloat.compare,Ordering.then]

end F32
