import Mathlib.Data.List.Basic
import Mathlib.Data.Real.Basic
import Mathlib.Algebra.Order.Field.Power
import Mathlib.Tactic.NormNum

/-! Single-precision values kept as their bit patterns. Arithmetic goes through the
IEEE 754 binary32 model of `Float32`, so rounding, infinities, signed zeros and
incomparable NaNs are the machine's own; the payload of a NaN survives storage because
only the results of arithmetic are canonicalised. -/

/-- An `f32` as the 32 bits a codec moves. -/
structure F32 where
  bits : UInt32
  deriving DecidableEq, Repr

namespace F32

def value (x : F32) : Float32 := Float32.ofBits x.bits
def ofFloat32 (x : Float32) : F32 := ⟨x.toBits⟩

instance : Add F32 := ⟨fun a b => ofFloat32 (a.value + b.value)⟩
instance : Sub F32 := ⟨fun a b => ofFloat32 (a.value - b.value)⟩
instance : Mul F32 := ⟨fun a b => ofFloat32 (a.value * b.value)⟩
instance : Div F32 := ⟨fun a b => ofFloat32 (a.value / b.value)⟩

def sqrt (x : F32) : F32 := ofFloat32 x.value.sqrt
def isFinite (x : F32) : Bool := x.value.isFinite
def isNaN (x : F32) : Bool := x.value.isNaN

/-- IEEE comparisons: every comparison with a NaN is false. -/
def le (a b : F32) : Bool := a.value.le b.value
def lt (a b : F32) : Bool := a.value.lt b.value
def beq (a b : F32) : Bool := a.value.beq b.value

/-- An unsigned integer converted with rounding to nearest, ties to even. -/
def ofNat (n : ℕ) : F32 := ofFloat32 (.ofModel (.ofNat n))

/-- The saturating cast of `x.floor()` to an unsigned integer: on the values where flooring
and truncation differ both clamp to zero. -/
def floorToNat (x : F32) : ℕ := x.value.toUInt64.toNat

def zero : F32 := ⟨0⟩
def negZero : F32 := ⟨0x80000000⟩
def one : F32 := ⟨0x3f800000⟩
def infinity : F32 := ⟨0x7f800000⟩

/-- Iterator sums start from negative zero, the neutral element of addition. -/
def sum (xs : List F32) : F32 := xs.foldl (· + ·) negZero

/-- Byte `i` of the little-endian representation. -/
def leByte (x : F32) (i : ℕ) : UInt8 := UInt8.ofNat (x.bits.toNat / 256^i)

/-- The four little-endian bytes of a value. -/
def toLeBytes (x : F32) : List UInt8 := [x.leByte 0, x.leByte 1, x.leByte 2, x.leByte 3]

def fromLeBytes (a b c d : UInt8) : F32 :=
  ⟨UInt32.ofNat (a.toNat + 256*b.toNat + 256^2*c.toNat + 256^3*d.toNat)⟩

theorem fromLeBytes_leByte (x : F32) :
    fromLeBytes (x.leByte 0) (x.leByte 1) (x.leByte 2) (x.leByte 3) = x := by
  rcases x with ⟨bits⟩
  have hb := bits.toNat_lt
  apply congrArg F32.mk
  apply UInt32.toNat_inj.mp
  simp only [leByte, UInt32.toNat_ofNat', UInt8.toNat_ofNat']
  omega

theorem toLeBytes_fromLeBytes (a b c d : UInt8) : toLeBytes (fromLeBytes a b c d) = [a,b,c,d] := by
  have ha := a.toNat_lt
  have hb := b.toNat_lt
  have hc := c.toNat_lt
  have hd := d.toNat_lt
  simp only [toLeBytes, leByte, fromLeBytes, UInt32.toNat_ofNat', List.cons.injEq, and_true]
  refine ⟨?_,?_,?_,?_⟩ <;>
    · apply UInt8.toNat_inj.mp
      rw [UInt8.toNat_ofNat']
      omega

/-- A finite value as a real number; infinities and NaNs are sent to zero. -/
noncomputable def toReal (x : F32) : ℝ :=
  match x.value.toModel.unpack with
  | .finite sign mantissa exponent _ =>
    (match sign with | .positive => 1 | .negative => -1) * (mantissa : ℝ) * ((2 : ℕ) : ℝ)^exponent
  | _ => 0

theorem toReal_of_unpack {x : F32} {mantissa : ℕ} {exponent : ℤ} {hpos : 0 < mantissa}
    (h : x.value.toModel.unpack = .finite .positive mantissa exponent hpos) :
    x.toReal = mantissa*(2 : ℝ)^exponent := by
  rw [toReal, h]
  dsimp only
  rw [one_mul, Nat.cast_ofNat]

@[simp] theorem toReal_zero : zero.toReal = 0 := rfl

@[simp] theorem toReal_one : one.toReal = 1 := by
  have hunpack : one.value.toModel.unpack = .finite .positive 0x800000 (-23) (by decide) := rfl
  rw [toReal_of_unpack hunpack]
  norm_num

end F32

/-- An `f64` as its bit pattern. -/
structure F64 where
  bits : UInt64
  deriving DecidableEq, Repr

namespace F64

def value (x : F64) : Float := Float.ofBits x.bits
def ofFloat (x : Float) : F64 := ⟨x.toBits⟩

instance : Add F64 := ⟨fun a b => ofFloat (a.value + b.value)⟩
instance : Sub F64 := ⟨fun a b => ofFloat (a.value - b.value)⟩
instance : Mul F64 := ⟨fun a b => ofFloat (a.value * b.value)⟩
instance : Div F64 := ⟨fun a b => ofFloat (a.value / b.value)⟩

def sqrt (x : F64) : F64 := ofFloat x.value.sqrt
def abs (x : F64) : F64 := ofFloat x.value.abs
def isFinite (x : F64) : Bool := x.value.isFinite
def isNaN (x : F64) : Bool := x.value.isNaN
def le (a b : F64) : Bool := a.value.le b.value
def lt (a b : F64) : Bool := a.value.lt b.value
def beq (a b : F64) : Bool := a.value.beq b.value
def ofNat (n : ℕ) : F64 := ofFloat (.ofModel (.ofNat n))
def floorToNat (x : F64) : ℕ := x.value.toUInt64.toNat
def zero : F64 := ⟨0⟩
def negZero : F64 := ⟨0x8000000000000000⟩
def one : F64 := ⟨0x3ff0000000000000⟩
def infinity : F64 := ⟨0x7ff0000000000000⟩
def negInfinity : F64 := ⟨0xfff0000000000000⟩

/-- The rank of a value in the total order: by sign, then by magnitude, NaNs at the ends. -/
def rank (x : F64) : ℤ :=
  if x.bits.toNat < 2^63 then x.bits.toNat else 2^63-1-x.bits.toNat

open Float.Model in
/-- The conversion that is always exact. -/
def ofF32 (x : F32) : F64 :=
  ofFloat (.ofModel (.pack (match x.value.toModel.unpack with
    | .finite sign mantissa exponent _ => UnpackedFloat.round .binary64 sign mantissa exponent
    | other => other)))

open Float.Model in
/-- The conversion that rounds to nearest, ties to even, and overflows to infinity. -/
def toF32 (x : F64) : F32 :=
  F32.ofFloat32 (.ofModel (.pack (match x.value.toModel.unpack with
    | .finite sign mantissa exponent _ => UnpackedFloat.round .binary32 sign mantissa exponent
    | other => other)))

/-- A finite value as a real number; infinities and NaNs are sent to zero. -/
noncomputable def toReal (x : F64) : ℝ :=
  match x.value.toModel.unpack with
  | .finite sign mantissa exponent _ =>
    (match sign with | .positive => 1 | .negative => -1) * (mantissa : ℝ) * ((2 : ℕ) : ℝ)^exponent
  | _ => 0

theorem toReal_of_unpack {x : F64} {mantissa : ℕ} {exponent : ℤ} {hpos : 0 < mantissa}
    (h : x.value.toModel.unpack = .finite .positive mantissa exponent hpos) :
    x.toReal = mantissa*(2 : ℝ)^exponent := by
  rw [toReal, h]
  dsimp only
  rw [one_mul, Nat.cast_ofNat]

theorem toReal_nonneg_of_pos {x : F64} (h : zero.lt x = true) : 0 ≤ x.toReal := by
  have hlt : zero.value.toModel.unpack.lt x.value.toModel.unpack = true := of_decide_eq_true h
  obtain ⟨sign₀,hzero⟩ : ∃ sign, zero.value.toModel.unpack = .zero sign := ⟨_,rfl⟩
  unfold toReal
  cases hx : x.value.toModel.unpack with
  | finite sign mantissa exponent hpos =>
    cases sign with
    | positive =>
      have hpow : (0 : ℝ) ≤ ((2 : ℕ) : ℝ)^exponent := zpow_nonneg (Nat.cast_nonneg 2) exponent
      exact mul_nonneg (mul_nonneg zero_le_one (Nat.cast_nonneg mantissa)) hpow
    | negative =>
      rw [hzero, hx] at hlt
      cases hlt
  | infinity sign => exact le_rfl
  | zero sign => exact le_rfl
  | notANumber => exact le_rfl

end F64
