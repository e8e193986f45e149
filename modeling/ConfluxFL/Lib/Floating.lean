import Mathlib.Analysis.SpecialFunctions.Pow.Real
import ConfluxFL.Lib.F32

/-! One text for a numeric program in any arithmetic. A program is written over `Floating`
types; at `F32` and `F64` it is the machine's arithmetic with its rounding, at `ℝ` it is the
exact one. `Precision` pairs the type values are stored in with the wider one sums run in. -/

/-- What a floating-point type offers. The comparisons are the IEEE ones, false when a NaN is
compared; `totalLe` ranks every bit pattern; `ln` and `pow` are the platform's. -/
class Floating (α : Type) where
  toAdd : Add α
  toSub : Sub α
  toMul : Mul α
  toDiv : Div α
  toZero : Zero α
  toOne : One α
  toOfScientific : OfScientific α
  negZero : α
  ofNat : ℕ → α
  ofF32 : F32 → α
  sqrt : α → α
  abs : α → α
  ln : α → α
  pow : α → α → α
  isFinite : α → Bool
  isNaN : α → Bool
  le : α → α → Bool
  lt : α → α → Bool
  beq : α → α → Bool
  totalLe : α → α → Bool
  floorToNat : α → ℕ
  ceilToNat : α → ℕ

namespace Floating
variable {α : Type} [Floating α]

-- The operations of a type come from here only where it has none of its own.
instance (priority := 50) : Add α := toAdd
instance (priority := 50) : Sub α := toSub
instance (priority := 50) : Mul α := toMul
instance (priority := 50) : Div α := toDiv
instance (priority := 50) : Zero α := toZero
instance (priority := 50) : One α := toOne
instance (priority := 50) : OfScientific α := toOfScientific

end Floating

/-- A stored type and the type its values are computed with. -/
class Precision (ν : Type) (ω : outParam Type) where
  widen : ν → ω
  narrow : ω → ν

namespace F32

def abs (x : F32) : F32 := ofFloat32 x.value.abs

/-- The rank of a value in the total order. -/
def rank (x : F32) : ℤ := if x.bits.toNat < 2^31 then x.bits.toNat else 2^31-1-x.bits.toNat

/-- The saturating cast of `x.ceil()` to an unsigned integer. -/
def ceilToNat (x : F32) : ℕ :=
  Min.min (if (ofNat x.floorToNat).lt x then x.floorToNat+1 else x.floorToNat) (2^64-1)

end F32

/-- The saturating cast of `x.ceil()` to an unsigned integer. -/
def F64.ceilToNat (x : F64) : ℕ :=
  Min.min (if (ofNat x.floorToNat).lt x then x.floorToNat+1 else x.floorToNat) (2^64-1)

instance : Floating F32 where
  toAdd := inferInstance
  toSub := inferInstance
  toMul := inferInstance
  toDiv := inferInstance
  toZero := ⟨F32.zero⟩
  toOne := ⟨F32.one⟩
  toOfScientific := ⟨fun m s e => F32.ofFloat32 (Float32.ofScientific m s e)⟩
  negZero := F32.negZero
  ofNat := F32.ofNat
  ofF32 x := x
  sqrt := F32.sqrt
  abs := F32.abs
  ln x := F32.ofFloat32 x.value.log
  pow x y := F32.ofFloat32 (x.value.pow y.value)
  isFinite := F32.isFinite
  isNaN := F32.isNaN
  le := F32.le
  lt := F32.lt
  beq := F32.beq
  totalLe a b := a.rank ≤ b.rank
  floorToNat := F32.floorToNat
  ceilToNat := F32.ceilToNat

instance : Floating F64 where
  toAdd := inferInstance
  toSub := inferInstance
  toMul := inferInstance
  toDiv := inferInstance
  toZero := ⟨F64.zero⟩
  toOne := ⟨F64.one⟩
  toOfScientific := ⟨fun m s e => F64.ofFloat (Float.ofScientific m s e)⟩
  negZero := F64.negZero
  ofNat := F64.ofNat
  ofF32 := F64.ofF32
  sqrt := F64.sqrt
  abs := F64.abs
  ln x := F64.ofFloat x.value.log
  pow x y := F64.ofFloat (x.value.pow y.value)
  isFinite := F64.isFinite
  isNaN := F64.isNaN
  le := F64.le
  lt := F64.lt
  beq := F64.beq
  totalLe a b := a.rank ≤ b.rank
  floorToNat := F64.floorToNat
  ceilToNat := F64.ceilToNat

instance : Precision F32 F64 := ⟨F64.ofF32,F64.toF32⟩

open Classical in
/-- Exact arithmetic: nothing rounds, nothing overflows. -/
noncomputable instance : Floating ℝ where
  toAdd := inferInstance
  toSub := inferInstance
  toMul := inferInstance
  toDiv := inferInstance
  toZero := inferInstance
  toOne := inferInstance
  toOfScientific := inferInstance
  negZero := 0
  ofNat n := n
  ofF32 := F32.toReal
  sqrt := Real.sqrt
  abs x := |x|
  ln := Real.log
  pow x y := x^y
  isFinite _ := true
  isNaN _ := false
  le a b := decide (a ≤ b)
  lt a b := decide (a < b)
  beq a b := decide (a = b)
  totalLe a b := decide (a ≤ b)
  floorToNat x := ⌊x⌋₊
  ceilToNat x := ⌈x⌉₊

noncomputable instance : Precision ℝ ℝ := ⟨id,id⟩

namespace Floating
variable {α : Type} [Floating α]

/-- Iterator sums start from negative zero. -/
def sum (xs : List α) : α := xs.foldl (· + ·) negZero

/-- The greater of two values, or the one that is a number. -/
def max (a b : α) : α := if isNaN a then b else if lt a b then b else a

/-- The smaller of two values, or the one that is a number. -/
def min (a b : α) : α := if isNaN a then b else if lt b a then b else a

def clamp (x lo hi : α) : α := if lt x lo then lo else if lt hi x then hi else x

/-- A stable sort by the IEEE order. -/
def sortBy {β : Type} (key : β → α) (xs : List β) : List β :=
  xs.insertionSort fun a b => le (key a) (key b) = true

/-- The first position of a least value. -/
def argMin (xs : List α) : ℕ :=
  (List.range xs.length).foldl
    (fun best i => if lt (xs.getD i 0) (xs.getD best 0) then i else best) 0

/-- The last position of a greatest value. -/
def argMax (xs : List α) : ℕ :=
  (List.range xs.length).foldl
    (fun best i => if lt (xs.getD i 0) (xs.getD best 0) then best else i) 0

end Floating
