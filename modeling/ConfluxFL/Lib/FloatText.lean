import ConfluxFL.Lib.F32
import ConfluxFL.Lib.Decimal

/-! Text of floating-point numbers, read as `str::parse` does: an optional sign, then a decimal
with at most one point and an optional exponent, or a name of infinity or NaN in any case; and
written as `Display` does: the fewest digits that are read back as the value, without an
exponent. -/
namespace FloatText
open Float.Model (Format)
open Float.Model.UnpackedFloat

def sign : List Char → Bool × List Char
  | '-'::cs => (true,cs)
  | '+'::cs => (false,cs)
  | cs => (false,cs)

/-- What may follow the digits: nothing, or `e` and an integer. -/
def exponent : List Char → Option ℤ
  | [] => some 0
  | c::cs =>
    if c.toLower = 'e' then
      let (neg,ds) := sign cs
      (Decimal.digits ds).map fun n => if neg then -(n : ℤ) else n
    else none

/-- All digits as one number and the power of ten it is scaled by. -/
def number (cs : List Char) : Option (ℕ × ℤ) :=
  let whole := cs.takeWhile Char.isDigit
  let (frac,rest) := match cs.dropWhile Char.isDigit with
    | '.'::rest => (rest.takeWhile Char.isDigit,rest.dropWhile Char.isDigit)
    | rest => ([],rest)
  if whole = [] ∧ frac = [] then none
  else (exponent rest).map fun e => (Nat.ofDigitChars 10 (whole++frac) 0,e-frac.length)

/-- Units of a power of ten, written out without an exponent. -/
def positional (units : ℕ) (scale : ℤ) : String :=
  if 0 ≤ scale then toString units++String.ofList (List.replicate scale.toNat '0')
  else
    let n := (-scale).toNat
    let frac := Nat.toDigits 10 (units % 10^n)
    toString (units / 10^n)++"."++String.ofList (List.replicate (n-frac.length) '0'++frac)

/-- The numbers of units of `10^scale` on either side of `m*2^e`, the nearer one first. -/
def neighbours (m : ℕ) (e scale : ℤ) : List ℕ :=
  let num := m*2^e.toNat*10^(-scale).toNat
  let den := 2^(-e).toNat*10^scale.toNat
  if 2*(num % den) ≤ den then [num/den,num/den+1] else [num/den+1,num/den]

section Format
variable (spec : Format)

/-- A number is rounded to nearest, ties to even, and overflows to infinity. Behind a minus the
sign bit, which is all of minus zero, is turned over. -/
def parseBits (s : String) : Option (BitVec spec.numBits) :=
  let (neg,cs) := sign s.toList
  let magnitude : Option (BitVec spec.numBits) := match number cs with
    | some (m,e) => some (pack spec (ofScientific spec m e))
    | none =>
      let word := String.ofList (cs.map Char.toLower)
      if word = "inf" ∨ word = "infinity" then some (pack spec (.infinity .positive))
      else if word = "nan" then some (pack spec .notANumber)
      else none
  magnitude.map fun b => if neg then b ^^^ pack spec (.zero .negative) else b

/-- From the largest unit down, so that the first text read back has the fewest digits. The last
unit is that of the least value. -/
def texts (top m : ℕ) (e : ℤ) : List String :=
  ((List.range (top+1+(-spec.minExponent).toNat)).map fun i : ℕ => (top : ℤ)-i).flatMap fun scale =>
    (neighbours m e scale).map fun units => positional units scale

def minus : Sign → String
  | .positive => ""
  | .negative => "-"

/-- The last unit writes any value exactly, so some text is read back. -/
def displayBits (top : ℕ) (b : BitVec spec.numBits) : String :=
  match unpack spec b with
  | .notANumber => "NaN"
  | .infinity s => minus s++"inf"
  | .zero s => minus s++"0"
  | .finite s m e h => minus s++((texts spec top m e).find? fun text =>
      parseBits spec text = some (pack spec (.finite .positive m e h))).getD ""

end Format
end FloatText

namespace F32

def nan : F32 := ⟨0x7fc00000⟩
def parse (s : String) : Option F32 := (FloatText.parseBits .binary32 s).map fun b => ⟨.ofBitVec b⟩
def display (x : F32) : String := FloatText.displayBits .binary32 38 x.bits.toBitVec

/-- The text of a value is read back as the value. -/
def Prints (x : F32) : Prop := parse x.display = some x

end F32

namespace F64

def nan : F64 := ⟨0x7ff8000000000000⟩
def parse (s : String) : Option F64 := (FloatText.parseBits .binary64 s).map fun b => ⟨.ofBitVec b⟩
def display (x : F64) : String := FloatText.displayBits .binary64 308 x.bits.toBitVec

end F64
