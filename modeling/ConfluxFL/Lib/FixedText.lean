import ConfluxFL.Lib.FloatPrint
import ConfluxFL.Lib.FloatScale

/-! Double-precision text with a fixed number of decimals, as a format specification writes it:
which of the texts are plain decimals, and which whole numbers are read without a rounding. -/
namespace FloatText

/-- The number of units of `10^-digits` nearest to `m*2^e`, ties to even. -/
def roundedUnits (m : ℕ) (e : ℤ) (digits : ℕ) : ℕ :=
  let num := m*2^e.toNat*10^digits
  let den := 2^(-e).toNat
  if 2*(num % den) < den ∨ 2*(num % den) = den ∧ num/den % 2 = 0 then num/den else num/den+1

end FloatText

namespace F64
open Float.Model (Format UnpackedFloat totalExponent)
open Float.Model.UnpackedFloat
open FloatText FloatFormat

def minus (x : F64) : String := if x.bits < 0x8000000000000000 then "" else "-"

/-- `format(x, ".4f")` for four digits. -/
def fixed (digits : ℕ) (x : F64) : String :=
  match x.value.toModel.unpack with
  | .notANumber => "nan"
  | .infinity _ => x.minus++"inf"
  | .zero _ => x.minus++positional 0 (-digits)
  | .finite _ m e _ => x.minus++positional (roundedUnits m e digits) (-digits)

/-- The saturating cast to 32 bits, which truncates. -/
def toU32 (x : F64) : ℕ := x.value.toUInt32.toNat

example : (fixed 4 ⟨0x3fe5555555555555⟩,fixed 4 ⟨0xbf1a36e2eb1c432d⟩,fixed 4 infinity) =
    ("0.6667","-0.0001","inf") := by decide +kernel

/-- A finite value without a minus sign. -/
def Plain (x : F64) : Prop := x.isFinite = true ∧ x.bits < 0x8000000000000000

instance (x : F64) : Decidable x.Plain := inferInstanceAs (Decidable (_ ∧ _))

/-- A plain value is written as units of the last decimal; any other text starts with a letter or
a minus. -/
theorem fixed_cases (digits : ℕ) (x : F64) :
    x.Plain ∧ (∃ units, x.fixed digits = positional units (-digits)) ∨
      ¬x.Plain ∧ ∃ c cs, (x.fixed digits).toList = c::cs ∧ c ∈ ['n','i','-'] := by
  have hfinite : x.isFinite = x.value.toModel.unpack.isFinite := rfl
  unfold Plain fixed
  rw [hfinite]
  by_cases hsign : x.bits < 0x8000000000000000
  · have hminus : x.minus = "" := if_pos hsign
    rw [hminus]
    cases x.value.toModel.unpack with
    | notANumber => exact .inr ⟨nofun,'n',['a','n'],by simp,by decide⟩
    | infinity s => exact .inr ⟨nofun,'i',['n','f'],by simp,by decide⟩
    | zero s => exact .inl ⟨⟨rfl,hsign⟩,0,String.empty_append⟩
    | finite s m e hm => exact .inl ⟨⟨rfl,hsign⟩,_,String.empty_append⟩
  · have hminus : x.minus = "-" := if_neg hsign
    rw [hminus]
    refine .inr ⟨fun h => hsign h.2,?_⟩
    cases x.value.toModel.unpack with
    | notANumber => exact ⟨'n',['a','n'],by simp,by decide⟩
    | infinity s => exact ⟨'-',_,String.toList_append,by decide⟩
    | zero s => exact ⟨'-',_,String.toList_append,by decide⟩
    | finite s m e hm => exact ⟨'-',_,String.toList_append,by decide⟩

theorem mem_minus {x : F64} {c : Char} (h : c ∈ x.minus.toList) : c = '-' := by
  unfold minus at h
  split at h
  · cases h
  · exact List.mem_singleton.mp h

/-- The characters of a text with fixed decimals. -/
theorem mem_fixed {digits : ℕ} {x : F64} {c : Char} (h : c ∈ (x.fixed digits).toList) :
    c.isDigit ∨ c ∈ ['.','-','n','a','i','f'] := by
  have hword : ∀ word : List Char, c ∈ word → (∀ a ∈ word, a ∈ ['.','-','n','a','i','f']) →
      c.isDigit ∨ c ∈ ['.','-','n','a','i','f'] := fun word hc hall => .inr (hall c hc)
  have hnumber : ∀ units, c ∈ (positional units (-digits)).toList →
      c.isDigit ∨ c ∈ ['.','-','n','a','i','f'] := by
    intro units hc
    rcases mem_positional hc with hdigit | rfl
    · exact .inl hdigit
    · exact .inr List.mem_cons_self
  have hminus : c ∈ x.minus.toList → c.isDigit ∨ c ∈ ['.','-','n','a','i','f'] := by
    intro hc
    rw [mem_minus hc]
    exact .inr (by decide)
  unfold fixed at h
  split at h
  · exact hword ['n','a','n'] h (by simp)
  · rw [String.toList_append, List.mem_append] at h
    exact h.elim hminus fun h => hword ['i','n','f'] h (by simp)
  · rw [String.toList_append, List.mem_append] at h
    exact h.elim hminus (hnumber 0)
  · rw [String.toList_append, List.mem_append] at h
    exact h.elim hminus (hnumber _)

/-- What is written as units of a decimal is read as some number. -/
theorem isSome_parse_positional (units : ℕ) {scale : ℤ} (h : scale < 0) :
    (parse (positional units scale)).isSome := by
  rw [parse, parseBits_positional units h]
  rfl

theorem parse_plain {digits : ℕ} (hdigits : 0 < digits) {x : F64} (h : x.Plain) :
    (parse (x.fixed digits)).isSome := by
  obtain ⟨-,units,hunits⟩ | ⟨hnot,-⟩ := fixed_cases digits x
  · rw [hunits]
    exact isSome_parse_positional units (by omega)
  · exact absurd h hnot

/-! Whole numbers of up to 32 bits. -/

/-- A whole number that the format has room for, with the exponent that it wants. -/
theorem exists_canonical {n : ℕ} (hn : 0 < n) (hlt : n < 2^53) : ∃ (m : ℕ) (e : ℤ) (k : ℕ),
    0 < m ∧ Canonical .binary64 m e ∧ n*2^53 = m*2^k ∧ e-k = -53 := by
  have hlog : n.log2 < 53 := (Nat.log2_lt hn.ne').mpr hlt
  refine ⟨n*2^(52-n.log2),n.log2-52,n.log2+1,by positivity,?_,?_,by omega⟩
  · have hmin : Format.binary64.minExponent = -1074 := by decide
    have hbits : Format.binary64.mantissaBits = 53 := by decide
    rw [Canonical, Format.targetExponent, totalExponent, log2_mul_two_pow hn, hmin, hbits]
    omega
  · rw [mul_assoc, ← pow_add]
    congr 2
    omega

theorem number_toDigits (n : ℕ) : number (Nat.toDigits 10 n) = some (n,0) := by
  have htake : (Nat.toDigits 10 n).takeWhile Char.isDigit = Nat.toDigits 10 n :=
    List.takeWhile_eq_self_iff.mpr fun c hc => Decimal.isDigit_of_mem_toDigits hc
  have hdrop : (Nat.toDigits 10 n).dropWhile Char.isDigit = [] :=
    List.dropWhile_eq_nil_iff.mpr fun c hc => Decimal.isDigit_of_mem_toDigits hc
  simp [number, htake, hdrop, exponent, Nat.toDigits_ne_nil,
    Nat.ofDigitChars_toDigits (show 1 < 10 by decide) (by decide)]

/-- A whole number is read exactly. -/
theorem ofScientific_whole {n : ℕ} (hn : 0 < n) (hlt : n < 2^53) : ∃ (m : ℕ) (e : ℤ) (hm : 0 < m),
    (m : ℚ)*2^e = n ∧ Canonical .binary64 m e ∧
      ofScientific .binary64 n 0 = .finite .positive m e hm := by
  obtain ⟨m,e,k,hm,hcanon,hscale,hexp⟩ := exists_canonical hn hlt
  refine ⟨m,e,hm,?_,hcanon,?_⟩
  · have he : e = k-53 := by omega
    rw [he, zpow_sub₀ two_ne_zero, zpow_natCast, ← mul_div_assoc, div_eq_iff (by norm_num)]
    exact_mod_cast hscale.symm
  · have hbits : Format.binary64.mantissaBits = 53 := by decide
    have hrange : Format.binary64.exponentBits = 11 := by decide
    have hshift : n <<< Format.binary64.mantissaBits*10^(0 : ℤ).toNat = m*2^k := by
      rw [hbits, Nat.shiftLeft_eq, hscale]
      exact mul_one _
    have hexp' : -(Format.binary64.mantissaBits : ℤ)+0 = e-k := by
      rw [hbits, hexp]
      rfl
    rw [ofScientific, dif_neg hn.ne', hrange, if_neg (by decide), if_neg (by omega),
      if_pos le_rfl, mul]
    rw [hshift, hexp']
    exact roundWithAccuracy_exact hm hcanon .positive k

theorem toU32_eq (x : F64) : x.toU32 =
    (UInt32.ofNatClamp (x.value.toModel.unpack.toInt 0 (UInt32.size-1)).toNat).toNat := rfl

theorem toU32_lt (x : F64) : x.toU32 < 2^32 := UInt32.toNat_lt _

/-- A whole number of 32 bits is written, read and cast to itself. -/
theorem parse_toString {n : ℕ} (hlt : n < 2^32) :
    ∃ x, parse (toString n) = some x ∧ x.toU32 = n := by
  refine ⟨ofFloat (.ofModel (Float.Model.ofScientific n 0)),?_,?_⟩
  · have hsign := sign_digits n []
    rw [List.append_nil] at hsign
    have hread : parseBits .binary64 (toString n) =
        some (pack .binary64 (ofScientific .binary64 n 0)) := by
      simp [parseBits, hsign, number_toDigits]
    rw [parse, hread]
    rfl
  have hunpack : (ofFloat (.ofModel (Float.Model.ofScientific n 0))).value.toModel.unpack =
      unpack .binary64 (pack .binary64 (unpack .binary64 (pack .binary64
        (ofScientific .binary64 n 0)))) := rfl
  rw [toU32_eq, hunpack]
  rcases Nat.eq_zero_or_pos n with rfl | hn
  · decide +kernel
  · obtain ⟨m,e,hm,hvalue,hcanon,hread⟩ := ofScientific_whole hn (hlt.trans (by decide))
    have hfits : (m : ℚ)*2^e < 2^2^(Format.binary64.exponentBits-1) := by
      have hsmall : (n : ℚ) < 2^32 := by exact_mod_cast hlt
      rw [hvalue]
      exact hsmall.trans_le (pow_le_pow_right₀ one_le_two (by decide))
    have hstored := unpack_pack_of_lt hm hcanon (by decide) hfits .positive
    obtain ⟨r,hr,hle,hge⟩ := roundToInt_positive m e
    rw [hvalue] at hle hge
    obtain rfl : r = n := by
      have hle' : r ≤ n := by exact_mod_cast hle
      have hge' : n < r+1 := by exact_mod_cast hge
      omega
    have hsize : r < UInt32.size := hlt
    rw [hread, hstored, hstored, toInt, hr, Int.toNat_natCast, UInt32.ofNatClamp,
      dif_pos hsize, UInt32.toNat_ofNatLT]

end F64
