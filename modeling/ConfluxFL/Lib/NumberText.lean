import ConfluxFL.Lib.FixedText
import ConfluxFL.Lib.FloatPrint
import ConfluxFL.Lib.Json

/-! Numbers as `Display` writes them. A finite value of either precision is plain digits behind
its sign, with a point between them or without; it is read back as the value, and it is a JSON
number. The words that stand for the other values are no JSON. -/
namespace FloatText
open Float.Model (Format)
open Float.Model.UnpackedFloat
open FloatFormat

/-- Digits without a needless zero, and decimals or none. -/
structure Written (cs : List Char) (whole frac : List Char) : Prop where
  eq : cs = whole ∧ frac = [] ∨ cs = whole++ '.'::frac ∧ frac ≠ []
  ne : whole ≠ []
  plain : Decimal.Plain whole
  digits : ∀ c ∈ whole++frac, c.isDigit = true

theorem head_toDigits {n : ℕ} (h : n ≠ 0) : (Nat.toDigits 10 n).head? ≠ some '0' := by
  intro hhead
  obtain ⟨rest,hrest⟩ := List.head?_eq_some_iff.mp hhead
  have hlen := Decimal.plain_toDigits n hhead
  rw [hrest, List.length_cons, Nat.add_eq_right, List.length_eq_zero_iff] at hlen
  apply h
  rw [← @Nat.ofDigitChars_ten_toDigits n, hrest, hlen]
  rfl

/-- Units with a point, or any number of them other than zero, are plain digits. -/
theorem written_positional {units : ℕ} {scale : ℤ} (h : 0 ≤ scale → units ≠ 0) :
    ∃ whole frac, Written (positional units scale).toList whole frac := by
  unfold positional
  split
  · next hscale =>
    have hhead : (Nat.toDigits 10 units++List.replicate scale.toNat '0').head? ≠ some '0' := by
      rw [List.head?_append_of_ne_nil _ Nat.toDigits_ne_nil]
      exact head_toDigits (h hscale)
    refine ⟨Nat.toDigits 10 units++List.replicate scale.toNat '0',[],.inl ⟨?_,rfl⟩,
      List.append_ne_nil_of_left_ne_nil Nat.toDigits_ne_nil _,fun h => absurd h hhead,?_⟩
    · rw [String.toList_append, Decimal.toList_toString, String.toList_ofList]
    · intro c hc
      rw [List.append_nil, List.mem_append] at hc
      rcases hc with hc | hc
      · exact Decimal.isDigit_of_mem_toDigits hc
      · rw [List.eq_of_mem_replicate hc]
        rfl
  · next hscale =>
    refine ⟨Nat.toDigits 10 (units / 10^(-scale).toNat),
      List.replicate ((-scale).toNat-(Nat.toDigits 10 (units % 10^(-scale).toNat)).length) '0'++
        Nat.toDigits 10 (units % 10^(-scale).toNat),.inr ⟨?_,?_⟩,Nat.toDigits_ne_nil,
      Decimal.plain_toDigits _,?_⟩
    · simp only [String.toList_append, Decimal.toList_toString, String.toList_ofList,
        show ".".toList = ['.'] from rfl, List.append_assoc, List.singleton_append]
    · exact List.append_ne_nil_of_right_ne_nil _ Nat.toDigits_ne_nil
    · intro c hc
      simp only [List.mem_append] at hc
      rcases hc with hc | hc | hc
      · exact Decimal.isDigit_of_mem_toDigits hc
      · rw [List.eq_of_mem_replicate hc]
        rfl
      · exact Decimal.isDigit_of_mem_toDigits hc

theorem written_toDigits (n : ℕ) : Written (Nat.toDigits 10 n) (Nat.toDigits 10 n) [] :=
  ⟨.inl ⟨rfl,rfl⟩,Nat.toDigits_ne_nil,Decimal.plain_toDigits n,fun c hc =>
    Decimal.isDigit_of_mem_toDigits (by rwa [List.append_nil] at hc)⟩

/-- No units of a power of ten are read as zero. -/
theorem number_zero {scale : ℤ} (h : 0 ≤ scale) :
    number (positional 0 scale).toList = some (0,0) := by
  have htext : (positional 0 scale).toList = List.replicate (scale.toNat+1) '0' := by
    rw [positional, if_pos h, String.toList_append, Decimal.toList_toString, String.toList_ofList,
      List.replicate_succ]
    rfl
  have hdigit : ∀ c ∈ List.replicate (scale.toNat+1) '0', c.isDigit = true := by
    intro c hc
    rw [List.eq_of_mem_replicate hc]
    rfl
  have htake := List.takeWhile_eq_self_iff.mpr hdigit
  have hdrop := List.dropWhile_eq_nil_iff.mpr hdigit
  rw [htext, number, htake, hdrop]
  simp [exponent, Nat.ofDigitChars_replicate_zero]

section Write
variable {spec : Format} {top : ℕ} {b : BitVec spec.numBits}

theorem parseBits_positional_zero {scale : ℤ} (h : 0 ≤ scale) :
    parseBits spec (positional 0 scale) = some (pack spec (.zero .positive)) := by
  simp only [parseBits, sign_positional, number_zero h]
  rfl

/-- A text that is not read as zero has no needless zeros. -/
theorem written_of_mem_texts {m : ℕ} {e : ℤ} {t : String} (h : t ∈ texts spec top m e)
    (hread : parseBits spec t ≠ some (pack spec (.zero .positive))) :
    ∃ whole frac, Written t.toList whole frac := by
  obtain ⟨scale,-,h⟩ := List.mem_flatMap.mp h
  obtain ⟨units,-,rfl⟩ := List.mem_map.mp h
  refine written_positional fun hscale => ?_
  rintro rfl
  exact hread (parseBits_positional_zero hscale)

/-- The pattern of a number other than zero has other fields than zero, whatever its sign. -/
theorem pack_finite_ne_zero {s : Sign} {m : ℕ} {e : ℤ} {hm : 0 < m} (hbits : 1 < spec.exponentBits)
    (hb : unpack spec b = .finite s m e hm) :
    pack spec (.finite .positive m e hm) ≠ pack spec (.zero .positive) := by
  intro heq
  obtain ⟨x,v,hfields⟩ := @exists_fields spec m e hm
  rw [hfields] at heq
  have hx := congrArg unpackExponent heq
  have hv := congrArg unpackMantissa heq
  change _ = unpackExponent (packComponents spec .positive 0 0) at hx
  change _ = unpackMantissa (packComponents spec .positive 0 0) at hv
  rw [unpackExponent_packComponents, unpackExponent_packComponents] at hx
  rw [unpackMantissa_packComponents, unpackMantissa_packComponents] at hv
  have hpack := pack_unpack hbits (hb.trans_ne nofun)
  rw [hb, hfields, hx, hv] at hpack
  rw [← hpack] at hb
  simp [unpack, unpackExponent_packComponents, unpackMantissa_packComponents, spec.he.ne'] at hb

theorem parseBits_displayBits_of_isFinite (hs : Suited spec) (top : ℕ)
    (h : (unpack spec b).isFinite = true) : parseBits spec (displayBits spec top b) = some b := by
  rw [parseBits_displayBits hs]
  refine congrArg some (if_neg fun hnan => ?_)
  cases hb : unpack spec b with
  | notANumber =>
    rw [hb] at h
    cases h
  | infinity s | zero s | finite s m e hm =>
    rw [hb] at hnan
    cases hnan

/-- A finite value is a sign and plain digits. -/
theorem displayBits_of_isFinite (hs : Suited spec) (top : ℕ) (h : (unpack spec b).isFinite = true) :
    ∃ s t whole frac, displayBits spec top b = minus s++t ∧ Written t.toList whole frac := by
  cases hb : unpack spec b with
  | notANumber | infinity s =>
    rw [hb] at h
    cases h
  | zero s =>
    refine ⟨s,"0",_,_,?_,written_toDigits 0⟩
    rw [displayBits, hb]
  | finite s m e hm =>
    obtain ⟨t,ht,hwrite,hread⟩ := displayBits_finite hs top hb
    obtain ⟨whole,frac,hwritten⟩ := written_of_mem_texts ht fun hzero =>
      pack_finite_ne_zero hs.bits hb (Option.some.inj (hread.symm.trans hzero))
    exact ⟨s,t,whole,frac,hwrite,hwritten⟩

/-- Any other value is a word. -/
theorem displayBits_of_not_isFinite (h : (unpack spec b).isFinite = false) :
    displayBits spec top b ∈ ["NaN","inf","-inf"] := by
  cases hb : unpack spec b with
  | notANumber =>
    rw [displayBits, hb]
    exact List.mem_cons_self
  | infinity s =>
    rw [displayBits, hb]
    dsimp only
    cases s <;> decide
  | zero s | finite s m e hm =>
    rw [hb] at h
    cases h

end Write
end FloatText

namespace Json
open FloatText
open Float.Model (Format)
open Float.Model.UnpackedFloat

theorem unsigned_written {cs whole frac : List Char} (h : Written cs whole frac) :
    unsigned cs = true := by
  have hwhole : ∀ c ∈ whole, c.isDigit = true := fun c hc => h.digits c (List.mem_append_left _ hc)
  have hfrac : ∀ c ∈ frac, c.isDigit = true := fun c hc => h.digits c (List.mem_append_right _ hc)
  have hhead : (whole.head? != some '0' || whole.length == 1) = true := by
    by_cases hzero : whole.head? = some '0'
    · simp [h.plain hzero]
    · simp [hzero]
  have hparts : cs.takeWhile Char.isDigit = whole ∧
      decimals (cs.dropWhile Char.isDigit) = true := by
    rcases h.eq with ⟨rfl,-⟩ | ⟨rfl,hne⟩
    · rw [List.takeWhile_eq_self_iff.mpr hwhole, List.dropWhile_eq_nil_iff.mpr hwhole]
      exact ⟨rfl,rfl⟩
    · have hpoint : ('.').isDigit = false := by decide
      rw [List.takeWhile_append_of_pos hwhole, List.dropWhile_append_of_pos hwhole,
        List.takeWhile_cons_of_neg (by simp [hpoint]), List.dropWhile_cons_of_neg (by simp [hpoint]),
        List.append_nil]
      refine ⟨rfl,?_⟩
      rw [decimals, List.takeWhile_eq_self_iff.mpr hfrac, List.dropWhile_eq_nil_iff.mpr hfrac]
      simp [hne, exponent]
  rw [unsigned, hparts.1, hparts.2, hhead]
  simp [h.ne]

theorem isNumber_of_unsigned {cs : List Char} (h : unsigned cs = true) : isNumber cs = true := by
  unfold isNumber
  split
  · next ds =>
    have hnot : unsigned ('-'::ds) = false := by
      have hminus : ('-').isDigit = false := by decide
      rw [unsigned, List.takeWhile_cons_of_neg (by simp [hminus])]
      rfl
    rw [hnot] at h
    cases h
  · exact h

theorem scalar_of_isNumber {cs : List Char} (h : isNumber cs = true) :
    scalar cs = some (.number (String.ofList cs)) := by
  have hnot : ∀ word : String, isNumber word.toList = false → cs ≠ word.toList := by
    rintro word hword rfl
    rw [hword] at h
    cases h
  rw [scalar, if_neg (hnot "null" (by decide)), if_neg (hnot "true" (by decide)),
    if_neg (hnot "false" (by decide)), if_pos h]

theorem inWord_of_isDigit {c : Char} (h : c.isDigit = true) : inWord c = true := by
  simp [inWord, Char.isAlphanum, h]

theorem inWord_written {cs whole frac : List Char} (h : Written cs whole frac) {c : Char}
    (hc : c ∈ cs) : inWord c = true := by
  rcases h.eq with ⟨rfl,-⟩ | ⟨rfl,-⟩
  · exact inWord_of_isDigit (h.digits c (List.mem_append_left _ hc))
  · rcases List.mem_append.mp hc with hc | hc
    · exact inWord_of_isDigit (h.digits c (List.mem_append_left _ hc))
    rcases List.mem_cons.mp hc with rfl | hc
    · rfl
    · exact inWord_of_isDigit (h.digits c (List.mem_append_right _ hc))

/-- Plain digits behind a minus or nothing are a number. -/
theorem reads_written (s : Sign) {t : String} {whole frac : List Char}
    (h : Written t.toList whole frac) :
    Reads (minus s++t).toList (some (.number (minus s++t))) := by
  have hne : t.toList ≠ [] := by
    rcases h.eq with ⟨heq,-⟩ | ⟨heq,-⟩
    · exact heq ▸ h.ne
    · exact heq ▸ List.append_ne_nil_of_left_ne_nil h.ne _
  have hnumber : isNumber (minus s++t).toList = true := by
    rw [String.toList_append]
    cases s with
    | positive => exact isNumber_of_unsigned (unsigned_written h)
    | negative => exact unsigned_written h
  have hreads := reads_scalar (minus s++t).toList (by
      rw [String.toList_append]
      exact List.append_ne_nil_of_right_ne_nil _ hne) fun c hc => by
    rw [String.toList_append, List.mem_append] at hc
    rcases hc with hc | hc
    · rw [mem_minus hc]
      rfl
    · exact inWord_written h hc
  rwa [scalar_of_isNumber hnumber, String.ofList_toList] at hreads

theorem reads_toString (n : ℕ) : Reads (toString n).toList (some (.number (toString n))) := by
  have hwritten : Written (toString n).toList (Nat.toDigits 10 n) [] := by
    rw [Decimal.toList_toString]
    exact written_toDigits n
  simpa [minus] using reads_written .positive hwritten

theorem reads_word {s : String} (h : s ∈ ["NaN","inf","-inf"]) : Reads s.toList none := by
  simp only [List.mem_cons, List.not_mem_nil, or_false] at h
  rcases h with rfl | rfl | rfl
  · exact reads_scalar "NaN".toList (by decide) (List.all_eq_true.mp (by decide))
  · exact reads_scalar "inf".toList (by decide) (List.all_eq_true.mp (by decide))
  · exact reads_scalar "-inf".toList (by decide) (List.all_eq_true.mp (by decide))

/-- A finite value is written as a number, any other as no JSON. -/
theorem reads_displayBits {spec : Format} (hs : Suited spec) (top : ℕ) (b : BitVec spec.numBits) :
    Reads (displayBits spec top b).toList
      (if (unpack spec b).isFinite then some (.number (displayBits spec top b)) else none) := by
  cases h : (unpack spec b).isFinite with
  | true =>
    obtain ⟨s,t,whole,frac,hwrite,hwritten⟩ := displayBits_of_isFinite hs top h
    rw [hwrite]
    exact reads_written s hwritten
  | false => exact reads_word (displayBits_of_not_isFinite h)

end Json

namespace F32
open Float.Model.UnpackedFloat

theorem isFinite_eq (x : F32) : x.isFinite = (unpack .binary32 x.bits.toBitVec).isFinite :=
  congrArg Float.Model.UnpackedFloat.isFinite x.unpack_value

theorem reads_display (x : F32) :
    Json.Reads x.display.toList (if x.isFinite then some (.number x.display) else none) := by
  rw [isFinite_eq]
  exact Json.reads_displayBits FloatText.suited_binary32 38 x.bits.toBitVec

theorem parse_display_of_isFinite {x : F32} (h : x.isFinite = true) : parse x.display = some x := by
  rw [isFinite_eq] at h
  rw [parse, display, FloatText.parseBits_displayBits_of_isFinite FloatText.suited_binary32 38 h]
  rfl

end F32

namespace F64
open Float.Model.UnpackedFloat

theorem isFinite_eq (x : F64) : x.isFinite = (unpack .binary64 x.bits.toBitVec).isFinite :=
  congrArg Float.Model.UnpackedFloat.isFinite x.unpack_value

theorem reads_display (x : F64) :
    Json.Reads x.display.toList (if x.isFinite then some (.number x.display) else none) := by
  rw [isFinite_eq]
  exact Json.reads_displayBits FloatText.suited_binary64 308 x.bits.toBitVec

theorem parse_display_of_isFinite {x : F64} (h : x.isFinite = true) : parse x.display = some x := by
  rw [isFinite_eq] at h
  rw [parse, display, FloatText.parseBits_displayBits_of_isFinite FloatText.suited_binary64 308 h]
  rfl

end F64
