import Mathlib.Data.List.TakeWhile
import ConfluxFL.Lib.FloatRounding
import ConfluxFL.Lib.FloatText

/-! What `Display` writes is read back as the value it was written of. The search for the fewest
digits ends at the latest at the unit in which every value of the format has an exact text. -/
namespace FloatText

theorem number_point {whole frac : List Char} (hw : ∀ c ∈ whole, c.isDigit)
    (hf : ∀ c ∈ frac, c.isDigit) (hne : whole ≠ []) :
    number (whole++ '.'::frac) = some (Nat.ofDigitChars 10 (whole++frac) 0,-(frac.length : ℤ)) := by
  have hpoint : ('.').isDigit = false := by decide
  have htake : (whole++ '.'::frac).takeWhile Char.isDigit = whole := by
    rw [List.takeWhile_append_of_pos hw, List.takeWhile_cons_of_neg (by simp [hpoint]),
      List.append_nil]
  have hdrop : (whole++ '.'::frac).dropWhile Char.isDigit = '.'::frac := by
    rw [List.dropWhile_append_of_pos hw, List.dropWhile_cons_of_neg (by simp [hpoint])]
  have hfrac : frac.takeWhile Char.isDigit = frac := List.takeWhile_eq_self_iff.mpr hf
  have hrest : frac.dropWhile Char.isDigit = [] := List.dropWhile_eq_nil_iff.mpr hf
  simp only [number, htake, hdrop, hfrac, hrest, hne, false_and, if_false, exponent,
    Option.map_some, zero_sub]

/-- Units written out are read as the same units at the same power of ten. -/
theorem number_positional (units : ℕ) {scale : ℤ} (h : scale < 0) :
    number (positional units scale).toList = some (units,scale) := by
  obtain ⟨n,hn,rfl⟩ : ∃ n : ℕ, 0 < n ∧ scale = -n := ⟨(-scale).toNat,by omega,by omega⟩
  have hn' : (-(-(n : ℤ))).toNat = n := by omega
  have hlen : (Nat.toDigits 10 (units % 10^n)).length ≤ n :=
    (Nat.length_toDigits_le_iff (by decide) hn).mpr (Nat.mod_lt _ (by positivity))
  have hdigit : ∀ c ∈ List.replicate (n-(Nat.toDigits 10 (units % 10^n)).length) '0'++
      Nat.toDigits 10 (units % 10^n), c.isDigit := by
    intro c hc
    rcases List.mem_append.mp hc with hc | hc
    · rw [List.eq_of_mem_replicate hc]
      rfl
    · exact Decimal.isDigit_of_mem_toDigits hc
  rw [positional, if_neg (by omega), hn']
  simp only [String.toList_append, Decimal.toList_toString, String.toList_ofList,
    show ".".toList = ['.'] from rfl, List.append_assoc, List.singleton_append]
  rw [number_point (fun c hc => Decimal.isDigit_of_mem_toDigits hc) hdigit Nat.toDigits_ne_nil]
  -- the zeros make up for the digits that the remainder does not have
  have hvalue : Nat.ofDigitChars 10 (Nat.toDigits 10 (units / 10^n)++
      (List.replicate (n-(Nat.toDigits 10 (units % 10^n)).length) '0'++
        Nat.toDigits 10 (units % 10^n))) 0 = units := by
    rw [Nat.ofDigitChars_append, Nat.ofDigitChars_append, Nat.ofDigitChars_replicate_zero,
      Nat.ofDigitChars_toDigits (by decide) (by decide), Nat.ofDigitChars_eq_ofDigitChars_zero,
      Nat.ofDigitChars_toDigits (by decide) (by decide), ← mul_assoc, ← pow_add,
      Nat.add_sub_cancel' hlen, Nat.div_add_mod]
  rw [hvalue, List.length_append, List.length_replicate, Nat.sub_add_cancel hlen]

theorem sign_digits (n : ℕ) (rest : List Char) :
    sign (Nat.toDigits 10 n++rest) = (false,Nat.toDigits 10 n++rest) := by
  obtain ⟨c,cs,hcs⟩ := List.exists_cons_of_ne_nil (@Nat.toDigits_ne_nil n 10)
  have hc : c.isDigit := by
    apply Decimal.isDigit_of_mem_toDigits (n := n)
    rw [hcs]
    exact List.mem_cons_self
  rw [hcs, List.cons_append]
  unfold sign
  split
  · next h =>
    cases h
    exact absurd hc (by decide)
  · next h =>
    cases h
    exact absurd hc (by decide)
  · rfl

theorem sign_positional (units : ℕ) (scale : ℤ) :
    sign (positional units scale).toList = (false,(positional units scale).toList) := by
  unfold positional
  split
  · simp only [String.toList_append, Decimal.toList_toString, sign_digits]
  · simp only [String.toList_append, Decimal.toList_toString, List.append_assoc, sign_digits]

theorem mem_positional {units : ℕ} {scale : ℤ} {c : Char}
    (h : c ∈ (positional units scale).toList) : c.isDigit ∨ c = '.' := by
  have hdigit : ∀ n, c ∈ Nat.toDigits 10 n → c.isDigit ∨ c = '.' :=
    fun n hc => .inl (Decimal.isDigit_of_mem_toDigits hc)
  have hzero : ∀ k, c ∈ List.replicate k '0' → c.isDigit ∨ c = '.' := by
    intro k hc
    rw [List.eq_of_mem_replicate hc]
    exact .inl rfl
  unfold positional at h
  split at h
  · simp only [String.toList_append, Decimal.toList_toString, String.toList_ofList,
      List.mem_append] at h
    exact h.elim (hdigit _) (hzero _)
  · simp only [String.toList_append, Decimal.toList_toString, String.toList_ofList,
      List.mem_append, show ".".toList = ['.'] from rfl, List.mem_singleton] at h
    rcases h with (h | h) | h | h
    · exact hdigit _ h
    · exact .inr h
    · exact hzero _ h
    · exact hdigit _ h

/-- Where the power of ten is a multiple of the power of two, the lower neighbour is exact. -/
theorem neighbours_exact (m : ℕ) {e : ℤ} {n : ℕ} (h : (-e).toNat ≤ n) : ∃ units,
    units ∈ neighbours m e (-n) ∧ units*2^(-e).toNat = m*10^n*2^e.toNat := by
  have hdvd : 2^(-e).toNat ∣ m*2^e.toNat*10^n := by
    apply Dvd.dvd.mul_left
    exact (pow_dvd_pow 2 h).trans (pow_dvd_pow_of_dvd (by decide) n)
  have hn : (-(-(n : ℤ))).toNat = n := by omega
  have hn' : (-(n : ℤ)).toNat = 0 := by omega
  refine ⟨m*2^e.toNat*10^n / 2^(-e).toNat,?_,?_⟩
  · simp only [neighbours, hn, hn', pow_zero, mul_one]
    rw [Nat.mod_eq_zero_of_dvd hdvd, if_pos (Nat.zero_le _)]
    exact List.mem_cons_self
  · rw [Nat.div_mul_cancel hdvd]
    ring

open Float.Model (Format)
open Float.Model.UnpackedFloat
open FloatFormat

/-- At the unit of the least value of a format every value has an exact text. -/
theorem exists_exact {spec : Format} {m n : ℕ} {e : ℤ} (hm : 0 < m) (h : Canonical spec m e)
    (hmin : spec.minExponent = -n) (hn : 0 < n) (hrange : n ≤ 2^spec.exponentBits) :
    ∃ units ∈ neighbours m e (-n), ofScientific spec units (-n) = .finite .positive m e hm := by
  have he : (-e).toNat ≤ n := by
    rw [Canonical, Format.targetExponent, hmin] at h
    omega
  obtain ⟨units,hmem,hunits⟩ := neighbours_exact m he
  exact ⟨units,hmem,ofScientific_exact hm h hn hrange hunits⟩

/-- A format whose least value has decimals, not more of them than its exponents count. -/
structure Suited (spec : Format) : Prop where
  bits : 1 < spec.exponentBits
  least : spec.minExponent < 0
  range : (-spec.minExponent).toNat ≤ 2^spec.exponentBits

theorem suited_binary32 : Suited .binary32 := ⟨by decide,by decide,by decide⟩
theorem suited_binary64 : Suited .binary64 := ⟨by decide,by decide,by decide⟩

section Read
variable {spec : Format}

theorem packComponents_xor (x : BitVec spec.exponentBits)
    (v : BitVec spec.mantissaBitsWithoutImplicit) :
    packComponents spec .positive x v ^^^ pack spec (.zero .negative) =
      packComponents spec .negative x v := by
  change (Sign.positive.toBitVec++x++v) ^^^ (Sign.negative.toBitVec++0#_++0#_) = _
  rw [BitVec.xor_append, BitVec.xor_append, BitVec.xor_zero, BitVec.xor_zero]
  rfl

theorem parseBits_minus {t : String} (h : sign t.toList = (false,t.toList)) :
    parseBits spec ("-"++t) = (parseBits spec t).map fun b => b ^^^ pack spec (.zero .negative) := by
  have hneg : sign ("-"++t).toList = (true,t.toList) := by
    rw [String.toList_append]
    rfl
  unfold parseBits
  rw [h, hneg]
  simp only [Bool.false_eq_true, if_true, if_false, Option.map_id']

/-- A text of a positive value is one of the negative value behind a minus. -/
theorem parseBits_signed {u : Sign → Float.Model.UnpackedFloat} {t : String}
    (hu : ∃ x v, ∀ s, pack spec (u s) = packComponents spec s x v)
    (hsign : sign t.toList = (false,t.toList)) (h : parseBits spec t = some (pack spec (u .positive)))
    (s : Sign) : parseBits spec (minus s++t) = some (pack spec (u s)) := by
  cases s with
  | positive => rw [minus, String.empty_append, h]
  | negative =>
    obtain ⟨x,v,hfields⟩ := hu
    rw [minus, parseBits_minus hsign, h, Option.map_some, hfields, hfields, packComponents_xor]

theorem parseBits_positional (units : ℕ) {scale : ℤ} (h : scale < 0) :
    parseBits spec (positional units scale) = some (pack spec (ofScientific spec units scale)) := by
  simp only [parseBits, sign_positional, number_positional units h]
  rfl

theorem parseBits_nan : parseBits spec "NaN" = some (pack spec .notANumber) := by
  have hnumber : number "NaN".toList = none := by decide +kernel
  have hsign : sign "NaN".toList = (false,"NaN".toList) := rfl
  simp only [parseBits, hsign, hnumber]
  rfl

theorem parseBits_inf : parseBits spec "inf" = some (pack spec (.infinity .positive)) := by
  have hnumber : number "inf".toList = none := by decide +kernel
  have hsign : sign "inf".toList = (false,"inf".toList) := rfl
  simp only [parseBits, hsign, hnumber]
  rfl

theorem parseBits_zero : parseBits spec "0" = some (pack spec (.zero .positive)) := by
  have hnumber : number "0".toList = some (0,0) := by decide +kernel
  have hsign : sign "0".toList = (false,"0".toList) := rfl
  simp only [parseBits, hsign, hnumber]
  rfl

end Read

section Write
variable {spec : Format} {top m : ℕ} {e : ℤ} {b : BitVec spec.numBits}

theorem mem_texts {units : ℕ}
    (h : units ∈ neighbours m e (-(-spec.minExponent).toNat)) :
    positional units (-(-spec.minExponent).toNat) ∈ texts spec top m e := by
  refine List.mem_flatMap.mpr ⟨-(-spec.minExponent).toNat,?_,List.mem_map_of_mem h⟩
  refine List.mem_map.mpr ⟨top+(-spec.minExponent).toNat,List.mem_range.mpr (by omega),?_⟩
  push_cast
  ring

theorem sign_of_mem_texts {t : String} (h : t ∈ texts spec top m e) :
    sign t.toList = (false,t.toList) := by
  obtain ⟨scale,-,h⟩ := List.mem_flatMap.mp h
  obtain ⟨units,-,rfl⟩ := List.mem_map.mp h
  exact sign_positional units scale

/-- At the least unit there is an exact text, and it is read as the value. -/
theorem exists_text (hs : Suited spec) (top : ℕ) (hm : 0 < m) (h : Canonical spec m e) :
    ∃ t ∈ texts spec top m e, parseBits spec t = some (pack spec (.finite .positive m e hm)) := by
  have hleast := hs.least
  obtain ⟨units,hmem,hread⟩ := exists_exact (n := (-spec.minExponent).toNat) hm h (by omega)
    (by omega) hs.range
  refine ⟨_,mem_texts hmem,?_⟩
  rw [parseBits_positional units (by omega), hread]

/-- Of a number other than zero a text is found. -/
theorem displayBits_finite (hs : Suited spec) (top : ℕ) {s : Sign} {hm : 0 < m}
    (hb : unpack spec b = .finite s m e hm) : ∃ t ∈ texts spec top m e,
      displayBits spec top b = minus s++t ∧ parseBits spec t = some (pack spec (.finite .positive m e hm)) := by
  obtain ⟨t,ht,hread⟩ := exists_text hs top hm (canonical_of_unpack hs.bits hb)
  obtain ⟨t',ht'⟩ : ∃ t', (texts spec top m e).find? (fun text =>
      parseBits spec text = some (pack spec (.finite .positive m e hm))) = some t' :=
    Option.isSome_iff_exists.mp (List.find?_isSome.mpr ⟨t,ht,decide_eq_true hread⟩)
  refine ⟨t',List.mem_of_find?_eq_some ht',?_,by simpa using List.find?_some ht'⟩
  unfold displayBits
  rw [hb]
  dsimp only
  rw [ht', Option.getD_some]

/-- What is written is read back, a NaN as the canonical one. -/
theorem parseBits_displayBits (hs : Suited spec) (top : ℕ) (b : BitVec spec.numBits) :
    parseBits spec (displayBits spec top b) =
      some (if (unpack spec b).isNaN then pack spec .notANumber else b) := by
  have hpack := @pack_unpack spec hs.bits b
  cases hb : unpack spec b with
  | notANumber =>
    rw [displayBits, hb]
    exact parseBits_nan
  | infinity s =>
    rw [hb] at hpack
    rw [displayBits, hb]
    exact (parseBits_signed ⟨_,_,fun _ => rfl⟩ rfl parseBits_inf s).trans (congrArg some (hpack nofun))
  | zero s =>
    rw [hb] at hpack
    rw [displayBits, hb]
    exact (parseBits_signed ⟨_,_,fun _ => rfl⟩ rfl parseBits_zero s).trans (congrArg some (hpack nofun))
  | finite s m e hm =>
    obtain ⟨t,ht,hwrite,hread⟩ := displayBits_finite hs top hb
    rw [hb] at hpack
    rw [hwrite]
    exact (parseBits_signed (exists_fields m e hm) (sign_of_mem_texts ht) hread s).trans
      (congrArg some (hpack nofun))

theorem mem_minus {s : Sign} {c : Char} (h : c ∈ (minus s).toList) : c = '-' := by
  cases s with
  | positive => cases h
  | negative => exact List.mem_singleton.mp h

/-- The characters a value is written with. -/
theorem mem_displayBits {c : Char} (h : c ∈ (displayBits spec top b).toList) :
    c.isDigit = true ∨ c ∈ ['-','.','N','a','i','n','f'] := by
  have hword (word : List Char) (hall : ∀ a ∈ word, a ∈ ['-','.','N','a','i','n','f'])
      (hc : c ∈ word) : c.isDigit = true ∨ c ∈ ['-','.','N','a','i','n','f'] := .inr (hall c hc)
  have hminus (s : Sign) (hc : c ∈ (minus s).toList) :
      c.isDigit = true ∨ c ∈ ['-','.','N','a','i','n','f'] := by
    rw [mem_minus hc]
    exact .inr List.mem_cons_self
  unfold displayBits at h
  split at h
  · exact hword ['N','a','N'] (by simp) h
  · rw [String.toList_append, List.mem_append] at h
    exact h.elim (hminus _) (hword ['i','n','f'] (by simp))
  · rw [String.toList_append, List.mem_append] at h
    refine h.elim (hminus _) fun hc => .inl ?_
    rw [List.mem_singleton.mp hc]
    rfl
  · rw [String.toList_append, List.mem_append] at h
    refine h.elim (hminus _) fun hc => ?_
    cases hfind : (texts spec top _ _).find? fun text => parseBits spec text = some _ with
    | none =>
      rw [hfind] at hc
      exact absurd hc List.not_mem_nil
    | some text =>
      rw [hfind] at hc
      obtain ⟨scale,-,hscale⟩ := List.mem_flatMap.mp (List.mem_of_find?_eq_some hfind)
      obtain ⟨units,-,rfl⟩ := List.mem_map.mp hscale
      rcases mem_positional hc with hdigit | rfl
      · exact .inl hdigit
      · exact .inr (by simp)

theorem unpack_packedNaN : unpack spec (pack spec .notANumber) = .notANumber := by
  have hmantissa : (1#(spec.mantissaBitsWithoutImplicit) <<<
      (spec.mantissaBitsWithoutImplicit-1)) ≠ 0#_ := by
    have hm := spec.hm
    have hpow : 2^(spec.mantissaBitsWithoutImplicit-1) < 2^spec.mantissaBitsWithoutImplicit :=
      Nat.pow_lt_pow_right one_lt_two (by omega)
    intro heq
    have hzero := congrArg BitVec.toNat heq
    rw [BitVec.toNat_shiftLeft, BitVec.toNat_ofNat, Nat.mod_eq_of_lt (Nat.one_lt_two_pow hm.ne'),
      Nat.one_shiftLeft, Nat.mod_eq_of_lt hpow, BitVec.toNat_zero] at hzero
    exact (Nat.two_pow_pos _).ne' hzero
  change unpack spec (packComponents spec .positive (-1#_) _) = _
  simp only [unpack, unpackExponent_packComponents, unpackMantissa_packComponents, if_pos]
  rw [if_neg hmantissa]

/-- What is stored of a pattern is read as the pattern. -/
theorem unpack_stored (hbits : 1 < spec.exponentBits) (b : BitVec spec.numBits) :
    unpack spec (pack spec (unpack spec b)) = unpack spec b := by
  by_cases h : unpack spec b = .notANumber
  · rw [h, unpack_packedNaN]
  · rw [pack_unpack hbits h]

end Write
end FloatText

namespace F32
open Float.Model.UnpackedFloat
open FloatText

theorem unpack_value (x : F32) : x.value.toModel.unpack = unpack .binary32 x.bits.toBitVec :=
  unpack_stored suited_binary32.bits _

/-- A value is read back from its text, a NaN as the canonical one. -/
theorem parse_display (x : F32) : parse x.display = some (if x.isNaN then nan else x) := by
  have hnan : x.isNaN = (unpack .binary32 x.bits.toBitVec).isNaN :=
    congrArg Float.Model.UnpackedFloat.isNaN x.unpack_value
  have hread := parseBits_displayBits suited_binary32 38 x.bits.toBitVec
  rw [← hnan] at hread
  unfold parse display
  rw [hread]
  cases x.isNaN <;> rfl

/-- The characters a value is printed with. -/
theorem mem_display {x : F32} {c : Char} (h : c ∈ x.display.toList) :
    c.isDigit = true ∨ c ∈ ['-','.','N','a','i','n','f'] := mem_displayBits h

example : parse "-1.5e1" = some ⟨0xc1700000⟩ ∧ parse "." = none := by decide +kernel
example : display ⟨0x80000000⟩ = "-0" := by decide +kernel

end F32

namespace F64
open Float.Model.UnpackedFloat
open FloatText

theorem unpack_value (x : F64) : x.value.toModel.unpack = unpack .binary64 x.bits.toBitVec :=
  unpack_stored suited_binary64.bits _

/-- A value is read back from its text, a NaN as the canonical one. -/
theorem parse_display (x : F64) : parse x.display = some (if x.isNaN then nan else x) := by
  have hnan : x.isNaN = (unpack .binary64 x.bits.toBitVec).isNaN :=
    congrArg Float.Model.UnpackedFloat.isNaN x.unpack_value
  have hread := parseBits_displayBits suited_binary64 308 x.bits.toBitVec
  rw [← hnan] at hread
  unfold parse display
  rw [hread]
  cases x.isNaN <;> rfl

end F64
