import Mathlib.Data.List.Basic
import Mathlib.Data.List.Induction
import Mathlib.Tactic.Linarith
import Mathlib.Tactic.Positivity
import Mathlib.Data.Nat.Digits.Defs

/-! Decimal text of machine integers: printing, parsing as `str::parse::<u64>` does, and
stripping a fixed head or tail from a text; and the lines of a text. -/
namespace Decimal

/-- The digits of a text, or nothing when it is empty or holds another character. -/
def digits (cs : List Char) : Option ℕ :=
  if cs ≠ [] ∧ cs.all Char.isDigit then some (Nat.ofDigitChars 10 cs 0) else none

/-- One optional plus sign, then digits alone, with a value that fits 64 bits. -/
def parseU64 (s : String) : Option ℕ :=
  let cs := match s.toList with
    | '+'::cs => cs
    | cs => cs
  (digits cs).filter fun n => n < 2^64

/-- The rest of a text after a fixed head. -/
def stripPrefix (p s : String) : Option String :=
  (p.toList.isPrefixOf? s.toList).map String.ofList

/-- The rest of a text before a fixed tail. -/
def stripSuffix (p s : String) : Option String :=
  (p.toList.isSuffixOf? s.toList).map String.ofList

theorem isDigit_of_mem_toDigits {n : ℕ} {c : Char} (h : c ∈ Nat.toDigits 10 n) :
    c.isDigit = true := Nat.isDigit_of_mem_toDigits (b := 10) (by decide) (by decide) h

theorem digits_toDigits (n : ℕ) : digits (Nat.toDigits 10 n) = some n := by
  have hne : Nat.toDigits 10 n ≠ [] := Nat.toDigits_ne_nil
  have hall : (Nat.toDigits 10 n).all Char.isDigit = true :=
    List.all_eq_true.mpr fun c hc => isDigit_of_mem_toDigits hc
  rw [digits, if_pos ⟨hne,hall⟩, Nat.ofDigitChars_toDigits (by decide) (by decide)]

theorem toList_toString (n : ℕ) : (toString n).toList = Nat.toDigits 10 n := by
  change (Nat.repr n).toList = _
  rw [Nat.repr, String.toList_ofList]

/-- Printing and parsing back gives the number. -/
theorem parseU64_toString {n : ℕ} (h : n < 2^64) : parseU64 (toString n) = some n := by
  have hd : (match Nat.toDigits 10 n with
      | '+'::cs => cs
      | cs => cs) = Nat.toDigits 10 n := by
    split
    · rename_i cs he
      have hp : '+'.isDigit = true := isDigit_of_mem_toDigits (by rw [he]; simp)
      exact absurd hp (by decide)
    · rfl
  simp only [parseU64, toList_toString, hd, digits_toDigits, Option.filter_some]
  simpa using h

theorem exists_digitChar {c : Char} (h : c.isDigit = true) : ∃ d < 10, c = Nat.digitChar d := by
  have hc : 48 ≤ c.toNat ∧ c.toNat ≤ 57 := by
    simpa [Char.isDigit, UInt32.le_iff_toNat_le] using h
  refine ⟨c.toNat-48,by omega,Char.ext (UInt32.toNat_inj.mp ?_)⟩
  have hd : (Nat.digitChar (c.toNat-48)).toNat = 48+(c.toNat-48) :=
    Nat.toNat_digitChar_of_lt_ten (by omega)
  change c.toNat = (Nat.digitChar (c.toNat-48)).toNat
  omega

/-- Digits as they are printed: no zero before other digits. -/
def Plain (ds : List Char) : Prop := ds.head? = some '0' → ds.length = 1

theorem ofDigitChars_lt {ds : List Char} (h : ds.all Char.isDigit = true) :
    Nat.ofDigitChars 10 ds 0 < 10^ds.length := by
  induction ds with
  | nil => simp
  | cons c ds ih =>
    rw [List.all_cons, Bool.and_eq_true] at h
    obtain ⟨d,hd,rfl⟩ := exists_digitChar h.1
    have hrest := ih h.2
    rw [Nat.ofDigitChars_cons_digitChar_of_lt_ten hd, Nat.ofDigitChars_eq_ofDigitChars_zero,
      List.length_cons, pow_succ]
    nlinarith

theorem pos_of_head {c : Char} {ds : List Char} (hc : c.isDigit = true) (hne : c ≠ '0') :
    0 < Nat.ofDigitChars 10 (c::ds) 0 := by
  obtain ⟨d,hd,rfl⟩ := exists_digitChar hc
  have hd0 : d ≠ 0 := fun h => hne (Nat.digitChar_eq_zero.mpr h)
  rw [Nat.ofDigitChars_cons_digitChar_of_lt_ten hd, Nat.ofDigitChars_eq_ofDigitChars_zero]
  have hpos : 0 < 10^ds.length*d := Nat.mul_pos (by positivity) (Nat.pos_of_ne_zero hd0)
  simp only [mul_zero, zero_add]
  omega

/-- Plain digits are what is printed for their number. -/
theorem toDigits_ofDigitChars {ds : List Char} (hne : ds ≠ []) (hall : ds.all Char.isDigit = true)
    (hplain : Plain ds) : Nat.toDigits 10 (Nat.ofDigitChars 10 ds 0) = ds := by
  induction ds using List.reverseRecOn with
  | nil => exact absurd rfl hne
  | append_singleton ds c ih =>
    simp only [List.all_append, List.all_cons, List.all_nil, Bool.and_true, Bool.and_eq_true] at hall
    obtain ⟨d,hd,rfl⟩ := exists_digitChar hall.2
    have hlast (n : ℕ) : Nat.ofDigitChars 10 [Nat.digitChar d] n = 10*n+d := by
      rw [Nat.ofDigitChars_cons_digitChar_of_lt_ten hd, Nat.ofDigitChars_nil]
    rw [Nat.ofDigitChars_append, hlast]
    cases ds with
    | nil => simp [Nat.toDigits_of_lt_base hd]
    | cons a ds =>
      have ha : a ≠ '0' := by
        rintro rfl
        have := hplain rfl
        simp at this
      have hpos := @pos_of_head a ds (by simpa using And.left (by simpa using hall.1)) ha
      rw [← Nat.toDigits_append_toDigits (by decide) hpos hd, Nat.toDigits_of_lt_base hd,
        ih (List.cons_ne_nil a ds) hall.1 fun h => absurd (Option.some.inj h) ha]

theorem plain_toDigits (n : ℕ) : Plain (Nat.toDigits 10 n) := by
  intro h
  obtain ⟨rest,hrest⟩ := List.head?_eq_some_iff.mp h
  by_contra hlen
  have hall : rest.all Char.isDigit = true := List.all_eq_true.mpr fun c hc =>
    isDigit_of_mem_toDigits (n := n) (by rw [hrest]; exact List.mem_cons_of_mem _ hc)
  have hn : n = Nat.ofDigitChars 10 rest 0 := by
    conv_lhs => rw [← @Nat.ofDigitChars_ten_toDigits n, hrest, Nat.ofDigitChars_cons]
    rfl
  have hpos : 0 < rest.length := by
    rw [hrest, List.length_cons] at hlen
    omega
  have hle := (Nat.length_toDigits_le_iff (by decide) hpos).mpr (hn ▸ ofDigitChars_lt hall)
  rw [hrest, List.length_cons] at hle
  omega

theorem isPrefixOf?_append (cs ds : List Char) : cs.isPrefixOf? (cs++ds) = some ds := by
  induction cs with
  | nil => rfl
  | cons c cs ih => simp [List.isPrefixOf?, ih]

theorem stripPrefix_append (p s : String) : stripPrefix p (p++s) = some s := by
  rw [stripPrefix, String.toList_append, isPrefixOf?_append]
  simp

theorem stripSuffix_append (s p : String) : stripSuffix p (s++p) = some s := by
  rw [stripSuffix, String.toList_append, List.isSuffixOf?, List.reverse_append,
    isPrefixOf?_append]
  simp

theorem isPrefixOf?_eq_some_iff {cs ds rest : List Char} :
    cs.isPrefixOf? ds = some rest ↔ ds = cs++rest := by
  constructor
  · induction cs generalizing ds with
    | nil => simp [List.isPrefixOf?]
    | cons c cs ih =>
      cases ds with
      | nil => simp [List.isPrefixOf?]
      | cons d ds =>
        simp only [List.isPrefixOf?, beq_iff_eq]
        split
        · rename_i hcd
          intro h
          rw [hcd, ih h, List.cons_append]
        · exact fun h => absurd h nofun
  · rintro rfl
    exact isPrefixOf?_append cs rest

theorem stripPrefix_eq_some_iff {p s rest : String} :
    stripPrefix p s = some rest ↔ s = p++rest := by
  constructor
  · intro h
    obtain ⟨cs,hcs,rfl⟩ := Option.map_eq_some_iff.mp h
    rw [← String.toList_inj, String.toList_append, String.toList_ofList]
    exact isPrefixOf?_eq_some_iff.mp hcs
  · rintro rfl
    exact stripPrefix_append p rest

theorem stripSuffix_eq_some_iff {p s rest : String} :
    stripSuffix p s = some rest ↔ s = rest++p := by
  constructor
  · intro h
    obtain ⟨cs,hcs,rfl⟩ := Option.map_eq_some_iff.mp h
    obtain ⟨ds,hds,rfl⟩ := Option.map_eq_some_iff.mp hcs
    have hrev := congrArg List.reverse (isPrefixOf?_eq_some_iff.mp hds)
    rw [List.reverse_reverse, List.reverse_append, List.reverse_reverse] at hrev
    rw [← String.toList_inj, String.toList_append, String.toList_ofList, hrev]
  · rintro rfl
    exact stripSuffix_append rest p

end Decimal

/-! Lines of a text: each ends at a newline, with a carriage return before it taken off, and the
last one may lack its newline. -/
namespace TextLines

/-- The pieces of a text, each up to its newline and with it. -/
def splitInclusive : List Char → List (List Char)
  | [] => []
  | c::cs =>
    if c = '\n' then [c]::splitInclusive cs
    else
      match splitInclusive cs with
      | [] => [[c]]
      | l::ls => (c::l)::ls

/-- A piece without its ending. -/
def stripEnding (line : String) : String :=
  match Decimal.stripSuffix "\n" line with
  | none => line
  | some line => (Decimal.stripSuffix "\r" line).getD line

def lines (text : String) : List String :=
  (splitInclusive text.toList).map fun l => stripEnding (String.ofList l)

/-- A newline ends the first piece. -/
theorem splitInclusive_append {l : List Char} (hl : '\n' ∉ l) (rest : List Char) :
    splitInclusive (l++ '\n'::rest) = (l++['\n'])::splitInclusive rest := by
  induction l with
  | nil => rfl
  | cons c l ih =>
    have hc : c ≠ '\n' := fun h => hl (h ▸ List.mem_cons_self)
    rw [List.cons_append, splitInclusive, if_neg hc, ih fun h => hl (List.mem_cons_of_mem c h)]
    rfl

theorem stripEnding_append {line : String} (hline : '\r' ∉ line.toList) :
    stripEnding (line++"\n") = line := by
  have hreturn : Decimal.stripSuffix "\r" line = none := by
    rw [Option.eq_none_iff_forall_ne_some]
    intro rest hrest
    apply hline
    rw [Decimal.stripSuffix_eq_some_iff.mp hrest, String.toList_append]
    exact List.mem_append_right _ List.mem_cons_self
  unfold stripEnding
  rw [Decimal.stripSuffix_append]
  dsimp only
  rw [hreturn]
  rfl

/-- A line without an ending of its own is the first line of the text it begins. -/
theorem lines_append {line : String} (hnewline : '\n' ∉ line.toList)
    (hreturn : '\r' ∉ line.toList) (rest : String) :
    lines (line++"\n"++rest) = line::lines rest := by
  have htext : (line++"\n"++rest).toList = line.toList++ '\n'::rest.toList := by
    simp only [String.toList_append, List.append_assoc]
    rfl
  have hpiece : String.ofList (line.toList++['\n']) = line++"\n" := by
    rw [← String.toList_inj, String.toList_ofList, String.toList_append]
    rfl
  unfold lines
  rw [htext, splitInclusive_append hnewline, List.map_cons, hpiece, stripEnding_append hreturn]

example : lines "label=a\r\nvalue=1\r" = ["label=a","value=1\r"] := by decide +kernel

end TextLines
