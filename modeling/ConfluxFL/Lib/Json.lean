import ConfluxFL.Lib.Decimal
import Mathlib.Data.List.Basic
import Mathlib.Data.Nat.Digits.Defs

/-! Text in quotes as `Debug` writes it: a few characters after a backslash, and by their code
those that are not printable or extend the character before them. Which these are depends on the
version of Unicode. -/
namespace DebugText

/-- The two character tables of a Unicode version, with what they say of ASCII. -/
structure Tables where
  isPrintable : Char → Bool
  isGraphemeExtended : Char → Bool
  control : ∀ c, c.toNat < 0x20 → isPrintable c = false
  ascii : ∀ c, 0x20 ≤ c.toNat → c.toNat < 0x7f →
    isPrintable c = true ∧ isGraphemeExtended c = false

/-- Tables that tell the combining diacritical marks and the controls from the rest. -/
def marks : Tables where
  isPrintable c := decide (0x20 ≤ c.toNat ∧ ¬(0x7f ≤ c.toNat ∧ c.toNat < 0xa0))
  isGraphemeExtended c := decide (0x300 ≤ c.toNat ∧ c.toNat < 0x370)
  control := fun c hc => decide_eq_false (by omega)
  ascii := fun c hlow hhigh => ⟨decide_eq_true (by omega),decide_eq_false (by omega)⟩

variable (T : Tables)

/-- A backslash, `u`, and the code in braces. -/
def unicode (c : Char) : List Char :=
  ['\\','u','\x7b']++Nat.toDigits 16 c.toNat++['\x7d']

/-- A character that has no short escape, and is not written as it is. -/
def ByCode (c : Char) : Prop := T.isGraphemeExtended c = true ∨ T.isPrintable c = false

instance (c : Char) : Decidable (ByCode T c) := inferInstanceAs (Decidable (_ ∨ _))

def escape (c : Char) : List Char :=
  if c = '\x00' then ['\\','0']
  else if c = '\t' then ['\\','t']
  else if c = '\r' then ['\\','r']
  else if c = '\n' then ['\\','n']
  else if c = '\\' then ['\\','\\']
  else if c = '"' then ['\\','"']
  else if ByCode T c then unicode c
  else [c]

def quote (s : String) : String := "\""++(String.ofList (s.toList.flatMap (escape T))++"\"")

end DebugText

/-! JSON text, read by its grammar. A number keeps its text and an object its members in their
order. An object written by hand, member by member, is read as the members its parts are read
as, and a part that is not JSON spoils it. -/
namespace Json

inductive Value
  | null
  | bool (b : Bool)
  | number (text : String)
  | string (s : String)
  | array (values : List Value)
  | object (members : List (String × Value))

/-! Strings. -/

/-- What a backslash and one character stand for. -/
def short (c : Char) : Option Char :=
  if c = '"' ∨ c = '\\' ∨ c = '/' then some c
  else if c = 'b' then some '\x08'
  else if c = 'f' then some '\x0c'
  else if c = 'n' then some '\n'
  else if c = 'r' then some '\r'
  else if c = 't' then some '\t'
  else none

def hex (c : Char) : Option ℕ :=
  if c.isDigit then some (c.toNat-48)
  else if 'a' ≤ c ∧ c ≤ 'f' then some (c.toNat-87)
  else if 'A' ≤ c ∧ c ≤ 'F' then some (c.toNat-55)
  else none

def unit (a b c d : Char) : Option ℕ := do
  let a ← hex a
  let b ← hex b
  let c ← hex c
  let d ← hex d
  return 4096*a+256*b+16*c+d

/-- A part of a string: a character, or the code unit of an escape. -/
inductive Piece
  | char (c : Char)
  | unit (n : ℕ)

/-- The parts up to the closing quote, and what follows it. -/
def scan : List Char → Option (List Piece × List Char)
  | [] => none
  | c::cs =>
    if c = '"' then some ([],cs)
    else if c = '\\' then
      match cs with
      | [] => none
      | e::cs =>
        if e = 'u' then
          match cs with
          | w::x::y::z::cs => (unit w x y z).bind fun n =>
            (scan cs).map fun (ps,rest) => (.unit n::ps,rest)
          | _ => none
        else (short e).bind fun c => (scan cs).map fun (ps,rest) => (.char c::ps,rest)
    else if c.toNat < 0x20 then none
    else (scan cs).map fun (ps,rest) => (.char c::ps,rest)

/-- A code unit is a character, or with its successor a character beyond 16 bits. -/
def join : List Piece → Option (List Char)
  | [] => some []
  | .char c::ps => (join ps).map (c::·)
  | .unit n::ps =>
    if 0xd800 ≤ n ∧ n < 0xdc00 then
      match ps with
      | .unit k::ps =>
        if 0xdc00 ≤ k ∧ k < 0xe000 then
          (join ps).map (Char.ofNat (0x10000+(n-0xd800)*0x400+(k-0xdc00))::·)
        else none
      | _ => none
    else if 0xdc00 ≤ n ∧ n < 0xe000 then none
    else (join ps).map (Char.ofNat n::·)

/-- What follows an opening quote. -/
def string (cs : List Char) : Option (String × List Char) :=
  (scan cs).bind fun (ps,rest) => (join ps).map fun s => (String.ofList s,rest)

/-! Words and numbers. -/

def exponent : List Char → Bool
  | [] => true
  | c::cs =>
    let ds := match cs with
      | '+'::ds => ds
      | '-'::ds => ds
      | ds => ds
    (c = 'e' || c = 'E') && !ds.isEmpty && ds.all Char.isDigit

def decimals : List Char → Bool
  | '.'::cs => !(cs.takeWhile Char.isDigit).isEmpty && exponent (cs.dropWhile Char.isDigit)
  | cs => exponent cs

/-- No zero stands before other digits. -/
def unsigned (cs : List Char) : Bool :=
  let whole := cs.takeWhile Char.isDigit
  !whole.isEmpty && (whole.head? != some '0' || whole.length == 1) &&
    decimals (cs.dropWhile Char.isDigit)

def isNumber : List Char → Bool
  | '-'::cs => unsigned cs
  | cs => unsigned cs

/-- The characters of words and numbers. -/
def inWord (c : Char) : Bool := c.isAlphanum || c = '+' || c = '-' || c = '.'

def scalar (cs : List Char) : Option Value :=
  if cs = "null".toList then some .null
  else if cs = "true".toList then some (.bool true)
  else if cs = "false".toList then some (.bool false)
  else if isNumber cs then some (.number (String.ofList cs))
  else none

/-! Values. -/

def blank (c : Char) : Bool := c = ' ' || c = '\n' || c = '\r' || c = '\t'

/-- What stands between the characters of the grammar. -/
def skip (cs : List Char) : List Char := cs.dropWhile blank

mutual

/-- One value and what follows it, with at most so many steps down. -/
def value : ℕ → List Char → Option (Value × List Char)
  | 0, _ => none
  | n+1, cs =>
    match skip cs with
    | [] => none
    | c::cs =>
      if c = '"' then (string cs).map fun (s,rest) => (.string s,rest)
      else if c = '\x7b' then
        if (skip cs).head? = some '\x7d' then some (.object [],(skip cs).tail)
        else (members n cs).map fun (ms,rest) => (.object ms,rest)
      else if c = '[' then
        if (skip cs).head? = some ']' then some (.array [],(skip cs).tail)
        else (elements n cs).map fun (vs,rest) => (.array vs,rest)
      else (scalar ((c::cs).takeWhile inWord)).map fun v => (v,(c::cs).dropWhile inWord)

/-- The members up to the closing brace. -/
def members : ℕ → List Char → Option (List (String × Value) × List Char)
  | 0, _ => none
  | n+1, cs =>
    match skip cs with
    | '"'::cs => (string cs).bind fun (name,cs) =>
      match skip cs with
      | ':'::cs => (value n cs).bind fun (v,cs) =>
        match skip cs with
        | '\x7d'::cs => some ([(name,v)],cs)
        | ','::cs => (members n cs).map fun (ms,rest) => ((name,v)::ms,rest)
        | _ => none
      | _ => none
    | _ => none

/-- The elements up to the closing bracket. -/
def elements : ℕ → List Char → Option (List Value × List Char)
  | 0, _ => none
  | n+1, cs => (value n cs).bind fun (v,cs) =>
    match skip cs with
    | ']'::cs => some ([v],cs)
    | ','::cs => (elements n cs).map fun (vs,rest) => (v::vs,rest)
    | _ => none

end

/-- A text that is one value. Every second step down takes a character at least. -/
def parse (s : String) : Option Value :=
  (value (2*s.length+2) s.toList).bind fun (v,rest) =>
    if skip rest = [] then some v else none

/-! What is read where a character stands for itself, and where `Debug` has written it. -/

/-- The character may stand in a string as it is. -/
def Bare (c : Char) : Prop := c ≠ '"' ∧ c ≠ '\\' ∧ 0x20 ≤ c.toNat

instance (c : Char) : Decidable (Bare c) := inferInstanceAs (Decidable (_ ∧ _ ∧ _))

theorem scan_bare {c : Char} (h : Bare c) (rest : List Char) : scan ([c]++rest) =
    (scan rest).map fun (ps,rest) => (.char c::ps,rest) := by
  have hlow : ¬c.toNat < 0x20 := Nat.not_lt_of_le h.2.2
  rw [List.singleton_append, scan.eq_def]
  simp only [h.1, h.2.1, hlow, if_false]

theorem scan_short {e c : Char} (h : short e = some c) (rest : List Char) :
    scan (['\\',e]++rest) = (scan rest).map fun (ps,rest) => (.char c::ps,rest) := by
  have hu : e ≠ 'u' := by
    rintro rfl
    exact absurd (h.symm.trans (show short 'u' = none by decide)) (by simp)
  have hslash : ('\\' : Char) ≠ '"' := by decide
  simp only [List.cons_append, List.nil_append]
  rw [scan.eq_def]
  simp only [hslash, hu, if_false, if_true, h, Option.bind_some]

/-- Characters that are each read as themselves, up to the closing quote. -/
theorem string_flatMap {f : Char → List Char} {s : String} (h : ∀ c ∈ s.toList, ∀ rest,
    scan (f c++rest) = (scan rest).map fun (ps,rest) => (.char c::ps,rest)) (rest : List Char) :
    string (s.toList.flatMap f++ '"'::rest) = some (s,rest) := by
  have hscan : ∀ cs : List Char, (∀ c ∈ cs, ∀ rest,
      scan (f c++rest) = (scan rest).map fun (ps,rest) => (.char c::ps,rest)) →
      scan (cs.flatMap f++ '"'::rest) = some (cs.map .char,rest) := by
    intro cs hcs
    induction cs with
    | nil => simp [scan.eq_def]
    | cons c cs ih =>
      rw [List.flatMap_cons, List.append_assoc, hcs c List.mem_cons_self,
        ih fun d hd => hcs d (List.mem_cons_of_mem c hd), Option.map_some, List.map_cons]
  have hjoin : ∀ cs : List Char, join (cs.map .char) = some cs := by
    intro cs
    induction cs with
    | nil => rfl
    | cons c cs ih => rw [List.map_cons, join, ih, Option.map_some]
  rw [string, hscan s.toList h, Option.bind_some]
  dsimp only
  rw [hjoin, Option.map_some, String.ofList_toList]

theorem string_bare {s : String} (h : ∀ c ∈ s.toList, Bare c) (rest : List Char) :
    string (s.toList++ '"'::rest) = some (s,rest) := by
  have hself : s.toList.flatMap (fun c => [c]) = s.toList := List.flatMap_singleton' s.toList
  rw [← hself, string_flatMap (fun c hc => scan_bare (h c hc)) rest]

section Quoted
variable (T : DebugText.Tables)
open DebugText

/-- The character that `Debug` writes is one that JSON reads back. -/
def Common (c : Char) : Prop := c ≠ '\x00' ∧ (ByCode T c → c ∈ ['\t','\r','\n'])

instance (c : Char) : Decidable (Common T c) := inferInstanceAs (Decidable (_ ∧ _))

/-- Every character of the text is read back. -/
def Shared (s : String) : Prop := ∀ c ∈ s.toList, Common T c

-- character by character of the text, not over all characters there are
instance (s : String) : Decidable (Shared T s) := List.decidableBAll (Common T) s.toList

/-- Nothing but blanks and visible ASCII. -/
def isAscii (s : String) : Bool := s.toList.all fun c => 0x20 ≤ c.toNat ∧ c.toNat < 0x7f

theorem shared_of_ascii {s : String} (h : isAscii s = true) : Shared T s := by
  intro c hc
  obtain ⟨hlow,hhigh⟩ := of_decide_eq_true (List.all_eq_true.mp h c hc)
  obtain ⟨hprint,hextend⟩ := T.ascii c hlow hhigh
  refine ⟨?_,fun hcode => ?_⟩
  · rintro rfl
    exact absurd hlow (by decide)
  · simp [ByCode, hprint, hextend] at hcode

variable {T} {c : Char}

theorem scan_escape (h : Common T c) (rest : List Char) :
    scan (escape T c++rest) = (scan rest).map fun (ps,rest) => (.char c::ps,rest) := by
  unfold escape
  rw [if_neg h.1]
  split
  · next htab => exact htab ▸ scan_short (e := 't') (by decide) rest
  split
  · next hreturn => exact hreturn ▸ scan_short (e := 'r') (by decide) rest
  split
  · next hline => exact hline ▸ scan_short (e := 'n') (by decide) rest
  split
  · next hslash =>
    subst hslash
    exact scan_short (by decide) rest
  split
  · next hquote =>
    subst hquote
    exact scan_short (by decide) rest
  rw [if_neg fun hcode => absurd (h.2 hcode) (by simp only [List.mem_cons, List.not_mem_nil]; tauto)]
  refine scan_bare ⟨‹_›,‹_›,?_⟩ rest
  -- a control character is written by its code
  by_contra hlow
  have hcode : ByCode T c := .inr (T.control c (Nat.lt_of_not_le hlow))
  have := h.2 hcode
  simp only [List.mem_cons, List.not_mem_nil] at this
  tauto

/-- Of the escapes that JSON lacks nothing is read. -/
theorem scan_escape_none (h : ¬Common T c) (rest : List Char) :
    scan (escape T c++rest) = none := by
  have hslash : ('\\' : Char) ≠ '"' := by decide
  have hshort : ∀ e, e ≠ 'u' → short e = none → scan ('\\'::e::rest) = none := by
    intro e hu he
    rw [scan.eq_def]
    simp only [hslash, hu, if_false, if_true, he, Option.bind_none]
  by_cases hnul : c = '\x00'
  · rw [escape, if_pos hnul]
    exact hshort '0' (by decide) (by decide)
  obtain ⟨hcode,htab,hreturn,hline⟩ : ByCode T c ∧ c ≠ '\t' ∧ c ≠ '\r' ∧ c ≠ '\n' := by
    simpa [Common, hnul] using h
  have hnot : ¬ByCode T '\\' ∧ ¬ByCode T '"' := by
    have hs := T.ascii '\\' (by decide) (by decide)
    have hq := T.ascii '"' (by decide) (by decide)
    simp [ByCode, hs, hq]
  have hslash' : c ≠ '\\' := fun h => hnot.1 (h ▸ hcode)
  have hquote : c ≠ '"' := fun h => hnot.2 (h ▸ hcode)
  -- a brace stands where the grammar wants four digits
  rw [escape, if_neg hnul, if_neg htab, if_neg hreturn, if_neg hline, if_neg hslash',
    if_neg hquote, if_pos hcode, unicode]
  simp only [List.cons_append, List.nil_append]
  rw [scan.eq_def]
  simp only [hslash, if_false, if_true]
  split
  · next w x y z cs hcs =>
    obtain ⟨rfl,-⟩ := List.cons.inj hcs
    rfl
  · rfl

variable (T)

theorem scan_escapes_none {cs : List Char} (h : ∃ c ∈ cs, ¬Common T c) (rest : List Char) :
    scan (cs.flatMap (escape T)++rest) = none := by
  induction cs with
  | nil =>
    obtain ⟨c,hc,-⟩ := h
    cases hc
  | cons c cs ih =>
    rw [List.flatMap_cons, List.append_assoc]
    by_cases hc : Common T c
    · obtain ⟨d,hd,hnot⟩ := h
      have htail : ∃ c ∈ cs, ¬Common T c := by
        rcases List.mem_cons.mp hd with rfl | hd
        · exact absurd hc hnot
        · exact ⟨d,hd,hnot⟩
      rw [scan_escape hc, ih htail, Option.map_none]
    · exact scan_escape_none hc _

/-- A text that `Debug` has quoted is read back, or not read at all. -/
theorem string_quoted (s : String) (rest : List Char) :
    string (s.toList.flatMap (escape T)++ '"'::rest) =
      if Shared T s then some (s,rest) else none := by
  split
  · next h => exact string_flatMap (fun c hc => scan_escape (h c hc)) rest
  · next h =>
    have hbad : ∃ c ∈ s.toList, ¬Common T c := by simpa [Shared] using h
    rw [string, scan_escapes_none T hbad, Option.bind_none]

end Quoted

/-! Objects written member by member. -/

/-- What may follow a value: the end of the text, or what is in no word. -/
def Ends (rest : List Char) : Prop := ∀ c ∈ rest.head?, inWord c = false

theorem ends_cons {c : Char} (h : inWord c = false) (cs : List Char) : Ends (c::cs) := by
  intro d hd
  rw [List.head?_cons, Option.mem_some_iff] at hd
  exact hd ▸ h

/-- The text is read as the value, or as none. -/
def Reads (cs : List Char) (v : Option Value) : Prop :=
  ∀ n rest, Ends rest → value (n+1) (cs++rest) = v.map fun v => (v,rest)

theorem reads_quoted (T : DebugText.Tables) (s : String) :
    Reads (DebugText.quote T s).toList (if Shared T s then some (.string s) else none) := by
  intro n rest _
  have htext : (DebugText.quote T s).toList++rest =
      '"'::(s.toList.flatMap (DebugText.escape T)++ '"'::rest) := by
    simp [DebugText.quote]
  have hskip : ∀ cs, skip ('"'::cs) = '"'::cs := fun _ => rfl
  rw [htext, value, hskip]
  simp only [if_true, string_quoted]
  split <;> rfl

theorem reads_scalar (cs : List Char) (hne : cs ≠ []) (hword : ∀ c ∈ cs, inWord c = true) :
    Reads cs (scalar cs) := by
  intro n rest hrest
  obtain ⟨c,tail,rfl⟩ := List.exists_cons_of_ne_nil hne
  have hc := hword c List.mem_cons_self
  have hnot : ∀ d, inWord d = false → c ≠ d := by
    rintro d hd rfl
    exact absurd (hc.symm.trans hd) (by decide)
  have hblank : blank c = false := by
    simp only [blank, Bool.or_eq_false_iff, decide_eq_false_iff_not]
    exact ⟨⟨⟨hnot _ rfl,hnot _ rfl⟩,hnot _ rfl⟩,hnot _ rfl⟩
  have hskip : skip (c::(tail++rest)) = c::(tail++rest) := by
    rw [skip, List.dropWhile_cons_of_neg (by simp [hblank])]
  have htake : (c::(tail++rest)).takeWhile inWord = c::tail := by
    rw [← List.cons_append, List.takeWhile_append_of_pos hword]
    cases rest with
    | nil => simp
    | cons d ds => simp [hrest d rfl]
  have hdrop : (c::(tail++rest)).dropWhile inWord = rest := by
    rw [← List.cons_append, List.dropWhile_append_of_pos hword]
    cases rest with
    | nil => rfl
    | cons d ds => simp [hrest d rfl]
  rw [List.cons_append, value, hskip]
  simp only [hnot '"' rfl, hnot '\x7b' rfl, hnot '[' rfl, if_false, htake, hdrop]

theorem reads_bare {s : String} (h : ∀ c ∈ s.toList, Bare c) :
    Reads ("\""++(s++"\"")).toList (some (.string s)) := by
  intro n rest _
  have htext : ("\""++(s++"\"")).toList++rest = '"'::(s.toList++ '"'::rest) := by simp
  have hskip : ∀ cs, skip ('"'::cs) = '"'::cs := fun _ => rfl
  rw [htext, value, hskip]
  simp only [if_true, string_bare h, Option.map_some]

/-- A member as it is written, and what its text is read as. -/
structure Part where
  name : String
  text : List Char
  value : Option Value
  bare : ∀ c ∈ name.toList, Bare c
  reads : Reads text value

namespace Part

def write (p : Part) : List Char := '"'::(p.name.toList++ '"'::(':'::p.text))

def member (p : Part) : Option (String × Value) := p.value.map fun v => (p.name,v)

end Part

def writeAll : List Part → List Char
  | [] => []
  | [p] => p.write
  | p::ps => p.write++ ','::writeAll ps

theorem members_write (p : Part) (n : ℕ) {rest : List Char} (h : Ends rest) :
    members (n+2) (p.write++rest) = p.value.bind fun v =>
      match skip rest with
      | '\x7d'::cs => some ([(p.name,v)],cs)
      | ','::cs => (members (n+1) cs).map fun (ms,rest) => ((p.name,v)::ms,rest)
      | _ => none := by
  have htext : p.write++rest = '"'::(p.name.toList++ '"'::(':'::(p.text++rest))) := by
    simp [Part.write]
  have hskip : ∀ cs, skip ('"'::cs) = '"'::cs := fun _ => rfl
  have hcolon : ∀ cs, skip (':'::cs) = ':'::cs := fun _ => rfl
  rw [htext, members, hskip]
  simp only [string_bare p.bare, Option.bind_some, hcolon, p.reads n rest h]
  cases p.value with
  | none => rfl
  | some v => rfl

/-- The object has the members that its parts are read as, where all are read. -/
theorem members_writeAll {ps : List Part} (hne : ps ≠ []) {n : ℕ} (hn : ps.length < n)
    (rest : List Char) : members n (writeAll ps++ '\x7d'::rest) =
      (ps.mapM Part.member).map fun ms => (ms,rest) := by
  have hbrace : inWord '\x7d' = false := rfl
  have hcomma : inWord ',' = false := rfl
  have hskip : ∀ cs, skip ('\x7d'::cs) = '\x7d'::cs := fun _ => rfl
  have hskip' : ∀ cs, skip (','::cs) = ','::cs := fun _ => rfl
  induction ps generalizing n with
  | nil => exact absurd rfl hne
  | cons p ps ih =>
    obtain ⟨k,rfl⟩ : ∃ k, n = k+2 := ⟨n-2,by simp only [List.length_cons] at hn; omega⟩
    rw [List.mapM_cons]
    cases ps with
    | nil =>
      rw [writeAll, members_write p k (ends_cons hbrace rest), hskip, Part.member]
      cases p.value with
      | none => rfl
      | some v => rfl
    | cons q ps =>
      have htext : writeAll (p::q::ps)++ '\x7d'::rest =
          p.write++(','::(writeAll (q::ps)++ '\x7d'::rest)) := by
        simp [writeAll]
      have htail := ih (List.cons_ne_nil q ps) (n := k+1) (by
        simp only [List.length_cons] at hn ⊢
        omega)
      rw [htext, members_write p k (ends_cons hcomma _), hskip', Part.member]
      cases p.value with
      | none => rfl
      | some v =>
        rw [Option.bind_some]
        simp only [htail]
        cases (q::ps).mapM Part.member with
        | none => rfl
        | some ms => rfl

theorem length_le_writeAll (ps : List Part) : ps.length ≤ (writeAll ps).length := by
  induction ps with
  | nil => rfl
  | cons p ps ih =>
    cases ps with
    | nil => simp [writeAll, Part.write]
    | cons q ps =>
      simp only [writeAll, List.length_append, List.length_cons] at ih ⊢
      omega

/-- An object written by hand is the object of what its parts are read as, and no JSON where one
of them is none. -/
theorem parse_writeAll {ps : List Part} (hne : ps ≠ []) :
    parse (String.ofList ('\x7b'::(writeAll ps++['\x7d']))) =
      (ps.mapM Part.member).map .object := by
  obtain ⟨body,hbody⟩ : ∃ body, writeAll ps = '"'::body := by
    obtain ⟨p,ps,rfl⟩ := List.exists_cons_of_ne_nil hne
    cases ps with
    | nil => exact ⟨_,rfl⟩
    | cons q ps => exact ⟨_,rfl⟩
  have hskip : ∀ cs, skip ('\x7b'::cs) = '\x7b'::cs := fun _ => rfl
  have hfirst : (skip (writeAll ps++['\x7d'])).head? ≠ some '\x7d' := by
    rw [hbody]
    exact fun h => absurd (Option.some.inj h) (by decide)
  have hbrace : ('\x7b' : Char) ≠ '"' := by decide
  have hlen := length_le_writeAll ps
  rw [parse, String.toList_ofList, String.length_ofList, value, hskip]
  simp only [hbrace, if_false, if_true, hfirst]
  rw [members_writeAll hne (by simp only [List.length_cons, List.length_append]; omega)]
  cases ps.mapM Part.member with
  | none => rfl
  | some ms => rfl

end Json
