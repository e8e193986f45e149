import ConfluxFL.Lib.Decimal
import Mathlib.Data.BitVec

/-! The text of a socket address, read as `SocketAddr::from_str` does: an IPv4 address and a port,
or an IPv6 address in brackets, with a scope if it has one, and a port. -/
namespace SocketText

inductive IpAddr
  | v4 (bits : BitVec 32)
  | v6 (bits : BitVec 128)
  deriving DecidableEq, Repr

structure SocketAddr where
  ip : IpAddr
  port : ℕ
  scopeId : ℕ
  deriving DecidableEq, Repr

def IpAddr.isLoopback : IpAddr → Bool
  | .v4 bits => bits >>> 24 = 127
  | .v6 bits => bits = 1

/-- A reader takes what it reads off the front of its input. -/
abbrev Reader (α : Type) := List Char → Option (α × List Char)

def toDigit (radix : ℕ) (c : Char) : Option ℕ :=
  let d :=
    if '0' ≤ c ∧ c ≤ '9' then c.toNat - '0'.toNat
    else if 'a' ≤ c ∧ c ≤ 'z' then c.toNat - 'a'.toNat + 10
    else if 'A' ≤ c ∧ c ≤ 'Z' then c.toNat - 'A'.toNat + 10
    else radix
  if d < radix then some d else none

/-- The longest run of digits, and the rest. -/
def readDigits (radix : ℕ) : List Char → List ℕ × List Char
  | [] => ([],[])
  | c::cs =>
    match toDigit radix c with
    | some d => (d::(readDigits radix cs).1,(readDigits radix cs).2)
    | none => ([],c::cs)

def number (radix : ℕ) (ds : List ℕ) : ℕ := ds.foldl (fun n d => n*radix+d) 0

/-- A number below a bound, of one digit or more. -/
def readNumber (radix : ℕ) (maxDigits : Option ℕ) (allowZeroPrefix : Bool) (bound : ℕ) :
    Reader ℕ := fun s =>
  let ds := (readDigits radix s).1
  if ds = [] ∨ maxDigits.any (· < ds.length) ∨
      (allowZeroPrefix = false ∧ ds.head? = some 0 ∧ 1 < ds.length) ∨
      bound ≤ number radix ds then none
  else some (number radix ds,(readDigits radix s).2)

def readGivenChar (c : Char) : Reader Unit
  | d::s => if d = c then some ((),s) else none
  | [] => none

/-- The separator stands before every element but the first. -/
def readSeparator {α : Type} (sep : Char) (index : ℕ) (inner : Reader α) : Reader α := fun s =>
  if index = 0 then inner s
  else (readGivenChar sep s).bind fun r => inner r.2

/-- The four octets, from the `index`th on. -/
def readOctets (index : ℕ) : (count : ℕ) → Reader (List ℕ)
  | 0, s => some ([],s)
  | count+1, s => do
    let (octet,s) ← readSeparator '.' index (readNumber 10 (some 3) false 256) s
    let (octets,s) ← readOctets (index+1) count s
    return (octet::octets,s)

def readIpv4Octets : Reader (List ℕ) := readOctets 0 4

def readIpv4Addr : Reader (BitVec 32) := fun s =>
  (readIpv4Octets s).map fun r => (BitVec.ofNat 32 (number 256 r.1),r.2)

/-- The groups from the `index`th on, as many as there are up to `limit`, and whether the last two
of them were an embedded IPv4 address. -/
def readGroups (limit : ℕ) (index : ℕ) : (left : ℕ) → List Char → List ℕ × Bool × List Char
  | 0, s => ([],false,s)
  | left+1, s =>
    let ipv4 := if index+1 < limit then readSeparator ':' index readIpv4Octets s else none
    match ipv4 with
    | some ([a,b,c,d],s) => ([a*256+b,c*256+d],true,s)
    | _ =>
      match readSeparator ':' index (readNumber 16 (some 4) true (2^16)) s with
      | some (group,s) =>
        let (groups,embedded,s) := readGroups limit (index+1) left s
        (group::groups,embedded,s)
      | none => ([],false,s)

/-- All eight groups, or some around a `::` that stands for one zero group or more. -/
def readIpv6Addr : Reader (BitVec 128) := fun s =>
  let (head,embedded,s) := readGroups 8 0 8 s
  if head.length = 8 then some (BitVec.ofNat 128 (number (2^16) head),s)
  else if embedded then none
  else do
    let (_,s) ← readGivenChar ':' s
    let (_,s) ← readGivenChar ':' s
    let limit := 8-(head.length+1)
    let (tail,_,s) := readGroups limit 0 limit s
    let zeros := List.replicate (8-head.length-tail.length) 0
    return (BitVec.ofNat 128 (number (2^16) (head++zeros++tail)),s)

def readPort : Reader ℕ := fun s =>
  (readGivenChar ':' s).bind fun r => readNumber 10 none true (2^16) r.2

def readScopeId : Reader ℕ := fun s =>
  (readGivenChar '%' s).bind fun r => readNumber 10 none true (2^32) r.2

def readSocketAddrV4 : Reader SocketAddr := fun s => do
  let (ip,s) ← readIpv4Addr s
  let (port,s) ← readPort s
  return (⟨.v4 ip,port,0⟩,s)

def readSocketAddrV6 : Reader SocketAddr := fun s => do
  let (_,s) ← readGivenChar '[' s
  let (ip,s) ← readIpv6Addr s
  let (scopeId,s) := (readScopeId s).getD (0,s)
  let (_,s) ← readGivenChar ']' s
  let (port,s) ← readPort s
  return (⟨.v6 ip,port,scopeId⟩,s)

/-- The whole text is one socket address. -/
def parse (text : String) : Option SocketAddr :=
  match readSocketAddrV4 text.toList <|> readSocketAddrV6 text.toList with
  | some (addr,[]) => some addr
  | _ => none

/-- An IPv4 address and a port, as they are displayed. -/
def displayV4 (a b c d port : ℕ) : String :=
  toString a++"."++toString b++"."++toString c++"."++toString d++":"++toString port

section Display

theorem toDigit_of_isDigit {c : Char} (h : c.isDigit = true) :
    toDigit 10 c = some (c.toNat - '0'.toNat) := by
  have hle : '0' ≤ c ∧ c ≤ '9' := by
    simp only [Char.isDigit, ge_iff_le, Bool.and_eq_true, decide_eq_true_eq] at h
    exact h
  have hnine : c.toNat ≤ '9'.toNat := hle.2
  have hlt : c.toNat - '0'.toNat < 10 := by
    simp only [Char.reduceToNat] at hnine ⊢
    omega
  simp only [toDigit, if_pos hle, if_pos hlt]

/-- A run of digits ends where the rest starts with none. -/
theorem readDigits_append {cs s : List Char} (hcs : ∀ c ∈ cs, c.isDigit = true)
    (hs : ∀ c, s.head? = some c → toDigit 10 c = none) :
    readDigits 10 (cs++s) = (cs.map fun c => c.toNat - '0'.toNat,s) := by
  induction cs with
  | nil =>
    cases s with
    | nil => rfl
    | cons c s => simp [readDigits, hs c rfl]
  | cons c cs ih =>
    rw [List.cons_append, readDigits, toDigit_of_isDigit (hcs c List.mem_cons_self),
      ih fun c' hc' => hcs c' (List.mem_cons_of_mem c hc')]
    rfl

theorem number_map (cs : List Char) :
    number 10 (cs.map fun c => c.toNat - '0'.toNat) = Nat.ofDigitChars 10 cs 0 := by
  rw [number, List.foldl_map, Nat.ofDigitChars]
  congr 1
  funext n c
  rw [Nat.mul_comm]

/-- The digits of a number are read back, within the limits of its reader. -/
theorem readNumber_toDigits {n bound : ℕ} {maxDigits : Option ℕ} {allowZeroPrefix : Bool}
    {s : List Char} (hbound : n < bound)
    (hmax : ∀ m ∈ maxDigits, (Nat.toDigits 10 n).length ≤ m)
    (hzero : allowZeroPrefix = false → (Nat.toDigits 10 n).head? = some '0' →
      (Nat.toDigits 10 n).length ≤ 1)
    (hs : ∀ c, s.head? = some c → toDigit 10 c = none) :
    readNumber 10 maxDigits allowZeroPrefix bound (Nat.toDigits 10 n++s) = some (n,s) := by
  have hdigit : ∀ c ∈ Nat.toDigits 10 n, c.isDigit = true :=
    fun c hc => Decimal.isDigit_of_mem_toDigits hc
  have hvalue : number 10 ((Nat.toDigits 10 n).map fun c => c.toNat - '0'.toNat) = n := by
    rw [number_map, Nat.ofDigitChars_toDigits (by decide) (by decide)]
  rw [readNumber, readDigits_append hdigit hs]
  dsimp only
  rw [hvalue, if_neg]
  rintro (hnil | hlong | ⟨hnot,hhead,hlen⟩ | hle)
  · exact Nat.toDigits_ne_nil (List.map_eq_nil_iff.mp hnil)
  · cases maxDigits with
    | none => cases hlong
    | some m =>
      have hm := hmax m rfl
      simp only [Option.any_some, List.length_map, decide_eq_true_eq] at hlong
      omega
  · rw [List.length_map] at hlen
    cases hcs : Nat.toDigits 10 n with
    | nil => exact Nat.toDigits_ne_nil hcs
    | cons c cs =>
      have hc : c.isDigit = true := hdigit c (hcs ▸ List.mem_cons_self)
      have hzeroChar : c = '0' := by
        rw [hcs] at hhead
        have hval : c.toNat - '0'.toNat = 0 := by simpa using hhead
        have hge : '0' ≤ c := by
          simp only [Char.isDigit, ge_iff_le, Bool.and_eq_true, decide_eq_true_eq] at hc
          exact hc.1
        have hle : '0'.toNat ≤ c.toNat := hge
        apply Char.toNat_inj.mp
        omega
      have hone := hzero hnot (by rw [hcs, hzeroChar]; rfl)
      omega
  · omega

theorem readOctet {n : ℕ} (hn : n < 256) {s : List Char}
    (hs : ∀ c, s.head? = some c → toDigit 10 c = none) :
    readNumber 10 (some 3) false 256 (Nat.toDigits 10 n++s) = some (n,s) := by
  have hlen : ∀ m < 256, (Nat.toDigits 10 m).length ≤ 3 := by decide +kernel
  have hzero : ∀ m < 256, (Nat.toDigits 10 m).head? = some '0' →
      (Nat.toDigits 10 m).length ≤ 1 := by decide +kernel
  refine readNumber_toDigits hn (fun m hm => ?_) (fun _ => hzero n hn) hs
  obtain rfl := Option.some.inj hm
  exact hlen n hn

/-- What is displayed is read back. -/
theorem parse_displayV4 {a b c d port : ℕ} (ha : a < 256) (hb : b < 256) (hc : c < 256)
    (hd : d < 256) (hport : port < 2^16) : parse (displayV4 a b c d port) =
      some ⟨.v4 (BitVec.ofNat 32 (number 256 [a,b,c,d])),port,0⟩ := by
  have htext : (displayV4 a b c d port).toList = Nat.toDigits 10 a++ '.'::(Nat.toDigits 10 b++
      '.'::(Nat.toDigits 10 c++ '.'::(Nat.toDigits 10 d++ ':'::(Nat.toDigits 10 port++[])))) := by
    simp [displayV4, String.toList_append]
  have hdot : ∀ s : List Char, ∀ c, ('.'::s).head? = some c → toDigit 10 c = none := by
    rintro s c ⟨⟩
    decide
  have hcolon : ∀ s : List Char, ∀ c, (':'::s).head? = some c → toDigit 10 c = none := by
    rintro s c ⟨⟩
    decide
  have hread : readNumber 10 none true (2^16) (Nat.toDigits 10 port++[]) = some (port,[]) :=
    readNumber_toDigits hport nofun nofun nofun
  have hip : readIpv4Octets (displayV4 a b c d port).toList =
      some ([a,b,c,d],':'::(Nat.toDigits 10 port++[])) := by
    rw [htext]
    simp only [readIpv4Octets, readOctets, readSeparator, readGivenChar, readOctet ha (hdot _),
      readOctet hb (hdot _), readOctet hc (hdot _), readOctet hd (hcolon _), if_true, if_false,
      Nat.reduceAdd, OfNat.ofNat_ne_zero, Option.bind_some, Option.bind_eq_bind,
      one_ne_zero, Option.pure_def]
  have hv4 : readSocketAddrV4 (displayV4 a b c d port).toList =
      some (⟨.v4 (BitVec.ofNat 32 (number 256 [a,b,c,d])),port,0⟩,[]) := by
    simp only [readSocketAddrV4, readIpv4Addr, hip, Option.map_some, readPort, readGivenChar,
      if_true, Option.bind_some, hread, Option.bind_eq_bind, Option.pure_def]
  rw [parse, hv4]
  rfl

end Display
end SocketText
