import ConfluxFL.Lib.F32

/-! The demo clients, as far as their scores go: what a global model is worth on features that no
client trained on. -/
namespace ConfluxFL

structure DemoScore where
  label : String
  value : F32
  deriving DecidableEq, Repr

/-- A small deterministic generator; its arithmetic wraps. -/
structure Lcg where
  state : UInt64

namespace Lcg

def new (seed : UInt64) : Lcg := ⟨seed*6364136223846793005+1⟩

/-- The next value, uniform in `[-1, 1)`. -/
def next (rng : Lcg) : F32 × Lcg :=
  let state := rng.state*6364136223846793005+1442695040888963407
  (F32.ofNat (state >>> 33).toNat/F32.ofNat (2^30)-F32.one,⟨state⟩)

end Lcg

namespace Demo

abbrev Features := F32 × F32 × F32

/-- A linear model with three weights and a bias. -/
def linear (w₀ w₁ w₂ b : F32) (x : Features) : F32 := w₀*x.1+w₁*x.2.1+w₂*x.2.2+b

/-- The model the regressions are to recover: weights 1.5, -2 and 0.5, and a bias of 3. -/
def truth : Features → F32 := linear ⟨0x3fc00000⟩ ⟨0xc0000000⟩ ⟨0x3f000000⟩ ⟨0x40400000⟩

def drawFeatures : ℕ → Lcg → List Features
  | 0, _ => []
  | n+1, rng =>
    let (a,rng) := rng.next
    let (b,rng) := rng.next
    let (c,rng) := rng.next
    (a*⟨0x40000000⟩,b*⟨0x40000000⟩,c*⟨0x40000000⟩)::drawFeatures n rng

/-- Features drawn with every coordinate varying. -/
def heldOut : List Features := drawFeatures 400 (Lcg.new 9999)

/-- A model with fewer than four parameters is indexed out of range, and the process panics. -/
def linregScore : List F32 → Option DemoScore
  | p₀::p₁::p₂::p₃::_ =>
    let square x := (linear p₀ p₁ p₂ p₃ x-truth x)*(linear p₀ p₁ p₂ p₃ x-truth x)
    some ⟨"held-out MSE",F32.sum (heldOut.map square)/F32.ofNat heldOut.length⟩
  | _ => none

def logregScore : List F32 → Option DemoScore
  | p₀::p₁::p₂::p₃::_ =>
    let correct := heldOut.countP fun x =>
      F32.lt ⟨0x40400000⟩ (truth x) == F32.zero.lt (linear p₀ p₁ p₂ p₃ x)
    some ⟨"held-out accuracy",F32.ofNat correct/F32.ofNat heldOut.length⟩
  | _ => none

end Demo

inductive DemoModel where
  | stub
  | linreg
  | logreg
  deriving DecidableEq, Repr

namespace DemoModel

def name : DemoModel → String
  | .stub => "stub"
  | .linreg => "linreg"
  | .logreg => "logreg"

def weightsDim : DemoModel → UInt64
  | .stub | .linreg | .logreg => 4

/-- How a global model is scored, by a model that has a score. -/
def score : DemoModel → Option (List F32 → Option DemoScore)
  | .stub => none
  | .linreg => some Demo.linregScore
  | .logreg => some Demo.logregScore

end DemoModel
end ConfluxFL
