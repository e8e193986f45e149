import ConfluxFL.Core.Euclid
import ConfluxFL.Lib.Extended
import ConfluxFL.Lib.GradientDescent

/-! The trusted reference of a linear task: full-batch gradient descent on a fixed dataset, in the
wider type, narrowed at the end. Then the same descent in exact arithmetic, where only narrowing
knows the finite range. -/
namespace ConfluxFL.Reference
open Precision

structure LinearLeastSquares (ν : Type) where
  dataset : List (List ν × ν)
  learningRate : ν
  steps : ℕ

namespace LinearLeastSquares
variable {ν ω : Type} [Floating ω] [Precision ν ω] (model : LinearLeastSquares ν)

/-- Every trusted example has exactly `dim` features. -/
def fits (dim : ℕ) : Bool := model.dataset.all fun e => e.1.length == dim

/-- How far a prediction is off its target. -/
def residual (e : List ν × ν) (weights : List ω) : ω :=
  Floating.sum (e.1.zipWith (fun x w => widen x*w) weights)-widen e.2

/-- Mean squared error over the dataset. -/
def loss (weights : List ν) : ω :=
  if model.dataset.isEmpty then 0
  else model.dataset.foldl (fun total e =>
    total+residual e (weights.map widen)*residual e (weights.map widen)) 0/
      Floating.ofNat model.dataset.length

def gradient (weights : List ω) : List ω :=
  model.dataset.foldl (fun g e => g.zipWith (fun g x =>
    g+(2.0 : ω)*residual e weights*widen x/Floating.ofNat model.dataset.length) e.1) (zeros weights.length)

def gradientStep (weights : List ω) : List ω :=
  weights.zipWith (fun w g => w-widen model.learningRate*g) (model.gradient weights)

/-- The steps, up to an iterate that is not finite. -/
def descend : ℕ → List ω → Option (List ω)
  | 0, weights => some weights
  | steps+1, weights =>
    let next := model.gradientStep weights
    if next.any fun w => !Floating.isFinite w then none else descend steps next

/-- The input comes back when nothing can be trained on, or when an iterate is not finite. -/
def trainReference (globalWeights : List ν) : List ν :=
  if model.dataset.isEmpty || !model.fits globalWeights.length then globalWeights
  else
    match model.descend model.steps (globalWeights.map widen) with
    | none => globalWeights
    | some weights => weights.map narrow

end LinearLeastSquares

section Exact

/-- Where narrowing begins to give infinities: half a step above the largest finite value. -/
noncomputable def overflowBound : ℝ := (2^128-2^103 : ℕ)

open Classical in
/-- Exact values, and infinities beyond the finite range of the stored type. -/
noncomputable instance : Precision EReal ℝ where
  widen := EReal.toReal
  narrow x := if |x| < overflowBound then (x : EReal) else if 0 < x then ⊤ else ⊥

theorem narrow_of_lt {x : ℝ} (h : |x| < overflowBound) : (narrow x : EReal) = x := if_pos h

theorem narrow_finite_iff {x : ℝ} : (narrow x : EReal) ≠ ⊤ ∧ (narrow x : EReal) ≠ ⊥ ↔
    |x| < overflowBound := by
  constructor
  · intro h
    by_contra hlarge
    by_cases hpos : 0 < x
    · exact h.1 ((if_neg hlarge).trans (if_pos hpos))
    · exact h.2 ((if_neg hlarge).trans (if_neg hpos))
  · intro h
    rw [narrow_of_lt h]
    exact ⟨EReal.coe_ne_top x,EReal.coe_ne_bot x⟩

/-- Values as stored ones. -/
noncomputable def stored (v : List ℝ) : List EReal := v.map (↑)

/-- A model over a dataset of finite values. -/
noncomputable def exactModel (dataset : List (List ℝ × ℝ)) (learningRate : ℝ) (steps : ℕ) :
    LinearLeastSquares EReal :=
  ⟨dataset.map fun e => (stored e.1,(e.2 : EReal)),learningRate,steps⟩

/-- A reference the trust scores can be computed against: a vector of the input's length with only
finite entries that is no worse on the trusted data than the input. -/
structure Sound (model : LinearLeastSquares EReal) (globalWeights : List EReal) : Prop where
  length_eq : (model.trainReference globalWeights).length = globalWeights.length
  finite : ∀ x ∈ model.trainReference globalWeights, x ≠ ⊤ ∧ x ≠ ⊥
  loss_le : model.loss (model.trainReference globalWeights) ≤ model.loss globalWeights

end Exact
end ConfluxFL.Reference
