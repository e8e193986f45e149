import ConfluxFL.Lib.F32

/-! Clipping and noising of one update. The Gaussian draws a transform consumes are an
argument: entry `i` of `noise` is the sample added to weight `i`. -/
namespace ConfluxFL

def l2Norm (weights : List F32) : F32 := (F32.sum (weights.map fun w => w*w)).sqrt

structure GaussianClippingPrivacy where
  clipNorm : F32
  noiseMultiplier : F32
  deriving DecidableEq, Repr

namespace GaussianClippingPrivacy
variable (m : GaussianClippingPrivacy)

/-- Scale an update down to the clipping norm when it exceeds it. -/
def clip (weights : List F32) : List F32 :=
  let norm := l2Norm weights
  if m.clipNorm.lt norm && F32.zero.lt norm then
    weights.map fun w => w*(m.clipNorm/norm)
  else weights

/-- The standard deviation is positive; a zero, negative or NaN product draws nothing. -/
def noisy : Bool := F32.zero.lt (m.noiseMultiplier*m.clipNorm)

def addNoise (noise : ℕ → F32) (weights : List F32) : List F32 :=
  if m.noisy then weights.mapIdx fun i w => w+noise i else weights

def transform (noise : ℕ → F32) (weights : List F32) : List F32 := m.addNoise noise (m.clip weights)

theorem length_clip (weights : List F32) : (m.clip weights).length = weights.length := by
  simp only [clip]
  split <;> simp

theorem length_transform (noise : ℕ → F32) (weights : List F32) :
    (m.transform noise weights).length = weights.length := by
  unfold transform addNoise
  split <;> simp [length_clip]

theorem transform_of_not_noisy (h : m.noisy = false) (noise : ℕ → F32) (weights : List F32) :
    m.transform noise weights = m.clip weights := by
  simp [transform, addNoise, h]

/-- How many draws the transform consumes: one for each weight it adds noise to. -/
def draws (weights : List F32) : ℕ := if m.noisy then weights.length else 0

/-- The transform depends on the draws it consumes, and on no others. -/
theorem transform_congr {noise noise' : ℕ → F32} {weights : List F32}
    (h : ∀ k < m.draws weights, noise k = noise' k) :
    m.transform noise weights = m.transform noise' weights := by
  cases hn : m.noisy with
  | false => rw [m.transform_of_not_noisy hn, m.transform_of_not_noisy hn]
  | true =>
    rw [draws, if_pos hn] at h
    rw [transform, transform, addNoise, addNoise, if_pos hn, if_pos hn]
    refine List.ext_getElem (by simp) fun k hk _ => ?_
    rw [List.length_mapIdx, length_clip] at hk
    rw [List.getElem_mapIdx, List.getElem_mapIdx, h k hk]

end GaussianClippingPrivacy
end ConfluxFL
