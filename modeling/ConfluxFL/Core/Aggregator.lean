import ConfluxFL.Proto

/-! Aggregation methods as the round pipeline sees them: a state that lives across rounds, the
signals injected for one round, and the shared decoding and validation of a batch. -/
namespace ConfluxFL

inductive AggregatorError where
  | emptyBatch
  | nonFiniteWeights (clientId : String) (index : ℕ)
  | implausibleSampleCount (clientId : String) (got max : ℕ)
  | mismatchedLength (clientId : String) (expected got : ℕ)
  | malformedWeights (clientId : String) (len : ℕ)
  | missingTrustedReference
  | missingCandidateScores
  | unscoredClient (clientId : String)
  | candidateScoresDimension (expected got : ℕ)
  | trustedReferenceDimension (expected global reference : ℕ)
  | zeroWeightSum
  deriving DecidableEq, Repr

structure TrustedReference where
  globalWeights : List F32
  referenceWeights : List F32

structure CandidateScores where
  globalWeights : List F32
  scores : List (String × F32)

/-- What the server hands to an aggregator for one round. -/
structure Injected where
  reference : Option TrustedReference
  scores : Option CandidateScores

/-- An aggregation method with its cross-round state. A call returns the state it leaves
behind whether or not it succeeds; it may also consume what was injected. `panics` is what a call
that never returns panics with. -/
structure Aggregator (κ : Type) where
  init : κ
  aggregate : κ → Injected → List ClientDelta → Except AggregatorError (List F32) × κ × Injected
  panics : κ → Injected → List ClientDelta → Option String := fun _ _ _ => none
  requiresTrustedReference : Bool
  requiresCandidateScores : Bool
  controlVariate : κ → Option (List F32)

/-- The same method with the calls it panics on. -/
def Aggregator.withPanics {κ : Type} (a : Aggregator κ)
    (panics : κ → Injected → List ClientDelta → Option String) : Aggregator κ :=
  { a with panics := panics }

/-- A method that keeps nothing between rounds and takes nothing from a sidecar. -/
def Aggregator.stateless (f : List ClientDelta → Except AggregatorError (List F32)) :
    Aggregator Unit where
  init := ()
  aggregate _ injected updates := (f updates,(),injected)
  requiresTrustedReference := false
  requiresCandidateScores := false
  controlVariate _ := none

def maxPlausibleSampleCount : ℕ := 2^40

/-- The first refused update of a batch whose weights were decoded, in batch order: all
lengths first, then values and sample counts together. -/
def firstRejection (dim : ℕ) (batch : List (ClientDelta × List F32)) : Option AggregatorError :=
  let byLength := batch.findSome? fun (u,w) =>
    if w.length ≠ dim then some (.mismatchedLength u.clientId dim w.length) else none
  let byValue := batch.findSome? fun (u,w) =>
    match w.findIdx? fun x => !x.isFinite with
    | some index => some (.nonFiniteWeights u.clientId index)
    | none =>
      if maxPlausibleSampleCount < u.numSamples then
        some (.implausibleSampleCount u.clientId u.numSamples maxPlausibleSampleCount)
      else none
  byLength.or byValue

/-- Decode every update, reporting a malformed one by its client. -/
def decodeAll (updates : List ClientDelta) : Except AggregatorError (List (List F32)) :=
  updates.mapM fun u =>
    match decodeWeights u.weights with
    | .ok w => .ok w
    | .error _ => .error (.malformedWeights u.clientId u.weights.length)

def decodeAndValidate (updates : List ClientDelta) : Except AggregatorError (List (List F32)) := do
  let decoded ← decodeAll updates
  match firstRejection (decoded.headD []).length (updates.zip decoded) with
  | some e => .error e
  | none => .ok decoded

/-- Element-wise `acc + src * weight`. -/
def accumulateWeighted (acc src : List F32) (weight : F32) : List F32 :=
  acc.zipWith (fun a s => a+s*weight) src

/-- The average weighted by a number per update. -/
def weightedAverage (weightFor : ClientDelta → F32) (updates : List ClientDelta) :
    Except AggregatorError (List F32) := do
  if updates = [] then .error .emptyBatch
  else
    let decoded ← decodeAndValidate updates
    let raw := updates.map weightFor
    let total := F32.sum raw
    if total.beq F32.zero then .error .zeroWeightSum
    else
      let start := List.replicate (decoded.headD []).length F32.zero
      .ok ((raw.zip decoded).foldl (fun acc (r,w) => accumulateWeighted acc w (r/total)) start)

def fedAvgAggregate (updates : List ClientDelta) : Except AggregatorError (List F32) :=
  weightedAverage (fun u => F32.ofNat u.numSamples) updates

def fedAvg : Aggregator Unit := .stateless fedAvgAggregate

end ConfluxFL
