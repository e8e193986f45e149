import ConfluxFL.Core.Robust
import ConfluxFL.Lib.Calls

/-! The adaptive attacker, in any arithmetic: it remembers the honest batch of the round before,
works out what a plain average would have made of it and its own updates, and pushes harder or
retreats as the round's result compares with that. Updates carry their weights decoded. -/
namespace ConfluxFL.Attacks

/-- A client's update with its weights as values of the arithmetic at hand. -/
structure Submission (ν : Type) where
  clientId : String
  round : ℕ
  numSamples : ℕ
  weights : List ν

/-- What an accepted update decodes to. -/
def Submission.ofDelta (u : ClientDelta) : Submission F32 :=
  ⟨u.clientId,u.round,u.numSamples,words u.weights⟩

variable {ν : Type} [Floating ν]

section Average

def dimension (updates : List (Submission ν)) : ℕ :=
  (updates.head?.map fun u => u.weights.length).getD 0

/-- The first refused update of a batch: all lengths first, then values and sample counts. -/
def rejection (updates : List (Submission ν)) : Option AggregatorError :=
  let byLength := updates.findSome? fun u =>
    if u.weights.length ≠ dimension updates then
      some (.mismatchedLength u.clientId (dimension updates) u.weights.length)
    else none
  let byValue := updates.findSome? fun u =>
    match u.weights.findIdx? fun x => !Floating.isFinite x with
    | some index => some (.nonFiniteWeights u.clientId index)
    | none =>
      if maxPlausibleSampleCount < u.numSamples then
        some (.implausibleSampleCount u.clientId u.numSamples maxPlausibleSampleCount)
      else none
  byLength.or byValue

/-- FedAvg on decoded updates. -/
def fedAvg (updates : List (Submission ν)) : Except AggregatorError (List ν) :=
  if updates.isEmpty then .error .emptyBatch
  else
    match rejection updates with
    | some e => .error e
    | none =>
      let total : ν := Floating.sum (updates.map fun u => Floating.ofNat u.numSamples)
      if Floating.beq total 0 then .error .zeroWeightSum
      else .ok (updates.foldl (fun acc u =>
        addScaled acc u.weights (Floating.ofNat u.numSamples/total)) (zeros (dimension updates)))

end Average

def l2Norm (v : List ν) : ν := Floating.sqrt (Floating.sum (v.map fun x => x*x))

/-- `mean += weight * w`, as far as both reach. -/
def addWeighted (mean w : List ν) (weight : ν) : List ν :=
  mean.zipWith (fun m x => m+weight*x) w++mean.drop w.length

/-- Sample-count-weighted mean and total weight of a batch. -/
def weightedMeanAndWeight (updates : List (Submission ν)) : List ν × ν :=
  let sums := updates.foldl (fun (s : List ν × ν) u =>
    (addWeighted s.1 u.weights (Floating.ofNat u.numSamples),s.2+Floating.ofNat u.numSamples))
    (zeros (dimension updates),0)
  (if Floating.lt 0 sums.2 then sums.1.map fun m => m/sums.2 else sums.1,sums.2)

/-- What a previous round did with the attacker's submission. -/
structure RoundFeedback (ν : Type) where
  previousSubmission : List ν
  previousAggregate : List ν

structure AdaptiveEvasionAttack (ν : Type) where
  direction : List ν
  escalationFactor : ν
  retreatFactor : ν
  suppressionMargin : ν

/-- The default rates. -/
def AdaptiveEvasionAttack.new (direction : List ν) : AdaptiveEvasionAttack ν :=
  ⟨direction,1.2,0.5,0.15⟩

/-- What the attacker keeps between rounds. -/
structure Memory (ν : Type) where
  currentMagnitude : ν
  lastHonestMeanAndWeight : Option (List ν × ν)

/-- What it does to its magnitude on feedback. -/
inductive Reaction where
  | escalate
  | retreat
  deriving DecidableEq, Repr

section Craft
variable (attack : AdaptiveEvasionAttack ν)

/-- Compare how far the result is from the submission with how far a plain average of the
remembered batch would be, at this round's counts. -/
def react (last : List ν × ν) (honestCount numAttackers : ℕ) (fb : RoundFeedback ν) : Reaction :=
  let submissionNorm := Floating.max (l2Norm fb.previousSubmission) 1e-6
  let actual := Robust.l2Distance fb.previousAggregate fb.previousSubmission/submissionNorm
  let attackerWeight := last.2*Floating.ofNat numAttackers/Floating.ofNat (max honestCount 1)
  let total := last.2+attackerWeight
  let expected := last.1.zipWith (fun h s => (last.2*h+attackerWeight*s)/total)
    fb.previousSubmission
  let expectedFraction := Robust.l2Distance expected fb.previousSubmission/submissionNorm
  if Floating.le actual (expectedFraction+attack.suppressionMargin) then .escalate else .retreat

def applyReaction (magnitude : ν) : Option Reaction → ν
  | none => magnitude
  | some .escalate => magnitude*attack.escalationFactor
  | some .retreat => magnitude*attack.retreatFactor

/-- Without attackers nothing happens at all; feedback needs a remembered batch to be read. -/
def reaction (memory : Memory ν) (honest : List (Submission ν)) (numAttackers : ℕ)
    (feedback : Option (RoundFeedback ν)) : Option Reaction :=
  if numAttackers = 0 then none
  else
    match feedback,memory.lastHonestMeanAndWeight with
    | some fb,some last => some (react attack last honest.length numAttackers fb)
    | _,_ => none

/-- Every attacker reports the honest batch's first round and sample count. The source stops on an
empty honest batch. -/
def roundAndSamples (honest : List (Submission ν)) : ℕ × ℕ :=
  (honest.head?.map fun u => (u.round,u.numSamples)).getD (0,0)

/-- The attackers' updates at a magnitude. -/
def crafted (magnitude : ν) (honest : List (Submission ν)) (numAttackers : ℕ) :
    List (Submission ν) :=
  (List.range numAttackers).map fun i => ⟨"adaptive-attacker-"++toString i,
    (roundAndSamples honest).1,(roundAndSamples honest).2,attack.direction.map fun d => d*magnitude⟩

/-- The attackers' updates for a round, and what is kept of it. -/
def craftAdaptive (memory : Memory ν) (honest : List (Submission ν)) (numAttackers : ℕ)
    (feedback : Option (RoundFeedback ν)) : List (Submission ν) × Memory ν :=
  if numAttackers = 0 then ([],memory)
  else
    let magnitude := applyReaction attack memory.currentMagnitude
      (reaction attack memory honest numAttackers feedback)
    (crafted attack magnitude honest numAttackers,⟨magnitude,some (weightedMeanAndWeight honest)⟩)

end Craft

/-- One round against FedAvg. -/
structure Round (ν : Type) where
  honest : List (Submission ν)
  honest_ne : honest ≠ []
  numAttackers : ℕ

/-- What FedAvg made of a round is the feedback for the next, when there were attackers to submit
something and FedAvg had an average. -/
def feedbackOf (honest submitted : List (Submission ν)) : Option (RoundFeedback ν) :=
  match submitted.head?,fedAvg (honest++submitted) with
  | some u,.ok aggregate => some ⟨u.weights,aggregate⟩
  | _,_ => none

section Runs
variable (attack : AdaptiveEvasionAttack ν)

/-- A round of a run: the answer is what the attacker did to its magnitude. -/
def playRound (s : Memory ν × Option (RoundFeedback ν)) (r : Round ν) :
    Option Reaction × Memory ν × Option (RoundFeedback ν) :=
  let (submitted,memory) := craftAdaptive attack s.1 r.honest r.numAttackers s.2
  (reaction attack s.1 r.honest r.numAttackers s.2,memory,feedbackOf r.honest submitted)

def start (magnitude : ν) : Memory ν × Option (RoundFeedback ν) := (⟨magnitude,none⟩,none)

/-- What the attacker did to its magnitude, round by round. -/
def reactions (magnitude : ν) (rounds : List (Round ν)) : List (Option Reaction) :=
  Calls.answers (playRound attack) (start magnitude) rounds

/-- The magnitude is never multiplied by the retreat factor. -/
def NeverRetreats (magnitude : ν) (rounds : List (Round ν)) : Prop :=
  some .retreat ∉ reactions attack magnitude rounds

instance (magnitude : ν) (rounds : List (Round ν)) :
    Decidable (NeverRetreats attack magnitude rounds) :=
  inferInstanceAs (Decidable (_ ∉ _))

end Runs

section Wire
variable {updates : List ClientDelta}

theorem dimension_ofDelta (updates : List ClientDelta) : dimension (updates.map Submission.ofDelta) =
    ((updates.map fun u => words u.weights).headD []).length := by
  cases updates <;> rfl

theorem rejection_ofDelta (updates : List ClientDelta) : rejection (updates.map Submission.ofDelta) =
    firstRejection ((updates.map fun u => words u.weights).headD []).length
      (updates.zip (updates.map fun u => words u.weights)) := by
  have hzip : updates.zip (updates.map fun u => words u.weights) =
      updates.map fun u => (u,words u.weights) := by
    simpa using List.zip_map' (f := id) (g := fun u : ClientDelta => words u.weights) (l := updates)
  unfold rejection firstRejection
  rw [hzip, dimension_ofDelta]
  simp only [List.findSome?_map]
  rfl

/-- On decoded updates of the wire it is the catalog's FedAvg. -/
theorem fedAvg_ofDelta (h : ∀ u ∈ updates, decodeWeights u.weights = .ok (words u.weights)) :
    fedAvg (updates.map Submission.ofDelta) = fedAvgAggregate updates := by
  have hall : decodeAll updates = .ok (updates.map fun u => words u.weights) :=
    Fallible.mapM_ok fun u hu => by rw [h u hu]
  unfold fedAvg fedAvgAggregate weightedAverage decodeAndValidate
  rw [hall, rejection_ofDelta, dimension_ofDelta, Fallible.ok_bind]
  by_cases hne : updates = []
  · rw [hne]
    rfl
  · rw [if_neg (by simpa using hne), if_neg hne]
    cases firstRejection ((updates.map fun u => words u.weights).headD []).length
      (updates.zip (updates.map fun u => words u.weights)) with
    | some e => rfl
    | none =>
      dsimp only
      rw [Fallible.ok_bind, List.map_map, List.zip_map', List.foldl_map, List.foldl_map]
      rfl

end Wire
end ConfluxFL.Attacks
