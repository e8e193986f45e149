import ConfluxFL.Core.Aggregator
import ConfluxFL.Config.Preconditions
import Mathlib.Data.List.Sort

/-! Krum: keep the one update whose nearest neighbours are closest, and average what was kept. -/
namespace ConfluxFL

def l2Distance (a b : List F32) : F32 :=
  (F32.sum (a.zipWith (fun x y => (x-y)*(x-y)) b)).sqrt

/-- The symmetric matrix of pairwise distances, zero on the diagonal. -/
def distance (decoded : List (List F32)) (i j : ℕ) : F32 :=
  if i = j then F32.zero
  else l2Distance (decoded.getD (min i j) []) (decoded.getD (max i j) [])

/-- How many Byzantine updates a method assumes in a batch of `n`; the batch requirement
counts with the same rule. -/
def byzantineCount (byzantineFraction : F32) (n : ℕ) : ℕ := excludedAt byzantineFraction n

def sortValues (xs : List F32) : List F32 := xs.insertionSort fun a b => a.le b = true

/-- The squared distances from update `i` to its nearest neighbours, summed. -/
def krumScore (decoded : List (List F32)) (neighbors i : ℕ) : F32 :=
  let dists := ((List.range decoded.length).filter fun j => j ≠ i).map fun j =>
    distance decoded i j*distance decoded i j
  F32.sum ((sortValues dists).take neighbors)

def krumScores (byzantineFraction : F32) (updates : List ClientDelta) :
    Except AggregatorError (List F32) := do
  let decoded ← decodeAndValidate updates
  let n := updates.length
  let neighbors := min (max (n-(byzantineCount byzantineFraction n+2)) 1) (max (n-1) 1)
  return (List.range n).map (krumScore decoded neighbors)

/-- The first index with the least value. -/
def argMin (scores : List F32) : ℕ :=
  (List.range scores.length).foldl
    (fun best i => if (scores.getD i F32.zero).lt (scores.getD best F32.zero) then i else best) 0

def krumFilter (byzantineFraction : F32) (updates : List ClientDelta) :
    Except AggregatorError (List ℕ) := do
  let scores ← krumScores byzantineFraction updates
  return [argMin scores]

/-- A filter in front of another method; an empty selection is an empty batch. -/
def filteredAggregate (select : List ClientDelta → Except AggregatorError (List ℕ))
    (combine : List ClientDelta → Except AggregatorError (List F32))
    (updates : List ClientDelta) : Except AggregatorError (List F32) := do
  if updates = [] then .error .emptyBatch
  else
    let selected ← select updates
    if selected = [] then .error .emptyBatch
    else combine (selected.filterMap fun i => updates[i]?)

def krum (byzantineFraction : F32) : Aggregator Unit :=
  .stateless (filteredAggregate (krumFilter byzantineFraction) fedAvgAggregate)

end ConfluxFL
