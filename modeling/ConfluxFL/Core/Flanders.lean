import Mathlib.Data.String.Basic
import ConfluxFL.Lib.KeyedTable
import ConfluxFL.Lib.StableSort
import ConfluxFL.Core.Robust

/-! FLANDERS: forecast every client's update from the rounds before by a matrix autoregression
fitted with alternating least squares, and hand the base method the clients that came closest.
A fit over no coordinates panics. -/
namespace ConfluxFL.Flanders
variable {ν ω : Type} [Floating ν] [Floating ω] [Precision ν ω]
open Precision

section Matrices

/-- A dense matrix by rows. -/
abbrev Matrix (ω : Type) := List (List ω)

def zeroMatrix (rows cols : ℕ) : Matrix ω := List.replicate rows (zeros cols)

def identity (n : ℕ) : Matrix ω :=
  (List.range n).map fun i => (List.range n).map fun j => if i = j then 1 else 0

/-- Row by row; a zero factor is skipped. -/
def matmul (a b : Matrix ω) : Matrix ω :=
  a.map fun row => (List.range b.length).foldl (fun acc p =>
    if Floating.beq (row.getD p 0) 0 then acc
    else acc.zipWith (fun x y => x+row.getD p 0*y) (b.getD p [])) (zeros (b.headD []).length)

def transpose (a : Matrix ω) : Matrix ω :=
  (List.range (a.headD []).length).map fun j => a.map fun row => row.getD j 0

omit [Floating ω] in
def swapRows (a : Matrix ω) (i j : ℕ) : Matrix ω :=
  (a.set i (a.getD j [])).set j (a.getD i [])

/-- Bring the largest candidate of a column to the diagonal, make it one, and clear the column
everywhere else. Columns to the left are not touched; a column without a usable pivot ends the
solve. -/
def eliminateColumn (n : ℕ) (s : Matrix ω × Matrix ω) (col : ℕ) : Option (Matrix ω × Matrix ω) :=
  let candidates := (List.range (n-col)).map fun i =>
    Floating.abs ((s.1.getD (col+i) []).getD col 0)
  let pivot := col+Floating.argMax candidates
  if Floating.lt (Floating.abs ((s.1.getD pivot []).getD col 0)) 1e-12 then none
  else
    let m := swapRows s.1 col pivot
    let rhs := swapRows s.2 col pivot
    let d := (m.getD col []).getD col 0
    let pivotRow := (m.getD col []).take col++((m.getD col []).drop col).map fun x => x/d
    let pivotRhs := (rhs.getD col []).map fun x => x/d
    let factor (row : ℕ) := (m.getD row []).getD col 0
    some (m.mapIdx fun row t =>
        if row = col then pivotRow
        else if Floating.beq (factor row) 0 then t
        else t.take col++(t.drop col).zipWith (fun t p => t-factor row*p) (pivotRow.drop col),
      rhs.mapIdx fun row t =>
        if row = col then pivotRhs
        else if Floating.beq (factor row) 0 then t
        else t.zipWith (fun t p => t-factor row*p) pivotRhs)

/-- Gaussian elimination with partial pivoting. A singular system has no answer. -/
def solve (m rhs : Matrix ω) : Option (Matrix ω) := do
  let n := m.length
  if n = 0 ∨ (m.headD []).length ≠ n ∨ rhs.length ≠ n then none
  else
    let s ← (List.range n).foldlM (eliminateColumn n) (m,rhs)
    if s.2.any fun r => r.any fun v => !Floating.isFinite v then none else some s.2

def addMatrix (a b : Matrix ω) : Matrix ω := a.zipWith (List.zipWith (· + ·)) b

def addRidge (ridge : ω) (a : Matrix ω) : Matrix ω :=
  a.mapIdx fun i row => row.mapIdx fun j x => if i = j then x+ridge else x

def sumOver (pairs : List (Matrix ω × Matrix ω)) (n : ℕ)
    (term : Matrix ω × Matrix ω → Matrix ω) : Matrix ω :=
  pairs.foldl (fun acc p => addMatrix acc (term p)) (zeroMatrix n n)

/-- The left coefficients for given right ones. -/
def fitLeft (ridge : ω) (pairs : List (Matrix ω × Matrix ω)) (d : ℕ) (b : Matrix ω) :
    Option (Matrix ω) := do
  let zzt := sumOver pairs d fun p => matmul (matmul p.1 b) (transpose (matmul p.1 b))
  let yzt := sumOver pairs d fun p => matmul p.2 (transpose (matmul p.1 b))
  let at' ← solve (addRidge ridge zzt) (transpose yzt)
  return transpose at'

/-- The right coefficients for given left ones. -/
def fitRight (ridge : ω) (pairs : List (Matrix ω × Matrix ω)) (h : ℕ) (a : Matrix ω) :
    Option (Matrix ω) :=
  let wtw := sumOver pairs h fun p => matmul (transpose (matmul a p.1)) (matmul a p.1)
  let wty := sumOver pairs h fun p => matmul (transpose (matmul a p.1)) p.2
  solve (addRidge ridge wtw) wty

def finiteMatrix (a : Matrix ω) : Bool := a.all fun row => row.all Floating.isFinite

/-- Alternate between the two sides, from the identity on both. -/
def fitMar (ridge : ω) (iterations : ℕ) (pairs : List (Matrix ω × Matrix ω)) :
    Option (Matrix ω × Matrix ω) := do
  let first := (pairs.map Prod.fst).headD []
  let d := first.length
  let h := (first.headD []).length
  let (a,b) ← (List.range iterations).foldlM (fun (s : Matrix ω × Matrix ω) _ => do
    let a ← fitLeft ridge pairs d s.2
    let b ← fitRight ridge pairs h a
    return (a,b)) (identity d,identity h)
  if finiteMatrix a && finiteMatrix b then some (a,b) else none

end Matrices

/-- At most `limit` coordinates, spread evenly. -/
def forecastCoordinates (dim limit : ℕ) : List ℕ :=
  if dim ≤ limit ∨ limit = 0 then List.range dim
  else (List.range limit).map fun i => i*dim/limit

/-- One round's updates, by client. -/
abbrev Snapshot (ν : Type) := KeyedTable String (List ν)

structure State (ν : Type) where
  history : List (Snapshot ν)
  global : Option (List ν)

section Forecast

/-- The matrix of the sampled coordinates of these clients, one column each; none when one of
them is missing or has another dimension. -/
def observation (snapshot : Snapshot ν) (order : List String) (dim : ℕ) (coords : List ℕ) :
    Option (Matrix ω) := do
  let columns ← order.mapM fun id => (snapshot.lookup id).filter fun w => w.length = dim
  return coords.map fun c => columns.map fun w => widen (w.getD c 0)

/-- The clients of this round that every round of the window has seen, in a fixed order. -/
def commonClients (history : List (Snapshot ν)) (current : Snapshot ν) : List String :=
  StableSort.sortBy id (current.keys.filter fun c => history.all fun s => (s.lookup c).isSome)

/-- The observations of successive rounds that are complete. -/
def forecastPairs (history : List (Snapshot ν)) (order : List String) (dim : ℕ)
    (coords : List ℕ) : List (Matrix ω × Matrix ω) :=
  (history.zip history.tail).filterMap fun p => do
    let x ← observation p.1 order dim coords
    let y ← observation p.2 order dim coords
    return (x,y)

/-- The forecast for every common client, when there are two of them and two rounds to fit. -/
def forecast (history : List (Snapshot ν)) (order : List String) (dim : ℕ) (coords : List ℕ) :
    Option (List (String × List ω)) :=
  if 2 ≤ order.length ∧ 2 ≤ history.length then do
    let pairs := forecastPairs history order dim coords
    if pairs = [] then none
    else
      let (a,b) ← fitMar 1e-6 5 pairs
      let last ← history.getLast?
      let prev ← observation last order dim coords
      let predicted := matmul (matmul a prev) b
      return order.mapIdx fun col id => (id,predicted.map fun row => row.getD col 0)
  else none

/-- A fit starts by reading `pairs[0].0[0]`, which is out of bounds when no coordinate was
observed. -/
def forecastPanics (ω : Type) [Floating ω] [Precision ν ω] (history : List (Snapshot ν))
    (order : List String) (dim : ℕ) (coords : List ℕ) : Option String :=
  if 2 ≤ order.length ∧ 2 ≤ history.length then
    match (forecastPairs history order dim coords : List (Matrix ω × Matrix ω)) with
    | ([],_)::_ => some "index out of bounds: the len is 0 but the index is 0"
    | _ => none
  else none

/-- The squared distance from the forecast over the sampled coordinates, or from the last model
when there is no forecast; nothing to measure against is no distance. -/
def anomalyScore (forecast : Option (List (String × List ω))) (global : Option (List ν))
    (coords : List ℕ) (clientId : String) (w : List ν) : ω :=
  match forecast.bind fun f => (f.find? fun e => e.1 = clientId).map Prod.snd with
  | some prediction => Floating.sum (coords.zipWith (fun c p =>
      (widen (w.getD c 0)-p)*(widen (w.getD c 0)-p)) prediction)
  | none =>
    match global with
    | none => 0
    | some g => Floating.sum (w.zipWith (fun a b => (widen a-widen b)*(widen a-widen b)) g)

/-- How many updates are kept: all of them while there is nothing to rank by. -/
def keptSize (hasSignal : Bool) (m : ℕ) : ℕ :=
  if hasSignal then
    max (m-F64.ceilToNat (F64.ofF32 ⟨0x3e4ccccd⟩*F64.ofNat m)) 1
  else m

/-- The positions with the smallest scores. -/
def lowest (scores : List ω) (k : ℕ) : List ℕ :=
  ((List.range scores.length).insertionSort fun i j =>
    !Floating.lt (scores.getD j 0) (scores.getD i 0)).take k

end Forecast

section Aggregate

def windowLength : ℕ := 5
def maxForecastDim : ℕ := 500

def snapshotOf (batch : List (String × List ν)) : Snapshot ν :=
  batch.foldl (fun s e => s.upsert e.1 e.2) .empty

/-- The updates that are handed to the base method. -/
def keptUpdates (state : State ν) (updates : List ClientDelta) (decoded : List (List ν)) :
    List ClientDelta :=
  let dim := (decoded.headD []).length
  let current := snapshotOf ((updates.map ClientDelta.clientId).zip decoded)
  let coords := forecastCoordinates dim maxForecastDim
  let predicted : Option (List (String × List ω)) :=
    forecast state.history (commonClients state.history current) dim coords
  let scores := updates.zipWith (fun u w =>
    anomalyScore predicted state.global coords u.clientId w) decoded
  let kept := lowest scores
    (keptSize (predicted.isSome || state.global.isSome) updates.length)
  (updates.zipIdx.filter fun e => e.2 ∈ kept).map Prod.fst

/-- What a round over a valid batch panics with. -/
def panics (ω : Type) [Floating ω] [Precision ν ω] (state : State ν) (updates : List ClientDelta) :
    Option String :=
  onBatch (fun _ => none) updates fun decoded =>
    let dim := (decoded.headD []).length
    let current : Snapshot ν :=
      snapshotOf ((updates.map ClientDelta.clientId).zip (embed decoded))
    forecastPanics ω state.history (commonClients state.history current) dim
      (forecastCoordinates dim maxForecastDim)

/-- One round over a base method. The round is remembered only after it succeeded. -/
def aggregate (base : List ClientDelta → Except AggregatorError (List ν)) (state : State ν)
    (updates : List ClientDelta) : Except AggregatorError (List ν) × State ν :=
  onBatch (fun e => (.error e,state)) updates fun decoded =>
    match base (keptUpdates state updates (embed decoded)) with
    | .error e => (.error e,state)
    | .ok result =>
      let current := snapshotOf ((updates.map ClientDelta.clientId).zip (embed decoded))
      let history := state.history++[current]
      (.ok result,⟨history.drop (history.length-windowLength),some result⟩)

/-- How a round ends: refused, with the state left alone; or accepted, with its result as the
model. -/
theorem aggregate_cases (base : List ClientDelta → Except AggregatorError (List ν))
    (state : State ν) (updates : List ClientDelta) :
    (∃ e, aggregate base state updates = (.error e,state)) ∨
      ∃ w history, aggregate base state updates = (.ok w,⟨history,some w⟩) := by
  unfold aggregate
  rcases onBatch_cases (fun e => ((.error e : Except AggregatorError (List ν)),state)) updates _ with
    ⟨e,he⟩ | ⟨decoded,-,-,heq⟩
  · exact .inl ⟨e,he⟩
  · rw [heq]
    split
    · exact .inl ⟨_,rfl⟩
    · exact .inr ⟨_,_,rfl⟩

theorem keptUpdates_subset (state : State ν) (updates : List ClientDelta)
    (decoded : List (List ν)) : keptUpdates state updates decoded ⊆ updates := by
  intro u hu
  obtain ⟨e,he,rfl⟩ := List.mem_map.mp hu
  exact List.fst_mem_of_mem_zipIdx (List.mem_of_mem_filter he)

theorem hasDimension_flanders {base : List ClientDelta → Except AggregatorError (List ν)}
    (hbase : ∀ us w, base us = .ok w → HasDimension us w.length) {state : State ν}
    {updates : List ClientDelta} {out : List ν}
    (h : (aggregate base state updates).1 = .ok out) : HasDimension updates out.length := by
  obtain ⟨decoded,_,hdim,h⟩ := onBatch_fst_ok h
  split at h
  · cases h
  · rename_i result hresult
    cases h
    rwa [hdim.subset (hbase _ _ hresult) (keptUpdates_subset state updates _)]

end Aggregate
end ConfluxFL.Flanders
