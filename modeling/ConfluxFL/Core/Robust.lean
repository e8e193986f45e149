import ConfluxFL.Lib.Run
import ConfluxFL.Core.Krum
import ConfluxFL.Core.Vectors

/-! The Byzantine-resilient methods in any arithmetic. A filter picks whole updates for another
method to combine; a statistic combines one coordinate at a time; the geometric median combines
the vectors themselves. Where the source panics on a comparison with a NaN, the plain definitions
go on; the filter that a valid batch can bring to it has a checked form beside it. -/
namespace ConfluxFL.Robust
variable {ν : Type} [Floating ν]

def l2Distance (a b : List ν) : ν :=
  Floating.sqrt (Floating.sum (a.zipWith (fun x y => (x-y)*(x-y)) b))

/-- The symmetric matrix of pairwise distances, zero on the diagonal. -/
def distance (decoded : List (List ν)) (i j : ℕ) : ν :=
  if i = j then 0 else l2Distance (decoded.getD (min i j) []) (decoded.getD (max i j) [])

/-- The squared distances from update `i` to its nearest neighbours, summed. -/
def krumScore (decoded : List (List ν)) (neighbors i : ℕ) : ν :=
  let dists := ((List.range decoded.length).filter fun j => j ≠ i).map fun j =>
    distance decoded i j*distance decoded i j
  Floating.sum ((Floating.sortBy id dists).take neighbors)

def krumScores (byzantineFraction : F32) (updates : List ClientDelta) :
    Except AggregatorError (List ν) := do
  let decoded ← decodeAndValidate updates
  let n := updates.length
  let neighbors := min (max (n-(byzantineCount byzantineFraction n+2)) 1) (max (n-1) 1)
  return (List.range n).map (krumScore (embed decoded) neighbors)

section Filters
variable (ν) (byzantineFraction : F32) (updates : List ClientDelta)

/-- The update with the least score. -/
def krumFilter : Except AggregatorError (List ℕ) := do
  let scores : List ν ← krumScores byzantineFraction updates
  return [Floating.argMin scores]

/-- All but as many updates as are assumed Byzantine, by score, in batch order. -/
def multiKrumFilter : Except AggregatorError (List ℕ) := do
  let scores : List ν ← krumScores byzantineFraction updates
  let n := updates.length
  let m := max (n-byzantineCount byzantineFraction n) 1
  let ranked := Floating.sortBy (fun i => scores.getD i 0) (List.range n)
  return (ranked.take m).insertionSort (· ≤ ·)

variable {ν} in
/-- Drop the update farthest from the mean of those that are left. -/
def fabaStep (decoded : List (List ν)) (remaining : List ℕ) : Option (List ℕ) :=
  if remaining.length ≤ 1 then none
  else
    let rows := remaining.map fun i => decoded.getD i []
    let mean := sharedMean (rows.headD []).length rows
    some (remaining.eraseIdx (Floating.argMax (rows.map fun w => l2Distance w mean)))

def fabaFilter : Except AggregatorError (List ℕ) := do
  let decoded ← decodeAndValidate updates
  let n := decoded.length
  let remaining := Run.bounded (fabaStep (embed decoded : List (List ν)))
    (byzantineCount byzantineFraction n) (List.range n)
  return remaining.insertionSort (· ≤ ·)

/-- Move the best update of the pool to the selection until there are `theta`. Every turn
shrinks the pool, so its size bounds the turns. -/
def bulyanLoop (theta : ℕ) : ℕ → List ℕ → List ℕ → Except AggregatorError (List ℕ × List ℕ)
  | 0, remaining, selected => .ok (remaining,selected)
  | fuel+1, remaining, selected =>
    if selected.length < theta ∧ 1 < remaining.length then do
      let pool := remaining.filterMap fun i => updates[i]?
      let scores : List ν ← krumScores byzantineFraction pool
      let best := Floating.argMin scores
      bulyanLoop theta fuel (remaining.eraseIdx best) (selected++[remaining.getD best 0])
    else .ok (remaining,selected)

def bulyanFilter : Except AggregatorError (List ℕ) := do
  let n := updates.length
  let theta := max (n-2*byzantineCount byzantineFraction n) 1
  let (remaining,selected) ← bulyanLoop ν byzantineFraction updates theta n (List.range n) []
  let selected := if selected.length < theta then selected++remaining else selected
  return selected.insertionSort (· ≤ ·)

variable {ν}

def dot (a b : List ν) : ν := Floating.sum (a.zipWith (· * ·) b)

/-- One power iteration; it breaks off when the updates are all alike. -/
def powerStep (centered : List (List ν)) (v : List ν) : Option (List ν) :=
  let next := centered.foldl
    (fun acc row => acc.zipWith (fun n r => n+dot row v*r) row) (zeros v.length)
  let norm := Floating.sqrt (dot next next)
  if Floating.lt 1e-12 norm then some (next.map fun n => n/norm) else none

def topSingularVector (centered : List (List ν)) (iterations : ℕ) : List ν :=
  let dim := (centered.headD []).length
  Run.bounded (powerStep centered) iterations
    (List.replicate dim (1/Floating.sqrt (Floating.ofNat dim)))

variable (ν)

/-- Drop the updates that stand out most along the batch's main direction. -/
def divideAndConquerFilter : Except AggregatorError (List ℕ) := do
  let decoded ← decodeAndValidate updates
  let n := decoded.length
  let f := byzantineCount byzantineFraction n
  if f = 0 then return List.range n
  else
    let rows : List (List ν) := embed decoded
    let mean := sharedMean (rows.headD []).length rows
    let centered := rows.map fun row => row.zipWith (· - ·) mean
    let v := topSingularVector centered 30
    let score i := dot (centered.getD i []) v*dot (centered.getD i []) v
    let ranked := (List.range n).insertionSort fun a b => Floating.le (score b) (score a) = true
    return (List.range n).filter fun i => i ∉ ranked.take f

variable {ν}

/-- The rows less their mean. -/
def centeredRows (rows : List (List ν)) : List (List ν) :=
  let mean := sharedMean (rows.headD []).length rows
  rows.map fun row => row.zipWith (· - ·) mean

/-- The squared projections of the centered rows onto their main direction. -/
def projections (iterations : ℕ) (rows : List (List ν)) : List ν :=
  let centered := centeredRows rows
  let v := topSingularVector centered iterations
  centered.map fun row => dot row v*dot row v

end Filters

/-- How a filter ends without a selection. -/
inductive FilterStop where
  | error (e : AggregatorError)
  | panic (message : String)
  deriving DecidableEq, Repr

/-- What a call of the source's fallible functions passes on. -/
def passOn {α : Type} (r : Except AggregatorError α) : Except FilterStop α := r.mapError .error

/-- Comparing the values of a list with each other. -/
def expectNumbers (message : String) (values : List ν) : Except FilterStop Unit :=
  if 1 < values.length ∧ values.any Floating.isNaN then .error (.panic message) else .ok ()

/-- Divide-and-conquer with a number of power iterations. -/
def divideAndConquerFilterChecked (ν : Type) [Floating ν] (byzantineFraction : F32)
    (updates : List ClientDelta) (iterations : ℕ) : Except FilterStop (List ℕ) := do
  let decoded ← passOn (decodeAndValidate updates)
  let n := decoded.length
  let f := byzantineCount byzantineFraction n
  if f = 0 then return List.range n
  else
    let scores := projections iterations (embed decoded : List (List ν))
    expectNumbers "scores are never NaN" scores
    let ranked := (List.range n).insertionSort fun a b =>
      Floating.le (scores.getD b 0) (scores.getD a 0) = true
    return (List.range n).filter fun i => i ∉ ranked.take f

/-- The panic of a filter that ends with one. -/
def panicOf {α : Type} : Except FilterStop α → Option String
  | .error (.panic message) => some message
  | _ => none

/-- A filter in front of another method; an empty selection is an empty batch. -/
def filtered (select : List ClientDelta → Except AggregatorError (List ℕ))
    (combine : List ClientDelta → Except AggregatorError (List ν))
    (updates : List ClientDelta) : Except AggregatorError (List ν) := do
  if updates = [] then .error .emptyBatch
  else
    let selected ← select updates
    if selected = [] then .error .emptyBatch
    else combine (selected.filterMap fun i => updates[i]?)

/-- Combine one coordinate at a time across the batch. -/
def coordinateWise (combine : List ν → ν) (updates : List ClientDelta) :
    Except AggregatorError (List ν) :=
  onBatch .error updates fun decoded =>
    .ok ((List.range (decoded.headD []).length).map fun k =>
      combine ((embed decoded).map fun w => w.getD k 0))

section Statistics

def mean (values : List ν) : ν := Floating.sum values/Floating.ofNat values.length

/-- The mean of what is left after as many values as are assumed Byzantine are cut off at both
ends; at least one value is kept. -/
def trimmedMean (byzantineFraction : F32) (values : List ν) : ν :=
  let n := values.length
  let trim := min (byzantineCount byzantineFraction n) ((n-1)/2)
  mean (((Floating.sortBy id values).drop trim).take (n-trim-trim))

def median (values : List ν) : ν :=
  let sorted := Floating.sortBy id values
  let n := values.length
  if n % 2 = 1 then sorted.getD (n/2) 0 else (sorted.getD (n/2-1) 0+sorted.getD (n/2) 0)/2.0

/-- Consecutive groups of `size`; the last may be smaller. -/
def chunks {α : Type} (size : ℕ) (xs : List α) : List (List α) :=
  (List.range ((xs.length+size-1)/size)).map fun i => (xs.drop (i*size)).take size

/-- The median of the means of consecutive pairs. -/
def medianOfMeans (values : List ν) : ν := median ((chunks 2 values).map mean)

end Statistics

section GeometricMedian

/-- The sum of the rows by their normalized weights. -/
def normalizedSum (dim : ℕ) (weighted : List (ν × List ν)) (total : ν) : List ν :=
  weighted.foldl (fun acc p => acc.zipWith (fun e x => e+p.1/total*x) p.2) (zeros dim)

/-- One reweighting by inverse distance; without a direction to step in the estimate is held. -/
def weiszfeldStep (weighted : List (ν × List ν)) (estimate : List ν) : Option (List ν) :=
  let inverse := weighted.map fun p => p.1/Floating.max (l2Distance p.2 estimate) 1e-6
  let total := Floating.sum inverse
  if Floating.le total 0 || !Floating.isFinite total then none
  else some (normalizedSum estimate.length (inverse.zip (weighted.map Prod.snd)) total)

/-- Eight steps from the weighted mean. -/
def geometricMedian (weighted : List (ν × List ν)) : List ν :=
  let dim := ((weighted.map Prod.snd).headD []).length
  let total := Floating.sum (weighted.map Prod.fst)
  let start := if Floating.lt 0 total then normalizedSum dim weighted total else zeros dim
  Run.bounded (weiszfeldStep weighted) 8 start

def geometricMedianAggregate (updates : List ClientDelta) : Except AggregatorError (List ν) :=
  onBatch .error updates fun decoded =>
    .ok (geometricMedian ((updates.map fun u => Floating.ofNat u.numSamples).zip (embed decoded)))

end GeometricMedian

section Termination

theorem argMin_lt {xs : List ν} {n : ℕ} (hn : 0 < n) (h : xs.length ≤ n) :
    Floating.argMin xs < n := by
  refine List.foldlRecOn (List.range xs.length) _ (motive := fun best => best < n) hn
    fun best hbest i hi => ?_
  split
  · exact (List.mem_range.mp hi).trans_le h
  · exact hbest

theorem length_krumScores {byzantineFraction : F32} {updates : List ClientDelta}
    {scores : List ν} (h : krumScores byzantineFraction updates = .ok scores) :
    scores.length = updates.length := by
  obtain ⟨decoded,_,h⟩ := Fallible.except_bind_ok_iff.mp h
  cases h
  rw [List.length_map, List.length_range]

/-- As many turns as the pool is large are enough: Bulyan's loop ends because it is done. -/
theorem bulyanLoop_done {byzantineFraction : F32} {updates : List ClientDelta} {theta fuel : ℕ}
    {remaining selected r s : List ℕ} (hfuel : remaining.length ≤ fuel)
    (h : bulyanLoop ν byzantineFraction updates theta fuel remaining selected = .ok (r,s)) :
    ¬(s.length < theta ∧ 1 < r.length) := by
  induction fuel generalizing remaining selected with
  | zero =>
    cases h
    omega
  | succ fuel ih =>
    rw [bulyanLoop] at h
    split_ifs at h with hturn
    · obtain ⟨scores,hscores,h⟩ := Fallible.except_bind_ok_iff.mp h
      have hlen : scores.length ≤ remaining.length := by
        rw [length_krumScores hscores]
        exact List.length_filterMap_le _ _
      have hbest := argMin_lt (Nat.zero_lt_of_lt hturn.2) hlen
      refine ih ?_ h
      rw [List.length_eraseIdx_of_lt hbest]
      omega
    · cases h
      exact hturn

end Termination

section Machine

theorem distance_f32 (decoded : List (List F32)) (i j : ℕ) :
    distance decoded i j = ConfluxFL.distance decoded i j := rfl

theorem sortBy_f32 (xs : List F32) : Floating.sortBy id xs = sortValues xs := rfl

theorem krumScore_f32 (decoded : List (List F32)) (neighbors i : ℕ) :
    krumScore decoded neighbors i = ConfluxFL.krumScore decoded neighbors i := by
  unfold krumScore ConfluxFL.krumScore
  simp only [distance_f32, sortBy_f32]
  rfl

theorem krumScores_f32 (byzantineFraction : F32) (updates : List ClientDelta) :
    krumScores byzantineFraction updates = ConfluxFL.krumScores byzantineFraction updates := by
  unfold krumScores ConfluxFL.krumScores
  simp only [embed_f32, funext (krumScore_f32 _ _)]

/-- In machine arithmetic this is the filter the catalog builds. -/
theorem krumFilter_f32 (byzantineFraction : F32) (updates : List ClientDelta) :
    krumFilter F32 byzantineFraction updates = ConfluxFL.krumFilter byzantineFraction updates := by
  unfold krumFilter ConfluxFL.krumFilter
  rw [krumScores_f32]
  rfl

end Machine

section Dimension

/-- A filter that answers only for batches that are valid, or too small to compare. -/
def Validates (select : List ClientDelta → Except AggregatorError (List ℕ)) : Prop :=
  ∀ updates selected, select updates = .ok selected →
    updates.length ≤ 1 ∨ ∃ decoded, decodeAndValidate updates = .ok decoded

theorem decodes_of_krumScores {byzantineFraction : F32} {updates : List ClientDelta}
    {scores : List ν} (h : krumScores byzantineFraction updates = .ok scores) :
    ∃ decoded, decodeAndValidate updates = .ok decoded := by
  obtain ⟨decoded,hd,_⟩ := Fallible.except_bind_ok_iff.mp h
  exact ⟨decoded,hd⟩

variable (ν) (byzantineFraction : F32)

theorem validates_krumFilter : Validates (krumFilter ν byzantineFraction) := by
  intro updates selected h
  obtain ⟨scores,hs,_⟩ := Fallible.except_bind_ok_iff.mp h
  exact .inr (decodes_of_krumScores hs)

theorem validates_multiKrumFilter : Validates (multiKrumFilter ν byzantineFraction) := by
  intro updates selected h
  obtain ⟨scores,hs,_⟩ := Fallible.except_bind_ok_iff.mp h
  exact .inr (decodes_of_krumScores hs)

theorem validates_fabaFilter : Validates (fabaFilter ν byzantineFraction) := by
  intro updates selected h
  obtain ⟨decoded,hd,_⟩ := Fallible.except_bind_ok_iff.mp h
  exact .inr ⟨decoded,hd⟩

theorem validates_divideAndConquerFilter :
    Validates (divideAndConquerFilter ν byzantineFraction) := by
  intro updates selected h
  obtain ⟨decoded,hd,_⟩ := Fallible.except_bind_ok_iff.mp h
  exact .inr ⟨decoded,hd⟩

theorem filterMap_range_getElem? {α : Type} (l : List α) :
    (List.range l.length).filterMap (fun i => l[i]?) = l := by
  induction l using List.reverseRecOn with
  | nil => rfl
  | append_singleton l a ih =>
    rw [List.length_append, List.length_singleton, List.range_succ, List.filterMap_append]
    congr 1
    · have hcongr : ∀ i ∈ List.range l.length, (l++[a])[i]? = l[i]? := fun i hi =>
        List.getElem?_append_left (List.mem_range.mp hi)
      rw [List.filterMap_congr hcongr, ih]
    · simp

/-- Bulyan scores the whole batch in its first turn, unless there is nothing to choose from. -/
theorem validates_bulyanFilter : Validates (bulyanFilter ν byzantineFraction) := by
  intro updates selected h
  obtain ⟨_,hloop,_⟩ := Fallible.except_bind_ok_iff.mp h
  by_cases hsmall : updates.length ≤ 1
  · exact .inl hsmall
  · obtain ⟨n,hn⟩ := Nat.exists_eq_succ_of_ne_zero (show updates.length ≠ 0 by omega)
    have hturn : ([] : List ℕ).length <
        max (updates.length-2*byzantineCount byzantineFraction updates.length) 1 ∧
        1 < (List.range updates.length).length := by
      rw [List.length_range, List.length_nil]
      omega
    rw [hn, bulyanLoop, ← hn, if_pos hturn, filterMap_range_getElem?] at hloop
    obtain ⟨scores,hs,_⟩ := Fallible.except_bind_ok_iff.mp hloop
    exact .inr (decodes_of_krumScores hs)

variable {ν} {byzantineFraction} {updates : List ClientDelta} {out : List ν}

omit [Floating ν] in
/-- What comes out of a filtered batch has the dimension of the whole batch: the filter has
looked at all of it. -/
theorem hasDimension_filtered {select : List ClientDelta → Except AggregatorError (List ℕ)}
    {combine : List ClientDelta → Except AggregatorError (List ν)} (hselect : Validates select)
    (hcombine : ∀ us w, combine us = .ok w → HasDimension us w.length)
    (h : filtered select combine updates = .ok out) : HasDimension updates out.length := by
  unfold filtered at h
  split_ifs at h with hne
  obtain ⟨selected,hs,h⟩ := Fallible.except_bind_ok_iff.mp h
  split_ifs at h
  have hout := hcombine _ _ h
  have hsub : selected.filterMap (fun i => updates[i]?) ⊆ updates := by
    intro u hu
    obtain ⟨i,_,hi⟩ := List.mem_filterMap.mp hu
    exact List.mem_of_getElem? hi
  rcases hselect _ _ hs with hsmall | ⟨decoded,hd⟩
  · obtain ⟨v,hv⟩ := List.exists_mem_of_ne_nil _ hout.1
    refine ⟨hne,fun u hu => ?_⟩
    have huv : u = v := by
      obtain ⟨x,hx⟩ := List.length_eq_one_iff.mp (le_antisymm hsmall (List.length_pos_iff.mpr hne))
      have hmem := hsub hv
      rw [hx, List.mem_singleton] at hu hmem
      rw [hu, hmem]
    exact hout.2 u (huv ▸ hv)
  · have hdim := hasDimension_of_ok hd hne
    rw [hdim.subset hout hsub]
    exact hdim

theorem hasDimension_coordinateWise {combine : List ν → ν}
    (h : coordinateWise combine updates = .ok out) : HasDimension updates out.length := by
  obtain ⟨decoded,_,hdim,hout⟩ := onBatch_ok h
  cases hout
  rwa [List.length_map, List.length_range]

theorem length_normalizedSum {dim : ℕ} {weighted : List (ν × List ν)}
    (h : ∀ p ∈ weighted, p.2.length = dim) (total : ν) :
    (normalizedSum dim weighted total).length = dim :=
  length_foldl (fun acc p hp hacc => by rw [List.length_zipWith, hacc, h p hp, Nat.min_self])
    (length_zeros dim)

theorem length_geometricMedian {dim : ℕ} {weighted : List (ν × List ν)}
    (hhead : ((weighted.map Prod.snd).headD []).length = dim)
    (h : ∀ p ∈ weighted, p.2.length = dim) : (geometricMedian weighted).length = dim := by
  unfold geometricMedian
  refine Run.bounded_of_invariant (fun v : List ν => v.length = dim) (fun v v' hv hstep => ?_) 8 ?_
  · unfold weiszfeldStep at hstep
    dsimp only at hstep
    split_ifs at hstep
    cases hstep
    rw [hv]
    refine length_normalizedSum (fun p hp => ?_) _
    obtain ⟨q,hq,hp⟩ := List.mem_map.mp (List.of_mem_zip hp).2
    rw [← hp]
    exact h q hq
  · rw [hhead]
    split
    · exact length_normalizedSum h _
    · exact length_zeros dim

theorem hasDimension_geometricMedian (h : geometricMedianAggregate updates = .ok out) :
    HasDimension updates out.length := by
  obtain ⟨decoded,hd,hdim,hout⟩ := onBatch_ok h
  cases hout
  have hlen : (updates.map fun u => (Floating.ofNat u.numSamples : ν)).length =
      (embed decoded : List (List ν)).length := by
    rw [(decodeAndValidate_ok hd).1]
    simp [embed]
  have hrows : ((updates.map fun u => (Floating.ofNat u.numSamples : ν)).zip
      (embed decoded)).map Prod.snd = embed decoded := List.map_snd_zip hlen.ge
  have hhead := (congrArg (fun l => (l.headD []).length) hrows).trans (length_headD_embed decoded)
  rwa [length_geometricMedian hhead fun p hp => length_of_mem_embed hd _ (List.of_mem_zip hp).2]

end Dimension
end ConfluxFL.Robust
