import ConfluxFL.Core.KrumCounts
import ConfluxFL.Core.Selections
import ConfluxFL.Lib.FloatScale

/-! The filters with their comparisons checked. The source expects every comparison to be between
numbers and panics where one is with a NaN; a list of at least two values cannot be sorted, nor its
least one found, without comparing each of them. -/
namespace ConfluxFL.Robust
variable {ν : Type} [Floating ν]

/-- The squared distances from an update to the others. -/
def neighborDistances (rows : List (List ν)) (i : ℕ) : List ν :=
  ((List.range rows.length).filter fun j => j ≠ i).map fun j => distance rows i j*distance rows i j

section Filters
variable (ν) (byzantineFraction : F32) (updates : List ClientDelta)

def krumScoresChecked : Except FilterStop (List ν) := do
  let decoded ← passOn (decodeAndValidate updates)
  let n := updates.length
  let rows : List (List ν) := embed decoded
  (List.range n).mapM fun i => do
    expectNumbers "distances are never NaN" (neighborDistances rows i)
    return krumScore rows (neighbors byzantineFraction n) i

def krumFilterChecked : Except FilterStop (List ℕ) := do
  let scores ← krumScoresChecked ν byzantineFraction updates
  expectNumbers "scores are never NaN" scores
  if scores = [] then
    .error (.panic "updates is non-empty, checked by FilteredAggregator before filter() runs")
  else return [Floating.argMin scores]

def multiKrumFilterChecked : Except FilterStop (List ℕ) := do
  let scores ← krumScoresChecked ν byzantineFraction updates
  let n := updates.length
  let m := max (n-byzantineCount byzantineFraction n) 1
  expectNumbers "scores are never NaN" scores
  let ranked := Floating.sortBy (fun i => scores.getD i 0) (List.range n)
  return (ranked.take m).insertionSort (· ≤ ·)

variable {ν} in
/-- The distances from the updates that are left to their mean. -/
def fabaDistances (decoded : List (List ν)) (remaining : List ℕ) : List ν :=
  let rows := remaining.map fun i => decoded.getD i []
  let mean := sharedMean (rows.headD []).length rows
  rows.map fun w => l2Distance w mean

variable {ν} in
def fabaLoopChecked (decoded : List (List ν)) : ℕ → List ℕ → Except FilterStop (List ℕ)
  | 0, remaining => .ok remaining
  | turns+1, remaining =>
    if remaining.length ≤ 1 then .ok remaining
    else do
      let distances := fabaDistances decoded remaining
      expectNumbers "distances are never NaN" distances
      fabaLoopChecked decoded turns (remaining.eraseIdx (Floating.argMax distances))

def fabaFilterChecked : Except FilterStop (List ℕ) := do
  let decoded ← passOn (decodeAndValidate updates)
  let n := decoded.length
  let remaining ← fabaLoopChecked (embed decoded : List (List ν))
    (byzantineCount byzantineFraction n) (List.range n)
  return remaining.insertionSort (· ≤ ·)

def bulyanLoopChecked (theta : ℕ) :
    ℕ → List ℕ → List ℕ → Except FilterStop (List ℕ × List ℕ)
  | 0, remaining, selected => .ok (remaining,selected)
  | fuel+1, remaining, selected =>
    if selected.length < theta ∧ 1 < remaining.length then do
      let pool := remaining.filterMap fun i => updates[i]?
      let scores : List ν ← krumScoresChecked ν byzantineFraction pool
      expectNumbers "scores are never NaN" scores
      let best := Floating.argMin scores
      bulyanLoopChecked theta fuel (remaining.eraseIdx best) (selected++[remaining.getD best 0])
    else .ok (remaining,selected)

def bulyanFilterChecked : Except FilterStop (List ℕ) := do
  let n := updates.length
  let theta := max (n-2*byzantineCount byzantineFraction n) 1
  let (remaining,selected) ←
    bulyanLoopChecked ν byzantineFraction updates theta n (List.range n) []
  let selected := if selected.length < theta then selected++remaining else selected
  return selected.insertionSort (· ≤ ·)

end Filters

section Numbers

theorem expectNumbers_ok {message : String} {values : List ν}
    (h : ∀ x ∈ values, Floating.isNaN x = false) : expectNumbers message values = .ok () := by
  refine if_neg fun hnan => ?_
  obtain ⟨x,hx,hxnan⟩ := List.any_eq_true.mp hnan.2
  rw [h x hx] at hxnan
  cases hxnan

/-- Two values are enough for a NaN to be compared. -/
theorem expectNumbers_panic {message : String} {values : List ν} (hlen : 1 < values.length)
    {x : ν} (hx : x ∈ values) (hnan : Floating.isNaN x = true) :
    expectNumbers message values = .error (.panic message) :=
  if_pos ⟨hlen,List.any_eq_true.mpr ⟨x,hx,hnan⟩⟩

theorem isNaN_of_nonneg {x : F32} (h : x.Nonneg) : Floating.isNaN x = false :=
  (F32.isNaN_eq_false_iff x).mpr h.ne_nan

theorem passOn_bind {α β : Type} (r : Except AggregatorError α)
    (g : α → Except AggregatorError β) :
    passOn (r >>= g) = passOn r >>= fun a => passOn (g a) := by
  cases r <;> rfl

end Numbers

section Machine
variable (byzantineFraction : F32) {updates : List ClientDelta} {decoded : List (List F32)}

/-- The scores of any batch are found without a NaN being compared. -/
theorem krumScoresChecked_f32 (updates : List ClientDelta) :
    krumScoresChecked F32 byzantineFraction updates =
      passOn (krumScores byzantineFraction updates) := by
  unfold krumScoresChecked krumScores
  cases hd : decodeAndValidate updates with
  | error e => rfl
  | ok decoded =>
    change (List.range updates.length).mapM _ = Except.ok _
    refine Fallible.mapM_ok fun i _ => ?_
    rw [expectNumbers_ok fun x hx => ?_]
    · rfl
    · obtain ⟨j,-,rfl⟩ := List.mem_map.mp hx
      rw [embed_f32, distance_f32]
      exact isNaN_of_nonneg (nonneg_distance_sq (allFinite_of_ok hd) i j)

theorem isNaN_krumScores {scores : List F32} (h : krumScores byzantineFraction updates = .ok scores) :
    ∀ s ∈ scores, Floating.isNaN s = false := by
  rw [krumScores_f32] at h
  exact fun s hs => isNaN_of_nonneg (nonneg_krumScores h s hs)

theorem krumFilterChecked_f32 (hne : updates ≠ []) :
    krumFilterChecked F32 byzantineFraction updates =
      passOn (krumFilter F32 byzantineFraction updates) := by
  unfold krumFilterChecked krumFilter
  rw [krumScoresChecked_f32]
  cases hs : (krumScores byzantineFraction updates : Except AggregatorError (List F32)) with
  | error e => rfl
  | ok scores =>
    have hscores : scores ≠ [] := List.ne_nil_of_length_pos
      (length_krumScores hs ▸ List.length_pos_iff.mpr hne)
    change expectNumbers _ scores >>= _ = _
    rw [expectNumbers_ok (isNaN_krumScores byzantineFraction hs)]
    exact if_neg hscores

theorem multiKrumFilterChecked_f32 (updates : List ClientDelta) :
    multiKrumFilterChecked F32 byzantineFraction updates =
      passOn (multiKrumFilter F32 byzantineFraction updates) := by
  unfold multiKrumFilterChecked multiKrumFilter
  rw [krumScoresChecked_f32]
  cases hs : (krumScores byzantineFraction updates : Except AggregatorError (List F32)) with
  | error e => rfl
  | ok scores =>
    change expectNumbers _ scores >>= _ = _
    rw [expectNumbers_ok (isNaN_krumScores byzantineFraction hs)]
    rfl

theorem bulyanLoopChecked_f32 (theta fuel : ℕ) (remaining selected : List ℕ) :
    bulyanLoopChecked F32 byzantineFraction updates theta fuel remaining selected =
      passOn (bulyanLoop F32 byzantineFraction updates theta fuel remaining selected) := by
  induction fuel generalizing remaining selected with
  | zero => rfl
  | succ fuel ih =>
    rw [bulyanLoopChecked, bulyanLoop]
    split_ifs
    · dsimp only
      rw [krumScoresChecked_f32]
      cases hs : (krumScores byzantineFraction (remaining.filterMap fun i => updates[i]?) :
          Except AggregatorError (List F32)) with
      | error e => rfl
      | ok scores =>
        change expectNumbers _ scores >>= _ = _
        rw [expectNumbers_ok (isNaN_krumScores byzantineFraction hs)]
        exact ih _ _
    · rfl

theorem bulyanFilterChecked_f32 (updates : List ClientDelta) :
    bulyanFilterChecked F32 byzantineFraction updates =
      passOn (bulyanFilter F32 byzantineFraction updates) := by
  unfold bulyanFilterChecked bulyanFilter
  dsimp only
  rw [bulyanLoopChecked_f32, passOn_bind]
  rfl

end Machine

section Faba
variable {rows : List (List F32)}

/-- The mean of finite rows may be infinite, but it is not a NaN: every share is finite. -/
theorem sharedMean_ne_nan (hrows : AllFinite rows) (hlen : 2 ≤ rows.length) (dim : ℕ) :
    ∀ x ∈ sharedMean dim rows, x.unpacked ≠ .notANumber := by
  unfold sharedMean
  refine List.foldlRecOn rows _ (motive := fun acc : List F32 => ∀ x ∈ acc, x.unpacked ≠ .notANumber)
    (fun x hx => ?_) fun acc hacc w hw x hx => ?_
  · obtain rfl := List.eq_of_mem_replicate hx
    exact nofun
  · obtain ⟨a,ha,y,hy,rfl⟩ := mem_zipWith hx
    refine F32.add_ne_nan (hacc a ha) ?_
    exact F32.finite_mul_share ((F32.isFinite_iff y).mp (hrows w hw y hy)) hlen

theorem isNaN_fabaDistances (hrows : AllFinite rows) {remaining : List ℕ}
    (hlen : 2 ≤ remaining.length) :
    ∀ x ∈ fabaDistances rows remaining, Floating.isNaN x = false := by
  have hleft : AllFinite (remaining.map fun i => rows.getD i []) := by
    intro w hw x hx
    obtain ⟨i,-,rfl⟩ := List.mem_map.mp hw
    exact hrows.getD i x hx
  intro x hx
  obtain ⟨w,hw,rfl⟩ := List.mem_map.mp hx
  refine isNaN_of_nonneg (nonneg_l2Distance (hleft w hw) ?_)
  exact sharedMean_ne_nan hleft (by rwa [List.length_map]) _

theorem fabaLoopChecked_f32 (hrows : AllFinite rows) (turns : ℕ) (remaining : List ℕ) :
    fabaLoopChecked rows turns remaining = .ok (Run.bounded (fabaStep rows) turns remaining) := by
  induction turns generalizing remaining with
  | zero => rfl
  | succ turns ih =>
    rw [fabaLoopChecked, Run.bounded, fabaStep]
    split_ifs with hsmall
    · rfl
    · dsimp only
      rw [expectNumbers_ok (isNaN_fabaDistances hrows (by omega))]
      exact ih _

theorem fabaFilterChecked_f32 (byzantineFraction : F32) (updates : List ClientDelta) :
    fabaFilterChecked F32 byzantineFraction updates =
      passOn (fabaFilter F32 byzantineFraction updates) := by
  unfold fabaFilterChecked fabaFilter
  cases hd : decodeAndValidate updates with
  | error e => rfl
  | ok decoded =>
    change fabaLoopChecked (embed decoded) _ _ >>= _ = _
    rw [fabaLoopChecked_f32 (by rw [embed_f32]; exact allFinite_of_ok hd)]
    rfl

end Faba

end ConfluxFL.Robust
