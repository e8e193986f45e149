import ConfluxFL.Core.Robust
import ConfluxFL.Lib.Selection

/-! What the filters pick, in any arithmetic: as many positions of the batch as each of them
promises, in ascending order. Bulyan's loop is a greedy selection by Krum's scores. -/
namespace ConfluxFL.Robust
variable {ν : Type} [Floating ν]

/-- `k` positions of a batch of `n`, in ascending order. -/
structure Picks (n k : ℕ) (selected : List ℕ) : Prop where
  ascending : selected.Pairwise (· < ·)
  inBounds : ∀ i ∈ selected, i < n
  length : selected.length = k

/-- How many neighbours Krum sums over in a batch of `n`. -/
def neighbors (byzantineFraction : F32) (n : ℕ) : ℕ :=
  min (max (n-(byzantineCount byzantineFraction n+2)) 1) (max (n-1) 1)

/-- The scores of the positions of a pool. -/
def poolScores (rows : List (List ν)) (count : ℕ → ℕ) (pool : List ℕ) : List ν :=
  (List.range pool.length).map (krumScore (pool.map fun i => rows.getD i []) (count pool.length))

/-- The position of a pool that Krum picks. -/
def krumBest (rows : List (List ν)) (count : ℕ → ℕ) (pool : List ℕ) : ℕ :=
  Floating.argMin (poolScores rows count pool)

section Lists
variable {n : ℕ} {l : List ℕ}

/-- Sorting a part of the batch's positions. -/
theorem picks_insertionSort (hnodup : l.Nodup) (hin : ∀ i ∈ l, i < n) :
    Picks n l.length (l.insertionSort (· ≤ ·)) := by
  have hperm := List.perm_insertionSort (· ≤ ·) l
  have hsorted := List.pairwise_insertionSort (· ≤ ·) l
  refine ⟨?_,fun i hi => hin i (hperm.mem_iff.mp hi),hperm.length_eq⟩
  exact (hsorted.and (hperm.nodup_iff.mpr hnodup)).imp fun h => lt_of_le_of_ne h.1 h.2

end Lists

section Pools
variable {updates : List ClientDelta} {decoded : List (List F32)}

theorem getD_embed (decoded : List (List F32)) (i : ℕ) :
    (embed decoded : List (List ν)).getD i [] = (decoded.getD i []).map Floating.ofF32 := by
  simp only [embed, List.getD_eq_getElem?_getD, List.getElem?_map]
  cases decoded[i]? <;> rfl

/-- A part of a valid batch is valid, and decodes to the same rows. -/
theorem decodeAndValidate_pool (hd : decodeAndValidate updates = .ok decoded) {pool : List ℕ}
    (hin : ∀ i ∈ pool, i < updates.length) :
    decodeAndValidate (pool.filterMap fun i => updates[i]?) =
      .ok (pool.map fun i => decoded.getD i []) := by
  obtain ⟨hdecoded,hall⟩ := decodeAndValidate_ok hd
  have hmem : ∀ u ∈ pool.filterMap fun i => updates[i]?, u ∈ updates := by
    intro u hu
    obtain ⟨i,-,hi⟩ := List.mem_filterMap.mp hu
    exact List.mem_of_getElem? hi
  rw [decodeAndValidate_of fun u hu => hall u (hmem u hu), hdecoded]
  congr 1
  clear hmem hall hd
  induction pool with
  | nil => rfl
  | cons i pool ih =>
    have hi := hin i List.mem_cons_self
    rw [List.filterMap_cons_some (List.getElem?_eq_getElem hi), List.map_cons, List.map_cons,
      ih fun j hj => hin j (List.mem_cons_of_mem i hj)]
    simp [List.getD_eq_getElem?_getD,List.getElem?_eq_getElem hi]

theorem length_pool {pool : List ℕ} (hin : ∀ i ∈ pool, i < updates.length) :
    (pool.filterMap fun i => updates[i]?).length = pool.length := by
  induction pool with
  | nil => rfl
  | cons i pool ih =>
    rw [List.filterMap_cons_some (List.getElem?_eq_getElem (hin i List.mem_cons_self)),
      List.length_cons, List.length_cons, ih fun j hj => hin j (List.mem_cons_of_mem i hj)]

theorem krumScores_pool (byzantineFraction : F32) (hd : decodeAndValidate updates = .ok decoded)
    {pool : List ℕ} (hin : ∀ i ∈ pool, i < updates.length) :
    krumScores byzantineFraction (pool.filterMap fun i => updates[i]?) =
      .ok (poolScores (embed decoded : List (List ν)) (neighbors byzantineFraction) pool) := by
  unfold krumScores poolScores
  rw [decodeAndValidate_pool hd hin]
  have hrows : (embed (pool.map fun i => decoded.getD i []) : List (List ν)) =
      pool.map fun i => (embed decoded : List (List ν)).getD i [] := by
    simp only [getD_embed]
    simp [embed]
  change Except.ok _ = _
  rw [length_pool hin, hrows]
  rfl

end Pools

section Bulyan

/-- The position is one of the pool. -/
theorem picks_krumBest (rows : List (List ν)) (count : ℕ → ℕ) :
    Greedy.Picks (krumBest rows count) := by
  intro pool hne
  refine argMin_lt (List.length_pos_iff.mpr hne) ?_
  rw [poolScores, List.length_map, List.length_range]

variable {byzantineFraction : F32} {updates : List ClientDelta} {decoded : List (List F32)}

/-- Bulyan's loop is the greedy selection by Krum's scores; the last of the pool is not moved. -/
theorem bulyanLoop_eq (hd : decodeAndValidate updates = .ok decoded) {theta fuel : ℕ}
    {remaining selected : List ℕ} (hin : ∀ i ∈ remaining, i < updates.length)
    (hfuel : remaining.length ≤ fuel) :
    bulyanLoop ν byzantineFraction updates theta fuel remaining selected =
      .ok ((Greedy.move (krumBest (embed decoded : List (List ν))
        (neighbors byzantineFraction)))^[min (theta-selected.length) (remaining.length-1)]
          (remaining,selected)) := by
  induction fuel generalizing remaining selected with
  | zero =>
    have hlen : remaining.length = 0 := Nat.le_zero.mp hfuel
    rw [hlen, Nat.zero_sub, Nat.min_zero]
    rfl
  | succ fuel ih =>
    rw [bulyanLoop]
    split_ifs with hturn
    · dsimp only
      rw [krumScores_pool byzantineFraction hd hin]
      let best : List ℕ → ℕ := krumBest (embed decoded : List (List ν))
        (neighbors byzantineFraction)
      have hne : remaining ≠ [] := List.ne_nil_of_length_pos (by omega)
      have hbest : best remaining < remaining.length := picks_krumBest _ _ remaining hne
      have hmove : Greedy.move best (remaining,selected) = (remaining.eraseIdx (best remaining),
          selected++[remaining.getD (best remaining) 0]) := by
        simp [Greedy.move,List.getElem?_eq_getElem hbest,List.getD_eq_getElem?_getD]
      have hpool := List.length_eraseIdx_of_lt hbest
      have hturns : min (theta-selected.length) (remaining.length-1) =
          min (theta-(selected.length+1)) (remaining.length-1-1)+1 := by
        omega
      change bulyanLoop ν byzantineFraction updates theta fuel (remaining.eraseIdx (best remaining))
        (selected++[remaining.getD (best remaining) 0]) = _
      rw [ih (fun i hi => hin i (List.mem_of_mem_eraseIdx hi)) (by omega), hpool,
        List.length_append, List.length_singleton, hturns, Function.iterate_succ_apply]
      exact congrArg (fun p => Except.ok ((Greedy.move best)^[_] p)) hmove.symm
    · have hturns : min (theta-selected.length) (remaining.length-1) = 0 := by omega
      rw [hturns]
      rfl

/-- The filter picks `max (n-2f) 1` times from what is left, and sorts. -/
theorem bulyanFilter_eq (hd : decodeAndValidate updates = .ok decoded) (hne : updates ≠ []) :
    bulyanFilter ν byzantineFraction updates = .ok
      (((Greedy.move (krumBest (embed decoded : List (List ν)) (neighbors byzantineFraction)))^[max
        (updates.length-2*byzantineCount byzantineFraction updates.length) 1]
          (List.range updates.length,[])).2.insertionSort (· ≤ ·)) := by
  have hpos := List.length_pos_iff.mpr hne
  unfold bulyanFilter
  dsimp only
  rw [bulyanLoop_eq hd (fun i hi => List.mem_range.mp hi) (by rw [List.length_range])]
  have htheta : max (updates.length-2*byzantineCount byzantineFraction updates.length) 1 ≤
      updates.length := by
    omega
  generalize max (updates.length-2*byzantineCount byzantineFraction updates.length) 1 = theta at *
  rw [List.length_nil, Nat.sub_zero, List.length_range]
  let best : List ℕ → ℕ := krumBest (embed decoded : List (List ν)) (neighbors byzantineFraction)
  have hbest : Greedy.Picks best := picks_krumBest _ _
  change Except.ok (List.insertionSort (· ≤ ·) (if ((Greedy.move best)^[_] _).2.length < theta then
    ((Greedy.move best)^[_] _).2++((Greedy.move best)^[_] _).1 else ((Greedy.move best)^[_] _).2)) = _
  have hrange : (List.range updates.length,([] : List ℕ)).1.length = updates.length :=
    List.length_range
  rcases Nat.lt_or_ge theta updates.length with hlt | hge
  · have hturns : min theta (updates.length-1) = theta := by omega
    have hlen := (Greedy.length_iterate hbest (k := theta)
      (p := (List.range updates.length,[])) (by rw [hrange]; exact htheta)).2
    rw [hturns, if_neg (by rw [hlen, List.length_nil]; omega)]
  -- when everything is picked, the last one is appended instead
  · obtain rfl : theta = updates.length := le_antisymm htheta hge
    have hturns : min updates.length (updates.length-1) = updates.length-1 := by omega
    have hlen := (Greedy.length_iterate hbest (k := updates.length-1)
      (p := (List.range updates.length,[])) (by rw [hrange]; omega)).2
    have hlast := Greedy.iterate_last hbest (k := updates.length-1)
      (p := (List.range updates.length,[])) (by rw [hrange]; omega)
    rw [Nat.sub_add_cancel hpos] at hlast
    rw [hturns, if_pos (by rw [hlen, List.length_nil]; omega), ← hlast]

/-- A greedy selection from the whole batch. -/
theorem picks_greedy {best : List ℕ → ℕ} (hbest : Greedy.Picks best) {n k : ℕ} (hk : k ≤ n) :
    Picks n k (((Greedy.move best)^[k] (List.range n,[])).2.insertionSort (· ≤ ·)) := by
  have hperm := Greedy.perm_iterate best k (List.range n,[])
  have hlen := (Greedy.length_iterate hbest (k := k) (p := (List.range n,[]))
    (by rw [List.length_range]; exact hk)).2
  rw [List.length_nil, Nat.zero_add] at hlen
  rw [List.append_nil] at hperm
  generalize (Greedy.move best)^[k] (List.range n,[]) = p at *
  have hnodup := hperm.nodup_iff.mpr List.nodup_range
  rw [← hlen]
  refine picks_insertionSort (List.nodup_append.mp hnodup).2.1 fun i hi => ?_
  exact List.mem_range.mp (hperm.subset (List.mem_append_right p.1 hi))

theorem picks_bulyanFilter (hd : decodeAndValidate updates = .ok decoded) (hne : updates ≠ []) :
    ∃ selected, bulyanFilter ν byzantineFraction updates = .ok selected ∧ Picks updates.length
      (max (updates.length-2*byzantineCount byzantineFraction updates.length) 1) selected := by
  have hpos := List.length_pos_iff.mpr hne
  exact ⟨_,bulyanFilter_eq hd hne,picks_greedy (picks_krumBest _ _) (by omega)⟩

end Bulyan

section Others
variable (ν) {byzantineFraction : F32} {updates : List ClientDelta} {decoded : List (List F32)}

theorem krumScores_batch (byzantineFraction : F32) (hd : decodeAndValidate updates = .ok decoded) :
    ∃ scores : List ν, krumScores byzantineFraction updates = .ok scores := by
  unfold krumScores
  rw [hd]
  exact ⟨_,rfl⟩

theorem picks_krumFilter (hd : decodeAndValidate updates = .ok decoded) (hne : updates ≠ []) :
    ∃ selected, krumFilter ν byzantineFraction updates = .ok selected ∧
      Picks updates.length 1 selected := by
  obtain ⟨scores,hscores⟩ := krumScores_batch ν byzantineFraction hd
  have hlen := length_krumScores hscores
  refine ⟨[Floating.argMin scores],by unfold krumFilter; rw [hscores]; rfl,
    List.pairwise_singleton _ _,fun i hi => ?_,rfl⟩
  rw [List.mem_singleton.mp hi]
  exact argMin_lt (List.length_pos_iff.mpr hne) hlen.le

/-- The first of a ranking of all positions. -/
theorem picks_ranked {n k : ℕ} {ranked : List ℕ} (hperm : ranked.Perm (List.range n))
    (hk : k ≤ n) : Picks n k ((ranked.take k).insertionSort (· ≤ ·)) := by
  have hlen : (ranked.take k).length = k := by
    rw [List.length_take, hperm.length_eq, List.length_range]
    omega
  have hpicks := @picks_insertionSort n (ranked.take k)
    ((hperm.nodup_iff.mpr List.nodup_range).sublist (List.take_sublist k ranked))
    fun i hi => List.mem_range.mp (hperm.subset (List.mem_of_mem_take hi))
  rwa [hlen] at hpicks

/-- The positions that are among the first of a ranking. -/
theorem perm_filter_take {n : ℕ} {ranked : List ℕ} (hperm : ranked.Perm (List.range n)) (k : ℕ) :
    ((List.range n).filter fun i => i ∈ ranked.take k).Perm (ranked.take k) := by
  have hnodup := hperm.nodup_iff.mpr List.nodup_range
  rw [List.perm_ext_iff_of_nodup (List.nodup_range.filter _)
    (hnodup.sublist (List.take_sublist k ranked))]
  intro i
  rw [List.mem_filter, decide_eq_true_iff, ← hperm.mem_iff]
  exact ⟨And.right,fun h => ⟨List.mem_of_mem_take h,h⟩⟩

/-- All but the first of a ranking. -/
theorem picks_rest {n k : ℕ} {ranked : List ℕ} (hperm : ranked.Perm (List.range n)) (hk : k ≤ n) :
    Picks n (n-k) ((List.range n).filter fun i => i ∉ ranked.take k) := by
  have htaken := perm_filter_take hperm k
  have hsplit := List.length_eq_length_filter_add (l := List.range n) fun i => i ∈ ranked.take k
  have hlen : (ranked.take k).length = k := by
    rw [List.length_take, hperm.length_eq, List.length_range]
    omega
  rw [htaken.length_eq, hlen, List.length_range] at hsplit
  have hrest : (List.range n).filter (fun i => i ∉ ranked.take k) =
      (List.range n).filter fun i => !decide (i ∈ ranked.take k) :=
    List.filter_congr fun i _ => decide_not
  refine ⟨List.pairwise_lt_range.filter _,fun i hi => ?_,by rw [hrest]; omega⟩
  exact List.mem_range.mp (List.mem_of_mem_filter hi)

theorem picks_multiKrumFilter (hd : decodeAndValidate updates = .ok decoded) (hne : updates ≠ []) :
    ∃ selected, multiKrumFilter ν byzantineFraction updates = .ok selected ∧
      Picks updates.length (updates.length-byzantineCount byzantineFraction updates.length)
        selected := by
  have hf : byzantineCount byzantineFraction updates.length < updates.length :=
    excludedAt_lt (Nat.ne_of_gt (List.length_pos_iff.mpr hne))
  have hm : max (updates.length-byzantineCount byzantineFraction updates.length) 1 =
      updates.length-byzantineCount byzantineFraction updates.length := by
    omega
  obtain ⟨scores,hscores⟩ := krumScores_batch ν byzantineFraction hd
  refine ⟨_,by unfold multiKrumFilter; rw [hscores]; rfl,?_⟩
  rw [hm]
  exact picks_ranked (List.perm_insertionSort _ _) (Nat.sub_le _ _)

theorem argMax_lt {xs : List ν} {n : ℕ} (hn : 0 < n) (h : xs.length ≤ n) :
    Floating.argMax xs < n := by
  refine List.foldlRecOn (List.range xs.length) _ (motive := fun best => best < n) hn
    fun best hbest i hi => ?_
  split
  · exact hbest
  · exact (List.mem_range.mp hi).trans_le h

variable {ν} in
/-- FABA drops one position a turn until one is left. -/
theorem bounded_fabaStep (rows : List (List ν)) {k : ℕ} {remaining : List ℕ}
    (hk : k < remaining.length) : (Run.bounded (fabaStep rows) k remaining).Sublist remaining ∧
      (Run.bounded (fabaStep rows) k remaining).length = remaining.length-k := by
  induction k generalizing remaining with
  | zero => exact ⟨List.Sublist.refl remaining,rfl⟩
  | succ k ih =>
    have hstep : ∃ i < remaining.length, fabaStep rows remaining = some (remaining.eraseIdx i) := by
      unfold fabaStep
      rw [if_neg (by omega)]
      refine ⟨_,argMax_lt ν (by omega) ?_,rfl⟩
      rw [List.length_map, List.length_map]
    obtain ⟨i,hi,hstep⟩ := hstep
    have hlen := List.length_eraseIdx_of_lt hi
    obtain ⟨hsub,hlength⟩ := ih (show k < (remaining.eraseIdx i).length by omega)
    rw [Run.bounded, hstep]
    exact ⟨hsub.trans (List.eraseIdx_sublist _ _),by dsimp only; omega⟩

theorem picks_fabaFilter (hd : decodeAndValidate updates = .ok decoded) (hne : updates ≠ []) :
    ∃ selected, fabaFilter ν byzantineFraction updates = .ok selected ∧
      Picks updates.length (updates.length-byzantineCount byzantineFraction updates.length)
        selected := by
  have hlen : decoded.length = updates.length := by
    rw [(decodeAndValidate_ok hd).1, List.length_map]
  have hf : byzantineCount byzantineFraction updates.length < updates.length :=
    excludedAt_lt (Nat.ne_of_gt (List.length_pos_iff.mpr hne))
  obtain ⟨hsub,hlength⟩ := @bounded_fabaStep ν _ (embed decoded)
    (byzantineCount byzantineFraction updates.length) (List.range updates.length)
    (by rw [List.length_range]; exact hf)
  rw [List.length_range] at hlength
  refine ⟨_,by unfold fabaFilter; rw [hd]; rfl,?_⟩
  rw [hlen]
  have hpicks := picks_insertionSort (List.nodup_range.sublist hsub)
    fun i hi => List.mem_range.mp (hsub.subset hi)
  rwa [hlength] at hpicks

end Others

end ConfluxFL.Robust
