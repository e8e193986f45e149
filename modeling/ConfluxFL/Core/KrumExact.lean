import ConfluxFL.Core.KrumCounts
import ConfluxFL.Core.Robust
import ConfluxFL.Lib.Exact
import ConfluxFL.Lib.OrderStatistics
import Mathlib.Tactic.IntervalCases

/-! Krum in exact arithmetic: whatever the Byzantine updates are, the one it keeps is near an
honest update. -/
namespace ConfluxFL.Robust
open OrderStatistics

/-- The squared distance between two rows. -/
noncomputable def sqDist (rows : List (List ℝ)) (i j : ℕ) : ℝ :=
  ((rows.getD i []).zipWith (fun x y => (x-y)*(x-y)) (rows.getD j [])).sum

/-- The squared distances from a row to the others. -/
noncomputable def sqDists (rows : List (List ℝ)) (i : ℕ) : List ℝ :=
  ((List.range rows.length).filter fun j => j ≠ i).map (sqDist rows i)

/-- The update Krum keeps has an honest update within the bound, and none to look for if it is
honest itself. -/
def KeepsNearHonest (byzantineFraction : F32) (updates : List ClientDelta)
    (decoded : List (List F32)) (honest : ℕ → Bool) (spread : ℝ) : Prop :=
  let n := updates.length
  let f := byzantineCount byzantineFraction n
  ∃ winner < n, krumFilter ℝ byzantineFraction updates = .ok [winner] ∧
    ∃ h < n, honest h = true ∧ sqDist (embed decoded) winner h ≤
      if honest winner then 0 else ((n : ℝ)-f-(2 : ℕ))/((n : ℝ)-(2*f : ℕ)-1)*spread

section Distances
variable (rows : List (List ℝ)) (i j : ℕ)

theorem sqDist_nonneg : 0 ≤ sqDist rows i j := by
  refine List.sum_nonneg fun z hz => ?_
  obtain ⟨x,-,y,-,rfl⟩ := mem_zipWith hz
  exact mul_self_nonneg (x-y)

theorem sqDist_self : sqDist rows i i = 0 := by
  refine List.sum_eq_zero fun z hz => ?_
  rw [List.zipWith_self] at hz
  obtain ⟨x,-,rfl⟩ := List.mem_map.mp hz
  rw [sub_self, mul_zero]

theorem sqDist_comm : sqDist rows i j = sqDist rows j i := by
  unfold sqDist
  rw [List.zipWith_comm]
  congr 2
  funext x y
  ring

/-- The square of a distance of the matrix is the squared distance. -/
theorem distance_mul_self : distance rows i j*distance rows i j = sqDist rows i j := by
  unfold distance
  split_ifs with h
  · rw [h, sqDist_self, mul_zero]
  · have hroot : l2Distance (rows.getD (min i j) []) (rows.getD (max i j) []) =
        Real.sqrt (sqDist rows (min i j) (max i j)) :=
      congrArg Real.sqrt (Floating.sum_real _)
    rw [hroot, Real.mul_self_sqrt (sqDist_nonneg rows _ _)]
    rcases Nat.le_total i j with hle | hle
    · rw [Nat.min_eq_left hle, Nat.max_eq_right hle]
    · rw [Nat.min_eq_right hle, Nat.max_eq_left hle, sqDist_comm]

variable {i} in
theorem length_sqDists (hi : i < rows.length) : (sqDists rows i).length = rows.length-1 := by
  have herase : (List.range rows.length).filter (fun j => j ≠ i) =
      (List.range rows.length).erase i := by
    rw [List.nodup_range.erase_eq_filter]
    refine List.filter_congr fun j _ => ?_
    by_cases h : j = i <;> simp [h]
  rw [sqDists, List.length_map, herase, List.length_erase_of_mem (List.mem_range.mpr hi),
    List.length_range]

theorem krumScore_real (neighbors : ℕ) : krumScore rows neighbors i =
    ((Floating.sortBy id (sqDists rows i)).take neighbors).sum := by
  unfold krumScore sqDists
  simp only [distance_mul_self, Floating.sum_real]

end Distances

section Scores
variable {rows : List (List ℝ)} {honest : ℕ → Bool} {i q : ℕ}

theorem mem_sqDists {x : ℝ} :
    x ∈ sqDists rows i ↔ ∃ j < rows.length, j ≠ i ∧ sqDist rows i j = x := by
  simp [sqDists,and_assoc]

/-- How many of the distances satisfy a property is how many other rows do. -/
theorem countP_sqDists (p : ℝ → Bool) : (sqDists rows i).countP p =
    (List.range rows.length).countP fun j => p (sqDist rows i j) && decide (j ≠ i) := by
  rw [sqDists, List.countP_map, List.countP_filter]
  rfl

/-- A score from above, by how many of the distances are above a bound. -/
theorem krumScore_le_of (hi : i < rows.length) {bound top : ℝ} {t : ℕ}
    (htop : ∀ j < rows.length, j ≠ i → sqDist rows i j ≤ top)
    (hc : (List.range rows.length).countP
      (fun j => decide (bound < sqDist rows i j) && decide (j ≠ i))+t ≤ rows.length-1)
    (hq : q ≤ rows.length-1) : krumScore rows q i ≤ (min t q : ℕ)*bound+(q-t : ℕ)*top := by
  rw [krumScore_real]
  refine sum_take_le_add (Floating.sortBy_id_sorted _) (fun x hx => ?_) ?_ ?_
  · obtain ⟨j,hj,hne,rfl⟩ := mem_sqDists.mp ((Floating.sortBy_perm _).mem_iff.mp hx)
    exact htop j hj hne
  · rwa [(Floating.sortBy_perm _).countP_eq, (Floating.sortBy_perm _).length_eq,
      length_sqDists rows hi, countP_sqDists]
  · rwa [(Floating.sortBy_perm _).length_eq, length_sqDists rows hi]

/-- And from below. -/
theorem le_krumScore_of (hi : i < rows.length) {bound bottom : ℝ} {t : ℕ}
    (hbottom : ∀ j < rows.length, j ≠ i → bottom ≤ sqDist rows i j)
    (hc : (List.range rows.length).countP
      (fun j => decide (sqDist rows i j < bound) && decide (j ≠ i)) ≤ t)
    (hq : q ≤ rows.length-1) : (min t q : ℕ)*bottom+(q-t : ℕ)*bound ≤ krumScore rows q i := by
  rw [krumScore_real]
  refine le_sum_take (Floating.sortBy_id_sorted _) (fun x hx => ?_) ?_ ?_
  · obtain ⟨j,hj,hne,rfl⟩ := mem_sqDists.mp ((Floating.sortBy_perm _).mem_iff.mp hx)
    exact hbottom j hj hne
  · rwa [(Floating.sortBy_perm _).countP_eq, countP_sqDists]
  · rwa [(Floating.sortBy_perm _).length_eq, length_sqDists rows hi]

/-- An honest update is near enough to all honest ones, and there are enough of these. -/
theorem krumScore_le {spread : ℝ}
    (hclose : ∀ j < rows.length, honest j = true → sqDist rows i j ≤ spread)
    (hi : i < rows.length) (hq : corrupted honest rows.length+q ≤ rows.length-1) :
    krumScore rows q i ≤ q*spread := by
  rw [krumScore_real]
  refine sum_take_le (Floating.sortBy_id_sorted _) ?_
  rw [(Floating.sortBy_perm _).countP_eq, (Floating.sortBy_perm _).length_eq,
    length_sqDists rows hi, countP_sqDists]
  refine (Nat.add_le_add_right (List.countP_mono_left fun j hj hp => ?_) q).trans hq
  rw [Bool.and_eq_true, decide_eq_true_iff] at hp
  rw [Bool.not_eq_true']
  by_contra hh
  have := hclose j (List.mem_range.mp hj) (Bool.eq_true_of_not_eq_false hh)
  exact hp.1.not_ge this

/-- A corrupted update has one corrupted neighbour fewer; the others it needs are honest. -/
theorem le_krumScore {least : ℝ} (hi : i < rows.length) (hcorrupt : honest i = false)
    (hfar : ∀ j < rows.length, honest j = true → least ≤ sqDist rows i j)
    {f : ℕ} (hf : corrupted honest rows.length ≤ f) (hq : q ≤ rows.length-1) :
    (q-(f-1) : ℕ)*least ≤ krumScore rows q i := by
  have hscore := @le_krumScore_of rows i q hi least 0 (f-1) (fun j _ _ => sqDist_nonneg rows i j)
    ?_ hq
  · rwa [mul_zero, zero_add] at hscore
  · have hothers := countP_others_lt hi hcorrupt
    refine le_trans (List.countP_mono_left fun j hj hp => ?_)
      ((Nat.le_pred_of_lt hothers).trans (Nat.sub_le_sub_right hf 1))
    rw [Bool.and_eq_true] at hp ⊢
    refine ⟨?_,hp.2⟩
    rw [Bool.not_eq_true']
    by_contra hh
    have := hfar j (List.mem_range.mp hj) (Bool.eq_true_of_not_eq_false hh)
    exact (of_decide_eq_true hp.1).not_ge this

/-- With fewer corrupted rows than rows, some honest one is the nearest. -/
theorem exists_nearest_honest (rows : List (List ℝ)) (i : ℕ)
    (hc : corrupted honest rows.length < rows.length) : ∃ h < rows.length, honest h = true ∧
      ∀ j < rows.length, honest j = true → sqDist rows i h ≤ sqDist rows i j := by
  let positions := (Finset.range rows.length).filter fun j => honest j = true
  have hmem {j : ℕ} : j ∈ positions ↔ j < rows.length ∧ honest j = true := by
    simp [positions]
  obtain ⟨k,hk,hhonest⟩ := exists_honest hc
  have hne : positions.Nonempty := ⟨k,hmem.mpr ⟨hk,hhonest⟩⟩
  obtain ⟨h,hh,hleast⟩ := positions.exists_min_image (sqDist rows i) hne
  exact ⟨h,(hmem.mp hh).1,(hmem.mp hh).2,fun j hj hjh => hleast j (hmem.mpr ⟨hj,hjh⟩)⟩

end Scores

section Winner
variable {updates : List ClientDelta} {decoded : List (List F32)}

theorem length_embed_of_ok (hd : decodeAndValidate updates = .ok decoded) :
    (embed decoded : List (List ℝ)).length = updates.length := by
  rw [embed, List.length_map, (decodeAndValidate_ok hd).1, List.length_map]

theorem getD_scores {rows : List (List ℝ)} {q len i : ℕ} (hi : i < len) :
    ((List.range len).map (krumScore rows q)).getD i 0 = krumScore rows q i := by
  have hlen : ((List.range len).map (krumScore rows q)).length = len := by
    rw [List.length_map, List.length_range]
  rw [List.getD_eq_getElem _ _ (hlen.symm ▸ hi), List.getElem_map, List.getElem_range]

/-- The position that is kept has the first of the least scores. -/
theorem firstLeast_scores {rows : List (List ℝ)} {q len : ℕ} (hlen : 0 < len) :
    Floating.FirstLeast id ((List.range len).map (krumScore rows q))
      (Floating.argMin ((List.range len).map (krumScore rows q))) := by
  have hne : (List.range len).map (krumScore rows q) ≠ [] :=
    List.ne_nil_of_length_pos (by rwa [List.length_map, List.length_range])
  exact Floating.firstLeast_argMin hne fun a _ b _ => Floating.lt_real a b

/-- In exact arithmetic the filter finds the first of the least scores. -/
theorem krumFilter_real (byzantineFraction : F32) (hd : decodeAndValidate updates = .ok decoded) (hne : updates ≠ []) :
    ∃ winner, krumFilter ℝ byzantineFraction updates = .ok [winner] ∧ winner < updates.length ∧
      let q := min (max (updates.length-(byzantineCount byzantineFraction updates.length+2)) 1)
        (max (updates.length-1) 1)
      ∀ j < updates.length,
        krumScore (embed decoded : List (List ℝ)) q winner ≤ krumScore (embed decoded) q j := by
  let q := min (max (updates.length-(byzantineCount byzantineFraction updates.length+2)) 1)
    (max (updates.length-1) 1)
  let scores := (List.range updates.length).map (krumScore (embed decoded : List (List ℝ)) q)
  have hlen : scores.length = updates.length := by
    rw [List.length_map, List.length_range]
  have hleast : Floating.FirstLeast id scores (Floating.argMin scores) :=
    firstLeast_scores (List.length_pos_iff.mpr hne)
  have hwinner : Floating.argMin scores < updates.length := hlen ▸ hleast.lt_length
  refine ⟨Floating.argMin scores,?_,hwinner,fun j hj => ?_⟩
  · unfold krumFilter krumScores
    rw [hd]
    rfl
  · have hle := hleast.least j (hlen ▸ hj)
    rwa [id, id, getD_scores hwinner, getD_scores hj] at hle

end Winner

/-- With `n ≥ 2f+3` and at most `f` corrupted updates, Krum's choice is near an honest update when
the honest ones are near each other. -/
theorem krumFilter_keepsNearHonest (byzantineFraction : F32) (updates : List ClientDelta)
    (decoded : List (List F32)) (honest : ℕ → Bool) (spread : ℝ)
    (hd : decodeAndValidate updates = .ok decoded)
    (hn : 2*byzantineCount byzantineFraction updates.length+3 ≤ updates.length)
    (hc : corrupted honest updates.length ≤ byzantineCount byzantineFraction updates.length)
    (hclose : ∀ i < updates.length, ∀ j < updates.length, honest i = true → honest j = true →
      sqDist (embed decoded) i j ≤ spread) :
    KeepsNearHonest byzantineFraction updates decoded honest spread := by
  have hrows := length_embed_of_ok hd
  have hne : updates ≠ [] := by
    rintro rfl
    rw [List.length_nil] at hn
    omega
  obtain ⟨winner,hfilter,hwinner,hleast⟩ := krumFilter_real byzantineFraction hd hne
  unfold KeepsNearHonest
  dsimp only at hleast ⊢
  generalize byzantineCount byzantineFraction updates.length = f at *
  refine ⟨winner,hwinner,hfilter,?_⟩
  have hq : min (max (updates.length-(f+2)) 1) (max (updates.length-1) 1) =
      updates.length-(f+2) := by
    omega
  rw [hq] at hleast
  rw [← hrows] at hwinner hleast hn hc hclose ⊢
  generalize (embed decoded : List (List ℝ)) = rows at *
  by_cases hh : honest winner = true
  · refine ⟨winner,hwinner,hh,?_⟩
    rw [if_pos hh, sqDist_self]
  · rw [if_neg hh]
    have hcorrupt := Bool.eq_false_of_not_eq_true hh
    have hf := (countP_others_lt hwinner hcorrupt).trans_le hc
    obtain ⟨h,hlt,hhonest,hnearest⟩ := exists_nearest_honest rows winner
      (hc.trans_lt (show f < rows.length by omega))
    refine ⟨h,hlt,hhonest,?_⟩
    have hupper : krumScore rows (rows.length-(f+2)) h ≤ (rows.length-(f+2) : ℕ)*spread :=
      krumScore_le (fun j hj hjh => hclose h hlt j hj hhonest hjh) hlt (by omega)
    have hlower := le_krumScore hwinner hcorrupt hnearest hc
      (show rows.length-(f+2) ≤ rows.length-1 by omega)
    have hcount : rows.length-(f+2)-(f-1) = rows.length-(2*f+1) := by omega
    rw [hcount] at hlower
    have hchain := (hlower.trans (hleast h hlt)).trans hupper
    rw [Nat.cast_sub (by omega), Nat.cast_sub (by omega)] at hchain
    push_cast at hchain
    have hpos : (0 : ℝ) < rows.length-2*f-1 := by
      have : (2*f+1 : ℝ) < rows.length := by exact_mod_cast (show 2*f+1 < rows.length by omega)
      linarith
    push_cast
    rw [div_mul_eq_mul_div, le_div_iff₀ hpos]
    calc
      sqDist rows winner h*(rows.length-2*f-1) =
          (rows.length-(2*f+1))*sqDist rows winner h := by ring
      _ ≤ (rows.length-(f+2))*spread := hchain
      _ = (rows.length-f-2)*spread := by ring

/-- Four updates are alike, the fifth is not. -/
def fiveWeights : List ClientDelta :=
  [reportedWeight "a" ⟨0x3f800000⟩ 1,reportedWeight "b" ⟨0x3f800000⟩ 2,
    reportedWeight "c" ⟨0x3f800000⟩ 3,reportedWeight "d" ⟨0x3f800000⟩ 4,
    reportedWeight "e" ⟨0x41100000⟩ 5]

theorem krumFilter_keepsNearHonest_fiveWeights :
    KeepsNearHonest ⟨0x3e4ccccd⟩ fiveWeights
      [[⟨0x3f800000⟩],[⟨0x3f800000⟩],[⟨0x3f800000⟩],[⟨0x3f800000⟩],[⟨0x41100000⟩]]
      (fun i => i != 4) 0 := by
  refine krumFilter_keepsNearHonest ⟨0x3e4ccccd⟩ fiveWeights _ _ _ (by decide +kernel)
    (by decide +kernel) (by decide +kernel) fun i hi j hj hhi hhj => ?_
  have hrow (k : ℕ) (hk : k < 5) (hh : (k != 4) = true) :
      (embed [[⟨0x3f800000⟩],[⟨0x3f800000⟩],[⟨0x3f800000⟩],[⟨0x3f800000⟩],
        [⟨0x41100000⟩]] : List (List ℝ)).getD k [] = [F32.toReal ⟨0x3f800000⟩] := by
    have hk' : k < 4 := by
      have : k ≠ 4 := by simpa using hh
      omega
    interval_cases k <;> rfl
  rw [sqDist, hrow i hi hhi, hrow j hj hhj]
  simp

end ConfluxFL.Robust
