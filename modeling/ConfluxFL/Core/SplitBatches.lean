import ConfluxFL.Core.KrumExact
import ConfluxFL.Core.Selections

/-! Batches that show how many neighbours a Krum score sums over: a core of equal updates, and two
groups around it that a score tells apart only when it counts one neighbour too many. -/
namespace ConfluxFL.Robust
open OrderStatistics

/-- Row `i` of a batch of `c+2f+1`: the first `c` rows are zero; the others have a bit of their own,
and a sign that sets the first `f` of them against the rest. -/
def splitRow (c f i : ℕ) : List F32 :=
  (if i < c then F32.zero else if i < c+f then F32.one else ⟨0xbf800000⟩)::
    (List.range (2*f+1)).map fun k => if c+k = i then F32.one else F32.zero

def splitRows (c f : ℕ) : List (List F32) := (List.range (c+(2*f+1))).map (splitRow c f)

def splitBatch (c f : ℕ) : List ClientDelta :=
  (List.range (c+(2*f+1))).map fun i => ⟨"",1,encodeWeights (splitRow c f i),1,none,none,none⟩

/-- The sign of a row. -/
def splitSign (c f i : ℕ) : ℝ := if i < c then 0 else if i < c+f then 1 else -1

/-- Whether a row has a bit of its own. -/
def splitBit (c f i : ℕ) : ℝ := if c ≤ i ∧ i < c+(2*f+1) then 1 else 0

section Decoding
variable {c f : ℕ}

theorem length_splitBatch : (splitBatch c f).length = c+(2*f+1) := by
  rw [splitBatch, List.length_map, List.length_range]

theorem finite_splitRow (i : ℕ) : ∀ x ∈ splitRow c f i, x.isFinite = true := by
  intro x hx
  have hcases : x = F32.zero ∨ x = F32.one ∨ x = ⟨0xbf800000⟩ := by
    simp only [splitRow, List.mem_cons, List.mem_map] at hx
    obtain rfl | ⟨k,-,rfl⟩ := hx
    · split_ifs <;> simp
    · split_ifs <;> simp
  obtain rfl | rfl | rfl := hcases <;> decide +kernel

theorem decode_splitBatch : decodeAndValidate (splitBatch c f) = .ok (splitRows c f) := by
  have hall : ∀ u ∈ splitBatch c f, decodeWeights u.weights = .ok (words u.weights) ∧
      (words u.weights).length = 2*f+2 ∧ (∀ x ∈ words u.weights, x.isFinite = true) ∧
        u.numSamples ≤ maxPlausibleSampleCount := by
    intro u hu
    obtain ⟨i,-,rfl⟩ := List.mem_map.mp hu
    dsimp only
    rw [words_encodeWeights]
    exact ⟨decodeWeights_encodeWeights _,by simp [splitRow],finite_splitRow i,by decide⟩
  rw [decodeAndValidate_of hall]
  simp [splitBatch,splitRows,words_encodeWeights]

end Decoding

section Distances
variable (c f : ℕ)

theorem ofF32_zero : (Floating.ofF32 F32.zero : ℝ) = 0 := rfl

theorem ofF32_one : (Floating.ofF32 F32.one : ℝ) = 1 := F32.toReal_one

theorem ofF32_minusOne : (Floating.ofF32 (⟨0xbf800000⟩ : F32) : ℝ) = -1 := by
  change F32.toReal ⟨0xbf800000⟩ = -1
  have hu : (⟨0xbf800000⟩ : F32).unpacked = .finite .negative (2^23) (-23) (by decide) := rfl
  rw [F32.toReal, F32.value_unpacked, hu]
  norm_num

/-- A row in exact arithmetic. -/
theorem embed_splitRow (i : ℕ) : (splitRow c f i).map (Floating.ofF32 : F32 → ℝ) =
    splitSign c f i::(List.range (2*f+1)).map fun k => if c+k = i then 1 else 0 := by
  rw [splitRow, List.map_cons, List.map_map]
  congr 1
  · unfold splitSign
    split_ifs
    · rfl
    · exact ofF32_one
    · exact ofF32_minusOne
  · refine List.map_congr_left fun k _ => ?_
    rw [Function.comp_apply, apply_ite Floating.ofF32, ofF32_one, ofF32_zero]

theorem sum_bits (c m i : ℕ) : ((List.range m).map fun k => if c+k = i then (1 : ℝ) else 0).sum =
    if c ≤ i ∧ i < c+m then 1 else 0 := by
  induction m with
  | zero => rw [if_neg (by omega), List.range_zero, List.map_nil, List.sum_nil]
  | succ m ih =>
    rw [List.range_succ, List.map_append, List.sum_append, ih, List.map_singleton, List.sum_singleton]
    split_ifs <;> first | omega | norm_num

/-- Two rows differ by their signs and by a bit each. -/
theorem sqDist_splitRows {i j : ℕ} (hi : i < c+(2*f+1)) (hj : j < c+(2*f+1)) (hne : i ≠ j) :
    sqDist (embed (splitRows c f)) i j =
      (splitSign c f i-splitSign c f j)*(splitSign c f i-splitSign c f j)+
        (splitBit c f i+splitBit c f j) := by
  have hrow {k : ℕ} (hk : k < c+(2*f+1)) : (embed (splitRows c f) : List (List ℝ)).getD k [] =
      splitSign c f k::(List.range (2*f+1)).map fun l => if c+l = k then 1 else 0 := by
    rw [getD_embed, splitRows, ← embed_splitRow]
    simp [List.getD_eq_getElem?_getD,hk]
  rw [sqDist, hrow hi, hrow hj, List.zipWith_cons_cons, List.sum_cons]
  congr 1
  rw [splitBit, splitBit, ← sum_bits, ← sum_bits, ← List.sum_map_add]
  rw [List.zipWith_map, List.zipWith_self]
  refine congrArg List.sum (List.map_congr_left fun k _ => ?_)
  split_ifs <;> first | omega | norm_num

variable {c f} {i j : ℕ}

theorem sqDist_core (hi : i < c) (hj : j < c) : sqDist (embed (splitRows c f)) i j = 0 := by
  by_cases hne : i = j
  · rw [hne, sqDist_self]
  · rw [sqDist_splitRows c f (by omega) (by omega) hne, splitSign, splitSign, splitBit, splitBit,
      if_pos hi, if_pos hj, if_neg (by omega), if_neg (by omega)]
    norm_num

/-- Nothing is nearer than 2 to a row outside the core. -/
theorem two_le_sqDist (hi : i < c+(2*f+1)) (hj : j < c+(2*f+1)) (hne : i ≠ j)
    (h : c ≤ i ∨ c ≤ j) : 2 ≤ sqDist (embed (splitRows c f)) i j := by
  rw [sqDist_splitRows c f hi hj hne]
  unfold splitSign splitBit
  split_ifs <;> first | omega | norm_num

/-- As near are the core, and the own group. -/
theorem sqDist_le_two (hi : i < c+(2*f+1)) (hj : j < c+(2*f+1))
    (h : i < c ∨ j < c ∨ (i < c+f ↔ j < c+f)) : sqDist (embed (splitRows c f)) i j ≤ 2 := by
  by_cases hne : i = j
  · rw [hne, sqDist_self]
    norm_num
  · rw [sqDist_splitRows c f hi hj hne]
    unfold splitSign splitBit
    split_ifs <;> first | omega | norm_num

/-- The groups are farther apart. -/
theorem sqDist_across (hi : c ≤ i) (hi' : i < c+f) (hj : c+f ≤ j) (hj' : j < c+(2*f+1)) :
    sqDist (embed (splitRows c f)) i j = 6 ∧ sqDist (embed (splitRows c f)) j i = 6 := by
  rw [sqDist_comm _ j i, sqDist_splitRows c f (by omega) hj' (by omega)]
  unfold splitSign splitBit
  split_ifs <;> first | omega | norm_num

/-- And no rows are. -/
theorem sqDist_le_six (hi : i < c+(2*f+1)) (hj : j < c+(2*f+1)) :
    sqDist (embed (splitRows c f)) i j ≤ 6 := by
  by_cases hne : i = j
  · rw [hne, sqDist_self]
    norm_num
  · rw [sqDist_splitRows c f hi hj hne]
    unfold splitSign splitBit
    split_ifs <;> first | omega | norm_num

end Distances

section Pools
variable {c f : ℕ}

/-- The rows of the pool that is left when the first `i` positions are gone. -/
noncomputable def poolRows (c f i len : ℕ) : List (List ℝ) :=
  (List.range' i len).map fun p => (embed (splitRows c f) : List (List ℝ)).getD p []

theorem length_poolRows (i len : ℕ) : (poolRows c f i len).length = len := by
  rw [poolRows, List.length_map, List.length_range']

theorem sqDist_poolRows {i len a b : ℕ} (ha : a < len) (hb : b < len) :
    sqDist (poolRows c f i len) a b = sqDist (embed (splitRows c f)) (i+a) (i+b) := by
  have hrow {k : ℕ} (hk : k < len) : (poolRows c f i len).getD k [] =
      (embed (splitRows c f) : List (List ℝ)).getD (i+k) [] := by
    simp [poolRows,List.getD_eq_getElem?_getD,List.getElem?_range' hk]
  rw [sqDist, sqDist, hrow ha, hrow hb]

theorem krumBest_range' (count : ℕ → ℕ) (i len : ℕ) :
    krumBest (embed (splitRows c f) : List (List ℝ)) count (List.range' i len) =
      Floating.argMin ((List.range len).map (krumScore (poolRows c f i len) (count len))) := by
  rw [krumBest, poolScores, List.length_range']
  rfl

/-- The position with the first least score, by comparisons with the others. -/
theorem argMin_eq {rows : List (List ℝ)} {q len best : ℕ} (hbest : best < len)
    (hleast : ∀ a < len, krumScore rows q best ≤ krumScore rows q a)
    (hfirst : ∀ a < best, krumScore rows q best < krumScore rows q a) :
    Floating.argMin ((List.range len).map (krumScore rows q)) = best := by
  have hlen : ((List.range len).map (krumScore rows q)).length = len := by
    rw [List.length_map, List.length_range]
  refine (firstLeast_scores (by omega)).unique ⟨by omega,fun a ha => ?_,fun a ha => ?_⟩
  · rw [getD_scores hbest, getD_scores (hlen ▸ ha)]
    exact hleast a (hlen ▸ ha)
  · rw [getD_scores hbest, getD_scores (ha.trans hbest)]
    exact hfirst a ha

theorem countP_below {n k : ℕ} (h : k ≤ n) :
    (List.range n).countP (fun b => decide (b < k)) = k := by
  induction n with
  | zero =>
    obtain rfl : k = 0 := Nat.le_zero.mp h
    rfl
  | succ n ih =>
    rw [List.range_succ, List.countP_append]
    rcases Nat.lt_or_eq_of_le h with hlt | rfl
    · rw [ih (Nat.le_of_lt_succ hlt)]
      simp [show ¬n < k by omega]
    · have hall : (List.range n).countP (fun b => decide (b < n+1)) = (List.range n).length :=
        List.countP_eq_length.mpr fun b hb => by
          have := List.mem_range.mp hb
          exact decide_eq_true (by omega)
      rw [hall, List.length_range]
      simp

theorem countP_above {n k : ℕ} (h : k ≤ n) :
    (List.range n).countP (fun b => decide (k ≤ b)) = n-k := by
  have hsplit := List.length_eq_countP_add_countP (fun b => decide (b < k)) (l := List.range n)
  have hcongr : (List.range n).countP (fun b => decide (k ≤ b)) =
      (List.range n).countP fun b => decide ¬decide (b < k) = true :=
    List.countP_congr fun b _ => by simp
  rw [countP_below h, List.length_range] at hsplit
  omega

/-- The core wins as long as there is one: its first row is the first with the least score,
whatever the number of neighbours. -/
theorem krumBest_core {i : ℕ} (hi : i < c) {count : ℕ → ℕ}
    (hcount : count (c+(2*f+1)-i) ≤ c+(2*f+1)-i-1) :
    krumBest (embed (splitRows c f) : List (List ℝ)) count
      (List.range' i (c+(2*f+1)-i)) = 0 := by
  rw [krumBest_range']
  generalize count (c+(2*f+1)-i) = q at hcount ⊢
  obtain ⟨len,hlen⟩ : ∃ len, len = c+(2*f+1)-i := ⟨_,rfl⟩
  rw [← hlen] at hcount ⊢
  have hrows := @length_poolRows c f i len
  -- what is at least 2 from a row: all but the rest of the core
  have hlow (a : ℕ) (ha : a < len) :
      ((q-(c-i-1) : ℕ) : ℝ)*2 ≤ krumScore (poolRows c f i len) q a := by
    have hscore := @le_krumScore_of (poolRows c f i len) a q (hrows.symm ▸ ha) 2 0 (c-i-1)
      (fun b _ _ => sqDist_nonneg _ a b) ?_ (hrows.symm ▸ hcount)
    · rwa [mul_zero, zero_add] at hscore
    · rw [hrows]
      have hcore {b : ℕ} (hb : b < len) (hne : b ≠ a)
          (hlt : sqDist (poolRows c f i len) a b < 2) : a < c-i ∧ b < c-i := by
        rw [sqDist_poolRows ha hb] at hlt
        by_contra hout
        exact hlt.not_ge (two_le_sqDist (by omega) (by omega) (by omega) (by omega))
      by_cases hacore : a < c-i
      · have hothers := @countP_others_lt (fun b => !decide (b < c-i)) len a ha (by simp [hacore])
        simp only [corrupted, Bool.not_not, countP_below (show c-i ≤ len by omega)] at hothers
        refine le_trans (List.countP_mono_left fun b hb hp => ?_) (Nat.le_pred_of_lt hothers)
        rw [Bool.and_eq_true, decide_eq_true_iff, decide_eq_true_iff] at hp ⊢
        exact ⟨(hcore (List.mem_range.mp hb) hp.2 hp.1).2,hp.2⟩
      · rw [List.countP_eq_zero.mpr fun b hb hp => ?_]
        · exact Nat.zero_le _
        · rw [Bool.and_eq_true, decide_eq_true_iff, decide_eq_true_iff] at hp
          exact hacore (hcore (List.mem_range.mp hb) hp.2 hp.1).1
  have hhigh : krumScore (poolRows c f i len) q 0 ≤ ((q-(c-i-1) : ℕ) : ℝ)*2 := by
    have hpos : 0 < len := by omega
    have hscore := @krumScore_le_of (poolRows c f i len) 0 q (hrows.symm ▸ hpos) 0 2 (c-i-1)
      (fun b hb _ => ?_) ?_ (hrows.symm ▸ hcount)
    · rwa [mul_zero, zero_add] at hscore
    · rw [hrows] at hb
      rw [sqDist_poolRows hpos hb]
      exact sqDist_le_two (by omega) (by omega) (.inl hi)
    · rw [hrows]
      have habove : (List.range len).countP (fun b =>
          decide (0 < sqDist (poolRows c f i len) 0 b) && decide (b ≠ 0)) ≤ len-(c-i) := by
        rw [← countP_above (show c-i ≤ len by omega)]
        refine List.countP_mono_left fun b hb hp => ?_
        have hb := List.mem_range.mp hb
        rw [Bool.and_eq_true, decide_eq_true_iff] at hp
        rw [decide_eq_true_iff]
        by_contra hlt
        rw [sqDist_poolRows hpos hb, sqDist_core (by omega) (by omega)] at hp
        exact lt_irrefl _ hp.1
      omega
  exact argMin_eq (by omega) (fun a ha => hhigh.trans (hlow a ha)) fun a ha =>
    absurd ha a.not_lt_zero

/-- When the core is gone: at least 2 for each neighbour. -/
theorem two_mul_le_krumScore {a q : ℕ} (ha : a < 2*f+1) (hq : q ≤ 2*f) :
    (q : ℝ)*2 ≤ krumScore (poolRows c f c (2*f+1)) q a := by
  have hrows := @length_poolRows c f c (2*f+1)
  have hscore := @le_krumScore_of (poolRows c f c (2*f+1)) a q (hrows.symm ▸ ha) 2 0 0
    (fun b _ _ => sqDist_nonneg _ a b) ?_ (by rw [hrows]; exact hq)
  · rwa [mul_zero, zero_add, Nat.sub_zero] at hscore
  · rw [hrows, List.countP_eq_zero.mpr fun b hb hp => ?_]
    have hb := List.mem_range.mp hb
    rw [Bool.and_eq_true, decide_eq_true_iff, decide_eq_true_iff, sqDist_poolRows ha hb] at hp
    exact hp.1.not_ge (two_le_sqDist (by omega) (by omega) (by omega) (by omega))

/-- Only the own group, of `g`, is nearer than 6. -/
theorem le_krumScore_group {own : ℕ → Bool} {a q g : ℕ} (ha : a < 2*f+1) (hown : own a = true)
    (hg : (List.range (2*f+1)).countP own = g)
    (hnear : ∀ b < 2*f+1, b ≠ a → own b = false → 6 ≤ sqDist (embed (splitRows c f)) (c+a) (c+b))
    (hq : q ≤ 2*f) : ((min (g-1) q : ℕ) : ℝ)*2+((q-(g-1) : ℕ) : ℝ)*6 ≤
      krumScore (poolRows c f c (2*f+1)) q a := by
  have hrows := @length_poolRows c f c (2*f+1)
  refine @le_krumScore_of (poolRows c f c (2*f+1)) a q (hrows.symm ▸ ha) 6 2 (g-1)
    (fun b hb hne => ?_) ?_ (by rw [hrows]; exact hq)
  · rw [hrows] at hb
    rw [sqDist_poolRows ha hb]
    exact two_le_sqDist (by omega) (by omega) (by omega) (by omega)
  · rw [hrows]
    have hothers := @countP_others_lt (fun b => !own b) (2*f+1) a ha (by simp [hown])
    simp only [corrupted, Bool.not_not, hg] at hothers
    refine le_trans (List.countP_mono_left fun b hb hp => ?_) (Nat.le_pred_of_lt hothers)
    have hb := List.mem_range.mp hb
    rw [Bool.and_eq_true, decide_eq_true_iff, decide_eq_true_iff, sqDist_poolRows ha hb] at hp
    rw [Bool.and_eq_true, decide_eq_true_iff]
    refine ⟨?_,hp.2⟩
    by_contra hother
    exact hp.1.not_ge (hnear b hb hp.2 (Bool.eq_false_of_not_eq_true hother))

/-- With `f-1` neighbours the first group's first row ties with all, and comes first. -/
theorem krumBest_published (hf : 0 < f) {count : ℕ → ℕ} (hcount : count (2*f+1) = f-1) :
    krumBest (embed (splitRows c f) : List (List ℝ)) count (List.range' c (2*f+1)) = 0 := by
  rw [krumBest_range', hcount]
  have hrows := @length_poolRows c f c (2*f+1)
  have hpos : 0 < 2*f+1 := Nat.succ_pos _
  have hhigh : krumScore (poolRows c f c (2*f+1)) (f-1) 0 ≤ ((f-1 : ℕ) : ℝ)*2 := by
    have hscore := @krumScore_le_of (poolRows c f c (2*f+1)) 0 (f-1) (hrows.symm ▸ hpos) 2 6 (f-1)
      (fun b hb _ => ?_) ?_ (by rw [hrows]; omega)
    · rwa [Nat.min_self, Nat.sub_self, Nat.cast_zero, zero_mul, add_zero] at hscore
    · rw [hrows] at hb
      rw [sqDist_poolRows hpos hb]
      exact sqDist_le_six (by omega) (by omega)
    · rw [hrows]
      have habove : (List.range (2*f+1)).countP (fun b =>
          decide (2 < sqDist (poolRows c f c (2*f+1)) 0 b) && decide (b ≠ 0)) ≤ 2*f+1-f := by
        rw [← countP_above (show f ≤ 2*f+1 by omega)]
        refine List.countP_mono_left fun b hb hp => ?_
        have hb := List.mem_range.mp hb
        rw [Bool.and_eq_true, decide_eq_true_iff, sqDist_poolRows hpos hb] at hp
        rw [decide_eq_true_iff]
        by_contra hlt
        exact hp.1.not_ge (sqDist_le_two (by omega) (by omega) (by omega))
      omega
  exact argMin_eq hpos (fun a ha => hhigh.trans (two_mul_le_krumScore ha (by omega))) fun a ha =>
    absurd ha a.not_lt_zero

/-- With one neighbour more the first row of the larger group wins. -/
theorem krumBest_recomputed (hf : 0 < f) {count : ℕ → ℕ} (hlow : f ≤ count (2*f+1))
    (hhigh : count (2*f+1) ≤ 2*f) :
    krumBest (embed (splitRows c f) : List (List ℝ)) count (List.range' c (2*f+1)) = f := by
  rw [krumBest_range']
  generalize count (2*f+1) = q at hlow hhigh
  have hrows := @length_poolRows c f c (2*f+1)
  have hlt : f < 2*f+1 := by omega
  have hbest : krumScore (poolRows c f c (2*f+1)) q f ≤ (f : ℝ)*2+((q-f : ℕ) : ℝ)*6 := by
    have hscore := @krumScore_le_of (poolRows c f c (2*f+1)) f q (hrows.symm ▸ hlt) 2 6 f
      (fun b hb _ => ?_) ?_ (by rw [hrows]; exact hhigh)
    · rwa [Nat.min_eq_left hlow] at hscore
    · rw [hrows] at hb
      rw [sqDist_poolRows hlt hb]
      exact sqDist_le_six (by omega) (by omega)
    · rw [hrows]
      have hbelow : (List.range (2*f+1)).countP (fun b =>
          decide (2 < sqDist (poolRows c f c (2*f+1)) f b) && decide (b ≠ f)) ≤ f := by
        conv_rhs => rw [← countP_below hlt.le]
        refine List.countP_mono_left fun b hb hp => ?_
        have hb := List.mem_range.mp hb
        rw [Bool.and_eq_true, decide_eq_true_iff, sqDist_poolRows hlt hb] at hp
        rw [decide_eq_true_iff]
        by_contra hge
        exact hp.1.not_ge (sqDist_le_two (by omega) (by omega) (by omega))
      omega
  have hlarger (a : ℕ) (ha : a < 2*f+1) (hfa : f ≤ a) :
      (f : ℝ)*2+((q-f : ℕ) : ℝ)*6 ≤ krumScore (poolRows c f c (2*f+1)) q a := by
    have hscore := @le_krumScore_group c f (fun b => decide (f ≤ b)) a q (f+1) ha
      (decide_eq_true hfa) (by rw [countP_above hlt.le]; omega) (fun b hb _ hother => ?_) hhigh
    · rwa [Nat.add_sub_cancel, Nat.min_eq_left hlow] at hscore
    · have hother := of_decide_eq_false hother
      exact (sqDist_across (show c ≤ c+b by omega) (by omega) (by omega) (by omega)).2.ge
  have hsmaller (a : ℕ) (ha : a < f) :
      (f : ℝ)*2+((q-f : ℕ) : ℝ)*6 < krumScore (poolRows c f c (2*f+1)) q a := by
    have hscore := @le_krumScore_group c f (fun b => decide (b < f)) a q f (by omega)
      (decide_eq_true ha) (countP_below hlt.le) (fun b hb _ hother => ?_) hhigh
    · rw [Nat.min_eq_left (show f-1 ≤ q by omega), show q-(f-1) = q-f+1 by omega,
        Nat.cast_sub (show 1 ≤ f by omega)] at hscore
      push_cast at hscore
      linarith
    · have hother := of_decide_eq_false hother
      exact (sqDist_across (show c ≤ c+a by omega) (by omega) (by omega) (by omega)).1.ge
  refine argMin_eq hlt (fun a ha => ?_) fun a ha => hbest.trans_lt (hsmaller a ha)
  rcases Nat.lt_or_ge a f with h | h
  · exact hbest.trans (hsmaller a h).le
  · exact hbest.trans (hlarger a ha h)

end Pools

end ConfluxFL.Robust
