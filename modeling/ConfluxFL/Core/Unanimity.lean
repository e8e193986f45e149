import Mathlib.Analysis.Complex.ExponentialBounds
import ConfluxFL.Core.ExactBatch
import ConfluxFL.Core.FoolsGoldWeights
import ConfluxFL.Lib.Calls

/-! What FoolsGold makes of what all clients agree on. The weighted updates are divided by their
number and not by the sum of the weights, so the aggregate carries the agreed value times the mean
weight, and lies between zero and the batch. -/
namespace ConfluxFL.Temporal

section Extended

theorem beq_coe (w : ℝ) : Floating.beq (w : EReal) 0 = Floating.beq w 0 :=
  decide_eq_decide.mpr EReal.coe_eq_zero

theorem embed_extended (updates : List ClientDelta) :
    (embed (updates.map fun u => words u.weights) : List (List EReal)) =
      extended (updates.map row) := by
  rw [embed, extended, List.map_map, List.map_map]
  exact List.map_congr_left fun u _ => (List.map_map (f := F32.toReal) (g := Real.toEReal)).symm

theorem zeros_extended (dim : ℕ) : (zeros dim : List EReal) = (zeros dim : List ℝ).map (↑) :=
  (List.map_replicate (f := ((↑) : ℝ → EReal))).symm

theorem addScaled_coe (acc src : List ℝ) (w : ℝ) :
    addScaled (acc.map ((↑) : ℝ → EReal)) (src.map (↑)) (w : EReal) =
      (addScaled acc src w).map (↑) := by
  unfold addScaled
  rw [List.zipWith_map, List.map_zipWith]
  rfl

theorem foldl_addScaled_coe {α : Type} (l : List α) (weight : α → ℝ) (src : α → List ℝ)
    (acc : List ℝ) :
    l.foldl (fun acc p => addScaled acc ((src p).map (↑)) (weight p : EReal)) (acc.map (↑)) =
      (l.foldl (fun acc p => addScaled acc (src p) (weight p)) acc).map ((↑) : ℝ → EReal) := by
  induction l generalizing acc with
  | nil => rfl
  | cons p l ih => rw [List.foldl_cons, addScaled_coe, ih, List.foldl_cons]

/-- The combination is the same in either arithmetic. -/
theorem combine_extended (ws : List ℝ) (rows : List (List ℝ)) :
    combine (ws.map ((↑) : ℝ → EReal)) (extended rows) = (combine ws rows).map (↑) := by
  have hdim : ((extended rows).headD []).length = (rows.headD []).length := by
    cases rows with
    | nil => rfl
    | cons w rows => exact List.length_map _
  have hlen : (extended rows).length = rows.length := List.length_map _
  have hall : ((ws.map ((↑) : ℝ → EReal)).all fun w => Floating.beq w 0) =
      ws.all fun w => Floating.beq w 0 := by
    rw [List.all_map]
    exact congrArg ws.all (funext beq_coe)
  unfold combine sharedMean
  dsimp only
  rw [hdim, hlen, zeros_extended, hall, extended, List.zip_map, List.foldl_map, List.foldl_map]
  split
  · exact foldl_addScaled_coe rows (fun _ => 1/(rows.length : ℝ)) id (zeros _)
  · exact foldl_addScaled_coe (ws.zip rows) (fun p => p.1*(1/(rows.length : ℝ))) Prod.snd (zeros _)

end Extended

section Combining
variable {ws : List ℝ} {rows : List (List ℝ)} {dim k : ℕ}

/-- The weights a batch is combined by: the plain mean's when nobody has any. -/
noncomputable def combiningWeights (ws : List ℝ) : List ℝ :=
  if ws.all fun w => Floating.beq w 0 then List.replicate ws.length 1 else ws

theorem length_combiningWeights (ws : List ℝ) : (combiningWeights ws).length = ws.length := by
  unfold combiningWeights
  split
  · exact List.length_replicate
  · rfl

theorem combiningWeights_mem (h : ∀ w ∈ ws, 0 ≤ w ∧ w ≤ 1) :
    ∀ w ∈ combiningWeights ws, 0 ≤ w ∧ w ≤ 1 := by
  unfold combiningWeights
  split
  · intro w hw
    rw [List.eq_of_mem_replicate hw]
    exact ⟨zero_le_one,le_rfl⟩
  · exact h

theorem getD_foldl_addScaled {α : Type} {l : List α} (src : α → List ℝ) (weight : α → ℝ)
    (hsrc : ∀ p ∈ l, (src p).length = dim) (hk : k < dim) :
    (l.foldl (fun acc p => addScaled acc (src p) (weight p)) (zeros dim)).getD k 0 =
      (l.map fun p => (src p).getD k 0*weight p).sum := by
  have hstep (acc : List ℝ) (p : α) (hp : p ∈ l) (hacc : acc.length = dim) :
      (addScaled acc (src p) (weight p)).length = dim ∧ ∀ k < dim,
        (addScaled acc (src p) (weight p)).getD k 0 = acc.getD k 0+(src p).getD k 0*weight p :=
    ⟨length_addScaled hacc (hsrc p hp) _,fun k hk =>
      Coordinates.getD_zipWith 0 0 0 (hacc.symm ▸ hk) ((hsrc p hp).symm ▸ hk)⟩
  obtain ⟨-,hget⟩ := Coordinates.foldl_spec hstep (length_zeros dim)
  rw [hget k hk, zeros, List.getD_replicate _ hk, zero_add]

/-- A coordinate of the combination. -/
theorem getD_combine (hlen : ws.length = rows.length) (hrows : ∀ w ∈ rows, w.length = dim)
    (hhead : (rows.headD []).length = dim) (hk : k < dim) : (combine ws rows).getD k 0 =
      (((combiningWeights ws).zip rows).map fun p : ℝ × List ℝ =>
        p.2.getD k 0*(p.1*(1/(rows.length : ℝ)))).sum := by
  have hfold (zipped : List (ℝ × List ℝ)) (hmem : ∀ p ∈ zipped, p.2 ∈ rows) :=
    getD_foldl_addScaled Prod.snd (fun p : ℝ × List ℝ => p.1*(1/(rows.length : ℝ)))
      (fun p hp => hrows p.2 (hmem p hp)) hk
  have hmean : sharedMean dim rows = ((List.replicate ws.length 1).zip rows).foldl
      (fun acc p => addScaled acc p.2 (p.1*(1/(rows.length : ℝ)))) (zeros dim) := by
    have hzip : (List.replicate ws.length (1 : ℝ)).zip rows = rows.map fun w => (1,w) := by
      have h := List.zip_map' (f := fun _ => (1 : ℝ)) (g := id) (l := rows)
      rwa [List.map_id, List.map_const', ← hlen] at h
    rw [hzip, List.foldl_map, sharedMean]
    simp only [one_mul]
    rfl
  unfold combine combiningWeights
  dsimp only
  rw [hhead]
  split
  · rw [hmean]
    exact hfold _ fun p hp => (List.of_mem_zip hp).2
  · exact hfold _ fun p hp => (List.of_mem_zip hp).2

section Bounds
variable {n : ℕ}

/-- Where the updates agree, the agreed value comes out times the mean weight. -/
theorem sum_zip_const (hlen : ws.length = rows.length) {c : ℝ} (h : ∀ w ∈ rows, w.getD k 0 = c) :
    ((ws.zip rows).map fun p : ℝ × List ℝ => p.2.getD k 0*(p.1*(1/(n : ℝ)))).sum =
      c*(ws.sum/n) := by
  have hterms : (ws.zip rows).map (fun p : ℝ × List ℝ => p.2.getD k 0*(p.1*(1/(n : ℝ)))) =
      ((ws.zip rows).map Prod.fst).map fun w => w*(c/n) := by
    rw [List.map_map]
    refine List.map_congr_left fun p hp => ?_
    rw [h p.2 (List.of_mem_zip hp).2, Function.comp_apply]
    ring
  rw [hterms, List.map_fst_zip hlen.le, List.sum_map_mul_right, List.map_id']
  ring

/-- And elsewhere a value between zero and the updates'. -/
theorem sum_zip_mem (hlen : ws.length = rows.length) (hn : rows.length = n) (hpos : 0 < n)
    (hws : ∀ w ∈ ws, 0 ≤ w ∧ w ≤ 1) {lo hi : ℝ}
    (h : ∀ w ∈ rows, lo ≤ w.getD k 0 ∧ w.getD k 0 ≤ hi) :
    min 0 lo ≤ ((ws.zip rows).map fun p : ℝ × List ℝ => p.2.getD k 0*(p.1*(1/(n : ℝ)))).sum ∧
      ((ws.zip rows).map fun p : ℝ × List ℝ => p.2.getD k 0*(p.1*(1/(n : ℝ)))).sum ≤ max 0 hi := by
  have hn0 : (0 : ℝ) < n := Nat.cast_pos.mpr hpos
  have hcount : ((ws.zip rows).map fun p : ℝ × List ℝ =>
      p.2.getD k 0*(p.1*(1/(n : ℝ)))).length = n := by
    rw [List.length_map, List.length_zip, hlen, hn, Nat.min_self]
  have hshare (b : ℝ) : n•(b/n) = b := by
    rw [nsmul_eq_mul, mul_div_cancel₀ b hn0.ne']
  have hterm : ∀ y ∈ (ws.zip rows).map fun p : ℝ × List ℝ => p.2.getD k 0*(p.1*(1/(n : ℝ))),
      min 0 lo/n ≤ y ∧ y ≤ max 0 hi/n := by
    intro y hy
    obtain ⟨p,hp,rfl⟩ := List.mem_map.mp hy
    obtain ⟨hw0,hw1⟩ := hws p.1 (List.of_mem_zip hp).1
    obtain ⟨hlo,hhi⟩ := h p.2 (List.of_mem_zip hp).2
    have hmul : p.2.getD k 0*(p.1*(1/(n : ℝ))) = p.2.getD k 0*p.1/n := by ring
    rw [hmul]
    constructor
    · refine div_le_div_of_nonneg_right ?_ hn0.le
      calc min 0 lo
        _ ≤ min 0 lo*p.1 := le_mul_of_le_one_right (min_le_left 0 lo) hw1
        _ ≤ p.2.getD k 0*p.1 := mul_le_mul_of_nonneg_right ((min_le_right 0 lo).trans hlo) hw0
    · refine div_le_div_of_nonneg_right ?_ hn0.le
      calc p.2.getD k 0*p.1
        _ ≤ max 0 hi*p.1 := mul_le_mul_of_nonneg_right (hhi.trans (le_max_right 0 hi)) hw0
        _ ≤ max 0 hi := mul_le_of_le_one_right (le_max_left 0 hi) hw1
  have hlower := List.card_nsmul_le_sum _ _ fun y hy => (hterm y hy).1
  have hupper := List.sum_le_card_nsmul _ _ fun y hy => (hterm y hy).2
  rw [hcount, hshare] at hlower hupper
  exact ⟨hlower,hupper⟩

end Bounds
end Combining

section Rounds
variable {updates : List ClientDelta} {dim : ℕ}

/-- The histories a batch is weighed by. -/
noncomputable def roundHistories (history : History EReal) (updates : List ClientDelta) :
    List (List EReal) :=
  (recordBatch history
    ((updates.map ClientDelta.clientId).zip (extended (updates.map row)))).1

/-- The weights a batch is combined by; a single update stands for itself. -/
noncomputable def roundWeights (history : History EReal) (updates : List ClientDelta) : List ℝ :=
  if updates.length = 1 then [1]
  else combiningWeights
    ((foolsgoldWeights (roundHistories history updates)).map EReal.toReal)

noncomputable def meanWeight (history : History EReal) (updates : List ClientDelta) : ℝ :=
  (roundWeights history updates).sum/updates.length

theorem length_recordBatch {ν : Type} [Floating ν] (history : History ν)
    (batch : List (String × List ν)) : (recordBatch history batch).1.length = batch.length := by
  induction batch generalizing history with
  | nil => rfl
  | cons e batch ih => exact congrArg Nat.succ (ih _)

theorem length_roundHistories (history : History EReal) (updates : List ClientDelta) :
    (roundHistories history updates).length = updates.length := by
  rw [roundHistories, length_recordBatch, List.length_zip, extended, List.length_map,
    List.length_map, List.length_map, Nat.min_self]

theorem length_roundWeights (history : History EReal) (updates : List ClientDelta) :
    (roundWeights history updates).length = updates.length := by
  unfold roundWeights
  split
  · rename_i hone
    exact hone.symm
  · rw [length_combiningWeights, List.length_map, length_foolsgoldWeights, length_roundHistories]

theorem coe_toReal_of_mem {w : EReal} (h : 0 ≤ w ∧ w ≤ 1) : (w.toReal : EReal) = w :=
  EReal.coe_toReal (ne_top_of_le_ne_top (EReal.coe_ne_top 1) h.2) (ne_bot_of_le_ne_bot EReal.zero_ne_bot h.1)

theorem roundWeights_mem (history : History EReal) (updates : List ClientDelta) :
    ∀ w ∈ roundWeights history updates, 0 ≤ w ∧ w ≤ 1 := by
  unfold roundWeights
  split
  · intro w hw
    rw [List.mem_singleton.mp hw]
    exact ⟨zero_le_one,le_rfl⟩
  · refine combiningWeights_mem fun w hw => ?_
    obtain ⟨e,he,rfl⟩ := List.mem_map.mp hw
    have hmem := foolsgoldWeights_mem he
    have hcoe := coe_toReal_of_mem hmem
    exact ⟨EReal.coe_nonneg.mp (hmem.1.trans hcoe.ge),EReal.coe_le_coe_iff.mp (hcoe.le.trans hmem.2)⟩

theorem meanWeight_mem (history : History EReal) (updates : List ClientDelta) :
    0 ≤ meanWeight history updates ∧ meanWeight history updates ≤ 1 := by
  have hsum := List.sum_le_card_nsmul _ 1 fun w hw => (roundWeights_mem history updates w hw).2
  rw [length_roundWeights, nsmul_eq_mul, mul_one] at hsum
  exact ⟨div_nonneg (List.sum_nonneg fun w hw => (roundWeights_mem history updates w hw).1)
    (Nat.cast_nonneg _),div_le_one_of_le₀ hsum (Nat.cast_nonneg _)⟩

/-- What a round answers, coordinate by coordinate. -/
theorem foolsGold_extended (history : History EReal) (h : Accepted updates dim) :
    ∃ out : List ℝ, (foolsGold history updates).1 = .ok (out.map (↑)) ∧ out.length = dim ∧
      ∀ k < dim, out.getD k 0 = (((roundWeights history updates).zip (updates.map row)).map
        fun p : ℝ × List ℝ => p.2.getD k 0*(p.1*(1/(updates.length : ℝ)))).sum := by
  have hrows : ∀ w ∈ updates.map row, w.length = dim := fun w hw => by
    obtain ⟨u,hu,rfl⟩ := List.mem_map.mp hw
    exact h.length_row hu
  have hhead : ((updates.map row).headD []).length = dim := by
    rw [← embed_words, length_headD_embed, h.length_headD]
  unfold foolsGold
  rw [h.onBatch]
  dsimp only
  rw [embed_extended]
  change ∃ out : List ℝ, (if updates.length = 1 then _ else
    (Except.ok (combine (foolsgoldWeights (roundHistories history updates)) _),_)).1 = _ ∧ _
  by_cases hone : updates.length = 1
  · obtain ⟨u,rfl⟩ := List.length_eq_one_iff.mp hone
    rw [if_pos hone]
    refine ⟨row u,rfl,hhead,fun k hk => ?_⟩
    rw [roundWeights, if_pos hone]
    simp
  · rw [if_neg hone]
    generalize hws : (foolsgoldWeights (roundHistories history updates)).map EReal.toReal = ws
    have hweights : foolsgoldWeights (roundHistories history updates) = ws.map (↑) := by
      rw [← hws, List.map_map]
      exact (List.map_id _).symm.trans (List.map_congr_left fun w hw =>
        (coe_toReal_of_mem (foolsgoldWeights_mem hw)).symm)
    have hlen : ws.length = (updates.map row).length := by
      rw [← hws, List.length_map, length_foolsgoldWeights, length_roundHistories, List.length_map]
    rw [hweights, combine_extended]
    refine ⟨_,rfl,length_combine hhead hrows,fun k hk => ?_⟩
    rw [getD_combine hlen hrows hhead hk, roundWeights, if_neg hone, hws, List.length_map]

theorem sum_agreed (history : History EReal) (updates : List ClientDelta) {k : ℕ} {c : ℝ}
    (hc : ∀ u ∈ updates, (row u).getD k 0 = c) :
    (((roundWeights history updates).zip (updates.map row)).map fun p : ℝ × List ℝ =>
      p.2.getD k 0*(p.1*(1/(updates.length : ℝ)))).sum = c*meanWeight history updates := by
  refine sum_zip_const (by rw [length_roundWeights, List.length_map]) fun w hw => ?_
  obtain ⟨u,hu,rfl⟩ := List.mem_map.mp hw
  exact hc u hu

/-- Where the updates agree the aggregate carries the agreed value times the mean of the round's
weights, which is a share of one, and everywhere it lies between zero and the batch. -/
def ScalesUnanimity (history : History EReal) (updates : List ClientDelta) (dim : ℕ) : Prop :=
  ∃ out : List ℝ, (foolsGold history updates).1 = .ok (out.map (↑)) ∧ out.length = dim ∧
    0 ≤ meanWeight history updates ∧ meanWeight history updates ≤ 1 ∧
    ∀ k < dim, (∀ c, (∀ u ∈ updates, (row u).getD k 0 = c) →
        out.getD k 0 = c*meanWeight history updates) ∧
      ∀ lo hi, (∀ u ∈ updates, lo ≤ (row u).getD k 0 ∧ (row u).getD k 0 ≤ hi) →
        min 0 lo ≤ out.getD k 0 ∧ out.getD k 0 ≤ max 0 hi

/-- It does so over any history, and so over any that a run reaches. -/
theorem foolsGold_scalesUnanimity (history : History EReal) (h : Accepted updates dim) :
    ScalesUnanimity history updates dim := by
  obtain ⟨out,hout,hdim,hget⟩ := foolsGold_extended history h
  have hlen : (roundWeights history updates).length = (updates.map row).length := by
    rw [length_roundWeights, List.length_map]
  obtain ⟨h0,h1⟩ := meanWeight_mem history updates
  refine ⟨out,hout,hdim,h0,h1,fun k hk => ⟨fun c hc => ?_,fun lo hi hbounds => ?_⟩⟩
  · rw [hget k hk]
    exact sum_agreed history updates hc
  · rw [hget k hk]
    refine sum_zip_mem hlen (List.length_map _) (List.length_pos_iff.mpr h.1)
      (roundWeights_mem history updates) fun w hw => ?_
    obtain ⟨u,hu,rfl⟩ := List.mem_map.mp hw
    exact hbounds u hu

end Rounds

section Suspects

theorem dot_coe (a b : List ℝ) :
    Robust.dot (a.map ((↑) : ℝ → EReal)) (b.map (↑)) = ((Robust.dot a b : ℝ) : EReal) := by
  unfold Robust.dot
  rw [Floating.sum_coe, List.zipWith_map, List.map_zipWith]
  rfl

theorem cosineSimilarity_coe (a b : List ℝ) :
    cosineSimilarity (a.map ((↑) : ℝ → EReal)) (b.map (↑)) =
      ((cosineSimilarity a b : ℝ) : EReal) := by
  have hsqrt (x : ℝ) : Floating.sqrt (x : EReal) = ((Floating.sqrt x : ℝ) : EReal) :=
    if_neg (EReal.coe_ne_top x)
  unfold cosineSimilarity
  dsimp only
  rw [dot_coe, dot_coe, dot_coe, hsqrt, hsqrt, beq_coe, beq_coe]
  split <;> rfl

theorem similarity_extended {rows : List (List ℝ)} {i j : ℕ} :
    similarity (extended rows) i j = ((similarity rows i j : ℝ) : EReal) := by
  have hrow (k : ℕ) : (extended rows).getD k [] = (rows.getD k []).map (↑) :=
    List.getD_map rows [] (List.map Real.toEReal)
  unfold similarity
  rw [hrow, hrow, cosineSimilarity_coe]
  split <;> rfl

section Entries
variable (n : ℕ) (c : ℕ → ℕ → ℝ) (i j : ℕ)

theorem rowMax_coe : rowMax n (fun i j => (c i j : EReal)) i = ((rowMax n c i : ℝ) : EReal) := by
  unfold rowMax
  rw [Floating.foldl_max_coe, List.map_map]
  rfl

theorem pardonedEntry_coe : pardonedEntry n (fun i j => (c i j : EReal)) i j =
    ((pardonedEntry n c i j : ℝ) : EReal) := by
  have hlt (x y : ℝ) : Floating.lt (x : EReal) y = Floating.lt x y :=
    decide_eq_decide.mpr EReal.coe_lt_coe_iff
  unfold pardonedEntry
  rw [rowMax_coe, rowMax_coe, hlt]
  split <;> rfl

theorem distinctness_coe : distinctness n (fun i j => (c i j : EReal)) i =
    ((distinctness n c i : ℝ) : EReal) := by
  unfold distinctness
  rw [funext fun i => funext (pardonedEntry_coe n c i), rowMax_coe, Floating.clamp_coe]
  rfl

theorem maxDistinctness_coe : maxDistinctness n (fun i j => (c i j : EReal)) =
    ((maxDistinctness n c : ℝ) : EReal) := by
  unfold maxDistinctness
  rw [Floating.foldl_max_coe, List.map_map]
  exact congrArg (fun l => List.foldl Floating.max 0 l)
    (List.map_congr_left fun i _ => distinctness_coe n c i)

end Entries

/-- Who is not distinct at all weighs nothing: the logarithm is minus infinity. -/
theorem sharpened_zero (m : EReal) : sharpened m 0 = 0 := by
  have hle : Floating.le (1 : EReal) 0 = false := decide_eq_false (not_le.mpr zero_lt_one)
  unfold sharpened
  dsimp only
  rw [EReal.zero_div, if_neg (by rw [hle]; exact Bool.false_ne_true), EReal.zero_div,
    Floating.ln_extended_zero, EReal.bot_add]
  exact if_pos (decide_eq_true EReal.bot_lt_zero)

/-- The most distinct weighs as much as one can. -/
theorem sharpened_self {m : ℝ} (h : 0 < m) : sharpened (m : EReal) m = 1 := by
  have hone : (m : EReal)/m = 1 :=
    EReal.div_self (EReal.coe_ne_bot m) (EReal.coe_ne_top m) (EReal.coe_ne_zero.mpr h.ne')
  have hodds : Floating.ln ((0.99 : EReal)/(1-0.99)) = ((Real.log (0.99/(1-0.99)) : ℝ) : EReal) := by
    change ENNReal.log ((0.99/(1-0.99) : ℝ) : EReal).toENNReal = _
    rw [EReal.toENNReal_of_ne_top (EReal.coe_ne_top _), EReal.toReal_coe,
      ENNReal.log_ofReal_of_pos (by norm_num)]
  have hlog : 1 < Real.log (0.99/(1-0.99)) := by
    rw [Real.lt_log_iff_exp_lt (by norm_num)]
    exact Real.exp_one_lt_d9.trans (by norm_num)
  have hle : Floating.le (1 : EReal) 1 = true := decide_eq_true le_rfl
  unfold sharpened
  dsimp only
  rw [hone, if_pos hle, hodds]
  change Floating.clamp ((Real.log (0.99/(1-0.99))+0.5 : ℝ) : EReal) 0 1 = 1
  rw [← Floating.clamp_coe]
  have hlo : Floating.lt (Real.log (0.99/(1-0.99))+0.5) 0 = false :=
    decide_eq_false (not_lt.mpr (by linarith))
  have hhi : Floating.lt 1 (Real.log (0.99/(1-0.99))+0.5) = true := decide_eq_true (by linarith)
  unfold Floating.clamp
  rw [if_neg (ne_true_of_eq_false hlo), if_pos hhi]
  rfl

/-- The histories of clients that are new and distinct are what they sent. -/
theorem recordBatch_new {batch : List (String × List EReal)} {history : History EReal}
    (hnew : ∀ e ∈ batch, history.lookup e.1 = none) (hnodup : (batch.map Prod.fst).Nodup) :
    (recordBatch history batch).1 = batch.map Prod.snd := by
  induction batch generalizing history with
  | nil => rfl
  | cons e batch ih =>
    have hadd (w : List EReal) : addInto (zeros w.length) w = w := by
      induction w with
      | nil => rfl
      | cons x w ih => exact congrArg₂ List.cons (zero_add x) ih
    have hfirst : recordUpdate history e.1 e.2 = history.upsert e.1 e.2 := by
      rw [recordUpdate, hnew e List.mem_cons_self, Option.getD_none, hadd]
    rw [List.map_cons, List.nodup_cons] at hnodup
    have hnew' : ∀ e' ∈ batch, (history.upsert e.1 e.2).lookup e'.1 = none := fun e' he' => by
      have hne : e'.1 ≠ e.1 := fun heq => hnodup.1 (heq ▸ List.mem_map_of_mem he')
      rw [KeyedTable.lookup_upsert_ne _ hne]
      exact hnew e' (List.mem_cons_of_mem e he')
    have hrest := ih hnew' hnodup.2
    change ((recordUpdate history e.1 e.2).lookup e.1).getD []::
      (recordBatch (recordUpdate history e.1 e.2) batch).1 = _
    rw [hfirst, hrest, KeyedTable.lookup_upsert_self]
    rfl

/-- What the server remembers after some batches. -/
noncomputable def historyAfter (batches : List (List ClientDelta)) : History EReal :=
  Calls.after foolsGold .empty batches

/-- The aggregate carries what all updates agree on. -/
def PreservesUnanimity (history : History EReal) (updates : List ClientDelta) : Prop :=
  ∀ out, (foolsGold history updates).1 = .ok out → ∀ k < out.length, ∀ c : ℝ,
    (∀ u ∈ updates, (row u).getD k 0 = c) → out.getD k 0 = c

/-- Two clients sent the same, and the third agrees with them at the first coordinate. -/
def alikePair : List ClientDelta :=
  [sent "a" [F32.one,F32.zero,F32.zero,F32.zero],sent "b" [F32.one,F32.zero,F32.zero,F32.zero],
    sent "c" [F32.one,F32.one,F32.one,F32.one]]

theorem accepted_alikePair : Accepted alikePair 4 :=
  ⟨List.cons_ne_nil _ _,[[F32.one,F32.zero,F32.zero,F32.zero],[F32.one,F32.zero,F32.zero,F32.zero],
    [F32.one,F32.one,F32.one,F32.one]],by decide +kernel,rfl⟩

def alikeRows : List (List ℝ) := [[1,0,0,0],[1,0,0,0],[1,1,1,1]]

theorem rows_alikePair : alikePair.map row = alikeRows := by
  simp [alikePair, alikeRows, row_sent]

/-- The pair is as similar as can be, to each other; the third is similar to them by half. -/
theorem similarity_alikeRows :
    similarity alikeRows 0 1 = 1 ∧ similarity alikeRows 1 0 = 1 ∧
      similarity alikeRows 0 2 = 1/2 ∧ similarity alikeRows 1 2 = 1/2 ∧
      similarity alikeRows 2 0 = 1/2 ∧ similarity alikeRows 2 1 = 1/2 := by
  have hlong : Floating.sqrt (1+(1+(1+1)) : ℝ) = 2 := by
    change √(1+(1+(1+1)) : ℝ) = 2
    rw [show (1+(1+(1+1)) : ℝ) = 2^2 by norm_num, Real.sqrt_sq zero_le_two]
  have hone : Floating.sqrt (1 : ℝ) = 1 := Real.sqrt_one
  have hbeq (x y : ℝ) : Floating.beq x y = decide (x = y) := rfl
  simp [similarity, cosineSimilarity, Robust.dot, alikeRows, hbeq, hone, hlong]

theorem distinctness_alikeRows : distinctness 3 (similarity alikeRows) 0 = 0 ∧
    distinctness 3 (similarity alikeRows) 1 = 0 ∧
    distinctness 3 (similarity alikeRows) 2 = 3/4 := by
  obtain ⟨h01,h10,h02,h12,h20,h21⟩ := similarity_alikeRows
  have hself (i : ℕ) : similarity alikeRows i i = 0 := if_pos rfl
  have hclamp (x : ℝ) : Floating.clamp x 0 1 = if x < 0 then 0 else if 1 < x then 1 else x := by
    unfold Floating.clamp
    exact if_congr decide_eq_true_iff rfl (if_congr decide_eq_true_iff rfl rfl)
  have hrow (c : ℕ → ℕ → ℝ) (i : ℕ) :
      rowMax 3 c i = max (max (max 0 (c i 0)) (c i 1)) (c i 2) := by
    simp [rowMax, List.range_succ]
  have hmax0 : rowMax 3 (similarity alikeRows) 0 = 1 := by
    rw [hrow, hself, h01, h02]
    norm_num
  have hmax1 : rowMax 3 (similarity alikeRows) 1 = 1 := by
    rw [hrow, hself, h10, h12]
    norm_num
  have hmax2 : rowMax 3 (similarity alikeRows) 2 = 1/2 := by
    rw [hrow, hself, h20, h21]
    norm_num
  unfold distinctness
  rw [hrow, hrow, hrow]
  simp only [pardonedEntry, hmax0, hmax1, hmax2, hself, h01, h10, h02, h12, h20, h21, hclamp,
    Floating.lt_real, decide_eq_true_eq]
  norm_num

theorem maxDistinctness_alikeRows : maxDistinctness 3 (similarity alikeRows) = 3/4 := by
  obtain ⟨h0,h1,h2⟩ := distinctness_alikeRows
  have hpos : (0 : ℝ) ≤ 3/4 := by norm_num
  simp [maxDistinctness, List.range_succ, h0, h1, h2, hpos]

theorem foolsgoldWeights_alikeRows : foolsgoldWeights (extended alikeRows) = [0,0,1] := by
  obtain ⟨h0,h1,h2⟩ := distinctness_alikeRows
  have hsimilarity : similarity (extended alikeRows) =
      fun i j => ((similarity alikeRows i j : ℝ) : EReal) :=
    funext fun i => funext fun j => similarity_extended
  have hpos : Floating.le (((3/4 : ℝ) : EReal)) 0 = false :=
    decide_eq_false (not_le.mpr (EReal.coe_pos.mpr (by norm_num)))
  have hlen : (extended alikeRows).length = 3 := rfl
  rw [foolsgoldWeights_eq, hsimilarity, hlen]
  have hweight (i : ℕ) : weightOf 3 (fun i j => ((similarity alikeRows i j : ℝ) : EReal)) i =
      sharpened ((3/4 : ℝ) : EReal) ((distinctness 3 (similarity alikeRows) i : ℝ) : EReal) := by
    rw [weightOf, maxDistinctness_coe, maxDistinctness_alikeRows, distinctness_coe,
      if_neg (ne_true_of_eq_false hpos)]
  simp only [List.range_succ, List.range_zero, List.nil_append, List.map_cons,
    List.map_nil, List.cons_append, hweight, h0, h1, h2, EReal.coe_zero, sharpened_zero,
    sharpened_self (show (0 : ℝ) < 3/4 by norm_num)]

theorem meanWeight_alikePair : meanWeight .empty alikePair = 1/3 := by
  have hhistories : roundHistories .empty alikePair = extended alikeRows := by
    unfold roundHistories
    rw [rows_alikePair, recordBatch_new (fun _ _ => rfl) (by decide)]
    rfl
  have hweights : roundWeights .empty alikePair = [0,0,1] := by
    rw [roundWeights, if_neg (by decide), hhistories, foolsgoldWeights_alikeRows]
    unfold combiningWeights
    simp [Floating.beq]
  rw [meanWeight, hweights]
  simp [alikePair]

/-- Before any other batch: the two that are alike weigh nothing, so what all three agree on comes
out as a third of it. -/
theorem not_preservesUnanimity :
    ¬∀ batches updates, PreservesUnanimity (historyAfter batches) updates := by
  intro h
  obtain ⟨out,hout,hdim,hget⟩ := foolsGold_extended .empty accepted_alikePair
  have hone : ∀ u ∈ alikePair, (row u).getD 0 0 = 1 := by
    simp [alikePair, row_sent]
  have hagreed := (hget 0 (by decide)).trans (sum_agreed .empty alikePair hone)
  have hvalue := h [] alikePair _ hout 0 (by rw [List.length_map, hdim]; decide) 1 hone
  rw [meanWeight_alikePair] at hagreed
  have hcoe : (out.map ((↑) : ℝ → EReal)).getD 0 0 = ((out.getD 0 0 : ℝ) : EReal) :=
    List.getD_map out 0 _
  rw [hcoe, hagreed, EReal.coe_eq_coe_iff] at hvalue
  norm_num at hvalue

theorem foolsGold_scalesUnanimity_alikePair : ScalesUnanimity .empty alikePair 4 :=
  foolsGold_scalesUnanimity .empty accepted_alikePair

end Suspects
end ConfluxFL.Temporal
