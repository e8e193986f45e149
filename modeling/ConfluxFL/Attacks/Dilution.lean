import ConfluxFL.Attacks.AdaptiveEvasion
import ConfluxFL.Core.Euclid
import ConfluxFL.Lib.Means

/-! The adaptive attacker against plain averaging, in exact arithmetic. The share it expects the
honest clients to have in the average comes from this round's counts, the share they had from the
samples of the round before; it keeps escalating as long as the two stay close enough. -/
namespace ConfluxFL.Attacks

section Euclid
variable {n : ℕ} {a b : List ℝ}

theorem l2Distance_real (ha : a.length = n) (hb : b.length = n) :
    Robust.l2Distance a b = ‖euclid n a-euclid n b‖ := by
  unfold Robust.l2Distance
  rw [Floating.sum_real, EuclideanSpace.norm_eq]
  refine congrArg Real.sqrt ((sum_zipWith _ ha hb).trans (Finset.sum_congr rfl fun i _ => ?_))
  rw [Real.norm_eq_abs, sq_abs, sq]
  rfl

theorem l2Norm_real (ha : a.length = n) : l2Norm a = ‖euclid n a‖ := by
  have hself := sum_zipWith (fun x _ => x*x) ha ha
  unfold l2Norm
  rw [Floating.sum_real, EuclideanSpace.norm_eq]
  refine congrArg Real.sqrt (Eq.trans ?_ (hself.trans (Finset.sum_congr rfl fun i _ => ?_)))
  · rw [List.zipWith_self]
  · rw [Real.norm_eq_abs, sq_abs, sq]

theorem euclid_map_mul (n : ℕ) (a : List ℝ) (c : ℝ) :
    euclid n (a.map fun x => x*c) = c • euclid n a := by
  ext i
  by_cases hi : (i : ℕ) < a.length <;> simp [List.getD_eq_getElem?_getD, hi, mul_comm]

end Euclid

section Batches
variable {n : ℕ} {us : List (Submission ℝ)}

noncomputable def samples (us : List (Submission ℝ)) : ℝ :=
  (us.map fun u => (u.numSamples : ℝ)).sum

/-- The mean of a batch by its sample counts. -/
noncomputable def center (n : ℕ) (us : List (Submission ℝ)) : EuclideanSpace ℝ (Fin n) :=
  Means.weighted us (fun u => (u.numSamples : ℝ)) fun u => euclid n u.weights

/-- The updates added up by their sample counts. -/
noncomputable def weightedSum (n : ℕ) (us : List (Submission ℝ)) : EuclideanSpace ℝ (Fin n) :=
  (us.map fun u => (u.numSamples : ℝ) • euclid n u.weights).sum

theorem center_eq (n : ℕ) (us : List (Submission ℝ)) :
    center n us = (1/samples us) • weightedSum n us := rfl

theorem samples_nonneg (us : List (Submission ℝ)) : 0 ≤ samples us :=
  List.sum_nonneg fun x hx => by
    obtain ⟨u,-,rfl⟩ := List.mem_map.mp hx
    exact Nat.cast_nonneg _

theorem le_samples {u : Submission ℝ} (hu : u ∈ us) : (u.numSamples : ℝ) ≤ samples us :=
  List.single_le_sum (fun x hx => by
    obtain ⟨v,-,rfl⟩ := List.mem_map.mp hx
    exact Nat.cast_nonneg _) _ (List.mem_map_of_mem hu)

theorem samples_pos_iff : 0 < samples us ↔ ∃ u ∈ us, 0 < u.numSamples := by
  constructor
  · intro h
    by_contra hnone
    have hzero : samples us = 0 := List.sum_eq_zero fun x hx => by
      obtain ⟨u,hu,rfl⟩ := List.mem_map.mp hx
      exact Nat.cast_eq_zero.mpr (Nat.eq_zero_of_not_pos fun hpos => hnone ⟨u,hu,hpos⟩)
    exact h.ne' hzero
  · rintro ⟨u,hu,hpos⟩
    exact (Nat.cast_pos.mpr hpos).trans_le (le_samples hu)

theorem dimension_eq (hne : us ≠ []) (hlen : ∀ u ∈ us, u.weights.length = n) : dimension us = n := by
  obtain ⟨u,us,rfl⟩ := List.exists_cons_of_ne_nil hne
  exact hlen u List.mem_cons_self

theorem foldl_addWeighted (hlen : ∀ u ∈ us, u.weights.length = n) {v : List ℝ} (hv : v.length = n)
    (t : ℝ) : ∃ mean, us.foldl (fun (s : List ℝ × ℝ) u =>
      (addWeighted s.1 u.weights (Floating.ofNat u.numSamples),s.2+Floating.ofNat u.numSamples))
        (v,t) = (mean,t+samples us) ∧ mean.length = n ∧
      euclid n mean = euclid n v+weightedSum n us := by
  induction us generalizing v t with
  | nil => exact ⟨v,by simp [samples],hv,by simp [weightedSum]⟩
  | cons u us ih =>
    have hu := hlen u List.mem_cons_self
    have hstep : addWeighted v u.weights (Floating.ofNat u.numSamples) =
        v.zipWith (fun x y => x+(u.numSamples : ℝ)*id y) u.weights := by
      rw [addWeighted, List.drop_eq_nil_of_le (by omega), List.append_nil]
      rfl
    obtain ⟨mean,hmean,hlength,heuclid⟩ := ih (fun w hw => hlen w (List.mem_cons_of_mem u hw))
      (v := addWeighted v u.weights (Floating.ofNat u.numSamples))
      (by rw [hstep, List.length_zipWith, hv, hu, min_self]) (t+Floating.ofNat u.numSamples)
    refine ⟨mean,?_,hlength,?_⟩
    · rw [List.foldl_cons, hmean, samples, samples, List.map_cons, List.sum_cons, add_assoc]
      rfl
    · rw [heuclid, hstep, euclid_zipWith n id _ hv hu, List.map_id, weightedSum, weightedSum,
        List.map_cons, List.sum_cons, add_assoc]

/-- What the attacker remembers of a batch. -/
theorem weightedMeanAndWeight_real (hlen : ∀ u ∈ us, u.weights.length = n)
    (hpos : 0 < samples us) : ∃ mean, weightedMeanAndWeight us = (mean,samples us) ∧
      mean.length = n ∧ euclid n mean = center n us := by
  have hne : us ≠ [] := by
    rintro rfl
    simp [samples] at hpos
  obtain ⟨sum,hsum,hlength,heuclid⟩ := foldl_addWeighted hlen (length_zeros n) 0
  rw [zero_add] at hsum
  refine ⟨sum.map fun m => m*(1/samples us),?_,by rw [List.length_map, hlength],?_⟩
  · have hlt : Floating.lt 0 (samples us) = true := decide_eq_true hpos
    unfold weightedMeanAndWeight
    simp only [dimension_eq hne hlen, hsum, hlt, if_true, one_div, ← div_eq_mul_inv]
  · rw [euclid_map_mul, heuclid, euclid_zeros, zero_add, center_eq]

theorem foldl_addScaled (hlen : ∀ u ∈ us, u.weights.length = n) (total : ℝ) {acc : List ℝ}
    (hacc : acc.length = n) : (us.foldl (fun acc u =>
      addScaled acc u.weights (Floating.ofNat u.numSamples/total)) acc).length = n ∧
    euclid n (us.foldl (fun acc u =>
      addScaled acc u.weights (Floating.ofNat u.numSamples/total)) acc) =
      euclid n acc+(1/total) • weightedSum n us := by
  induction us generalizing acc with
  | nil => exact ⟨hacc,by simp [weightedSum]⟩
  | cons u us ih =>
    have hu := hlen u List.mem_cons_self
    have hstep : addScaled acc u.weights (Floating.ofNat u.numSamples/total) =
        acc.zipWith (fun x y => x+u.numSamples/total*id y) u.weights := by
      unfold addScaled
      simp [mul_comm]
    obtain ⟨hlength,heuclid⟩ := ih (fun w hw => hlen w (List.mem_cons_of_mem u hw))
      (length_addScaled hacc hu (Floating.ofNat u.numSamples/total))
    refine ⟨hlength,?_⟩
    rw [List.foldl_cons, heuclid, hstep, euclid_zipWith n id _ hacc hu, List.map_id, weightedSum,
      weightedSum, List.map_cons, List.sum_cons, smul_add, smul_smul, one_div_mul_eq_div, add_assoc]

theorem rejection_eq_none_iff : rejection us = none ↔
    (∀ u ∈ us, u.weights.length = dimension us) ∧
      ∀ u ∈ us, u.numSamples ≤ maxPlausibleSampleCount := by
  have hfinite (u : Submission ℝ) : u.weights.findIdx? (fun x => !Floating.isFinite x) = none :=
    List.findIdx?_eq_none_iff.mpr fun _ _ => rfl
  unfold rejection
  simp [Option.or_eq_none_iff, hfinite]

/-- FedAvg answers with the center, when it answers. -/
theorem fedAvg_real (hne : us ≠ []) (hlen : ∀ u ∈ us, u.weights.length = n)
    (hcount : ∀ u ∈ us, u.numSamples ≤ maxPlausibleSampleCount) (hpos : 0 < samples us) :
    ∃ w, fedAvg us = .ok w ∧ w.length = n ∧ euclid n w = center n us := by
  have hdim := dimension_eq hne hlen
  have hbeq : Floating.beq (samples us) 0 = false := decide_eq_false hpos.ne'
  obtain ⟨hlength,heuclid⟩ := foldl_addScaled hlen (samples us) (length_zeros n)
  refine ⟨_,?_,hlength,by rw [heuclid, euclid_zeros, zero_add, center_eq]⟩
  unfold fedAvg
  rw [if_neg (by simpa using hne),
    rejection_eq_none_iff.mpr ⟨fun u hu => (hlen u hu).trans hdim.symm,hcount⟩, hdim]
  dsimp only
  rw [Floating.sum_real]
  exact if_neg (by rw [← Bool.not_eq_true] at hbeq; exact hbeq)

theorem of_fedAvg_ok {w : List ℝ} (h : fedAvg us = .ok w) :
    (∀ u ∈ us, u.weights.length = dimension us) ∧
      (∀ u ∈ us, u.numSamples ≤ maxPlausibleSampleCount) ∧ 0 < samples us := by
  unfold fedAvg at h
  split at h
  · cases h
  split at h
  · cases h
  next hnone =>
  obtain ⟨hlen,hcount⟩ := rejection_eq_none_iff.mp hnone
  refine ⟨hlen,hcount,(samples_nonneg us).lt_of_ne fun hzero => ?_⟩
  have hbeq : Floating.beq (samples us) 0 = true := decide_eq_true hzero.symm
  rw [Floating.sum_real] at h
  cases (if_pos hbeq).symm.trans h

end Batches
section Blend
variable {n : ℕ} {E : Type*} [AddCommGroup E] [Module ℝ E]

/-- Mixing a point in moves the rest towards it in proportion. -/
theorem blend_sub {w a : ℝ} (h : w+a ≠ 0) (x y : E) :
    (1/(w+a)) • (w • x+a • y)-y = (w/(w+a)) • (x-y) := by
  match_scalars <;> field_simp
  ring

theorem euclid_blend {x y : List ℝ} (hx : x.length = n) (hy : y.length = n) (w a t : ℝ) :
    euclid n (x.zipWith (fun h s => (w*h+a*s)/t) y) =
      (1/t) • (w • euclid n x+a • euclid n y) := by
  ext i
  have hi := i.2
  rw [euclid_apply, Coordinates.getD_zipWith 0 0 0 (by omega) (by omega)]
  simp [div_eq_inv_mul, mul_add]

theorem center_append {us cs : List (Submission ℝ)} {k : ℕ} {s : List ℝ}
    (hcs : ∀ c ∈ cs, c.numSamples = k ∧ c.weights = s) (hpos : 0 < samples us) :
    samples (us++cs) = samples us+cs.length*k ∧ center n (us++cs)-euclid n s =
      (samples us/(samples us+cs.length*k)) • (center n us-euclid n s) := by
  have hcount : cs.map (fun c => (c.numSamples : ℝ)) = cs.map fun _ => (k : ℝ) :=
    List.map_congr_left fun c hc => by rw [(hcs c hc).1]
  have hterm : cs.map (fun c => (c.numSamples : ℝ) • euclid n c.weights) =
      cs.map fun _ => (k : ℝ) • euclid n s :=
    List.map_congr_left fun c hc => by rw [(hcs c hc).1, (hcs c hc).2]
  have hsamples : samples (us++cs) = samples us+cs.length*k := by
    rw [samples, List.map_append, List.sum_append, hcount]
    simp [samples]
  have hsum : weightedSum n (us++cs) = samples us • center n us+(cs.length*k : ℝ) • euclid n s := by
    rw [weightedSum, List.map_append, List.sum_append, hterm, center_eq, smul_smul,
      mul_one_div_cancel hpos.ne', one_smul]
    simp [weightedSum, ← Nat.cast_smul_eq_nsmul ℝ, smul_smul]
  have hne : samples us+(cs.length*k : ℝ) ≠ 0 := by positivity
  exact ⟨hsamples,by rw [center_eq, hsamples, hsum, blend_sub hne]⟩

end Blend

section Dilution
variable (attack : AdaptiveEvasionAttack ℝ) (p r : Round ℝ) (magnitude : ℝ)

/-- What the attackers submit at a magnitude, as a point. -/
noncomputable def aim : EuclideanSpace ℝ (Fin attack.direction.length) :=
  magnitude • euclid _ attack.direction

/-- The round's updates have an average by samples, and the attackers have a part in it. -/
structure Averaged : Prop where
  attackers : p.numAttackers ≠ 0
  lengths : ∀ u ∈ p.honest, u.weights.length = attack.direction.length
  counts : ∀ u ∈ p.honest, u.numSamples ≤ maxPlausibleSampleCount
  samples : ∃ u ∈ p.honest, 0 < u.numSamples

/-- The share the honest clients have in the round's average. -/
noncomputable def honestShare : ℝ :=
  samples p.honest/(samples p.honest+p.numAttackers*(roundAndSamples p.honest).2)

/-- The share they would have if every client of the round had the same part. -/
noncomputable def evenShare : ℝ := r.honest.length/(r.honest.length+r.numAttackers)

/-- The average of one round at this magnitude is not farther from the submission than an even
one at the next round's counts, by more than the margin. -/
def Absorbs : Prop :=
  (honestShare p-evenShare r)*‖center _ p.honest-aim attack magnitude‖ ≤
    attack.suppressionMargin*max ‖aim attack magnitude‖ 1e-6

variable {attack p r magnitude}

theorem length_crafted (us : List (Submission ℝ)) (m : ℕ) :
    (crafted attack magnitude us m).length = m := by
  simp [crafted]

theorem of_mem_crafted {us : List (Submission ℝ)} {m : ℕ} {c : Submission ℝ}
    (hc : c ∈ crafted attack magnitude us m) : c.numSamples = (roundAndSamples us).2 ∧
      c.weights = attack.direction.map fun d => d*magnitude := by
  obtain ⟨i,-,rfl⟩ := List.mem_map.mp hc
  exact ⟨rfl,rfl⟩

theorem Averaged.samples_pos (h : Averaged attack p) : 0 < Attacks.samples p.honest :=
  samples_pos_iff.mpr h.samples

/-- The attackers report what some honest client does. -/
theorem exists_roundAndSamples (p : Round ℝ) : ∃ u ∈ p.honest, (roundAndSamples p.honest).2 = u.numSamples := by
  obtain ⟨u,us,hus⟩ := List.exists_cons_of_ne_nil p.honest_ne
  rw [hus]
  exact ⟨u,List.mem_cons_self,rfl⟩

/-- The feedback for the next round is the common submission and the round's center. -/
theorem feedbackOf_averaged (h : Averaged attack p) (magnitude : ℝ) : ∃ w,
    feedbackOf p.honest (crafted attack magnitude p.honest p.numAttackers) =
      some ⟨attack.direction.map fun d => d*magnitude,w⟩ ∧ w.length = attack.direction.length ∧
    euclid _ w-aim attack magnitude =
      honestShare p • (center _ p.honest-aim attack magnitude) := by
  have hpos := h.samples_pos
  have hcs c (hc : c ∈ crafted attack magnitude p.honest p.numAttackers) := of_mem_crafted hc
  obtain ⟨hsamples,hcenter⟩ := center_append (n := attack.direction.length) hcs hpos
  obtain ⟨v,hv,hclaimed⟩ := exists_roundAndSamples p
  obtain ⟨w,hw,hlength,heuclid⟩ := fedAvg_real (n := attack.direction.length)
    (List.append_ne_nil_of_left_ne_nil p.honest_ne
      (crafted attack magnitude p.honest p.numAttackers))
    (fun u hu => (List.mem_append.mp hu).elim (h.lengths u) fun hc => by
      rw [(hcs u hc).2, List.length_map])
    (fun u hu => (List.mem_append.mp hu).elim (h.counts u) fun hc => by
      rw [(hcs u hc).1, hclaimed]
      exact h.counts v hv)
    (by rw [hsamples]; positivity)
  obtain ⟨m,hm⟩ := Nat.exists_eq_succ_of_ne_zero h.attackers
  have hhead : (crafted attack magnitude p.honest p.numAttackers).head? =
      some ⟨"adaptive-attacker-"++toString 0,(roundAndSamples p.honest).1,
        (roundAndSamples p.honest).2,attack.direction.map fun d => d*magnitude⟩ := by
    rw [crafted, hm, List.range_succ_eq_map]
    rfl
  refine ⟨w,by rw [feedbackOf, hhead, hw],hlength,?_⟩
  rw [heuclid]
  rw [euclid_map_mul, length_crafted] at hcenter
  exact hcenter

theorem feedbackOf_of_not_averaged (h : ¬Averaged attack p) (magnitude : ℝ) :
    feedbackOf p.honest (crafted attack magnitude p.honest p.numAttackers) = none := by
  unfold feedbackOf
  split
  · next u w hu hw =>
    obtain ⟨hlen,hcount,hpos⟩ := of_fedAvg_ok hw
    have hmem := List.mem_of_mem_head? hu
    have hdim : dimension (p.honest++crafted attack magnitude p.honest p.numAttackers) =
        attack.direction.length := by
      rw [← hlen u (List.mem_append_right _ hmem), (of_mem_crafted hmem).2, List.length_map]
    refine absurd ⟨fun hzero => ?_,fun v hv => ?_,fun v hv => ?_,?_⟩ h
    · have hlength := List.length_pos_of_mem hmem
      rw [length_crafted, hzero] at hlength
      exact Nat.lt_irrefl 0 hlength
    · exact (hlen v (List.mem_append_left _ hv)).trans hdim
    · exact hcount v (List.mem_append_left _ hv)
    · obtain ⟨v,hv,hvpos⟩ := samples_pos_iff.mp hpos
      rcases List.mem_append.mp hv with hv | hv
      · exact ⟨v,hv,hvpos⟩
      · obtain ⟨v',hv',hclaimed⟩ := exists_roundAndSamples p
        rw [(of_mem_crafted hv).1, hclaimed] at hvpos
        exact ⟨v',hv',hvpos⟩
  · rfl

/-- How far the average ended up from the submission: as far as the honest clients' share of it. -/
theorem l2Distance_aggregate (h : Averaged attack p) {w : List ℝ}
    (hw : w.length = attack.direction.length) (hw' : euclid _ w-aim attack magnitude =
      honestShare p • (center _ p.honest-aim attack magnitude)) :
    Robust.l2Distance w (attack.direction.map fun d => d*magnitude) =
      honestShare p*‖center _ p.honest-aim attack magnitude‖ := by
  have hpos := h.samples_pos
  have haim : euclid attack.direction.length (attack.direction.map fun d => d*magnitude) =
    aim attack magnitude := euclid_map_mul _ _ _
  rw [l2Distance_real hw (List.length_map _), haim, hw', norm_smul, Real.norm_of_nonneg]
  exact div_nonneg hpos.le (by positivity)

/-- How far the attacker expects it: as far as the even share of the next round. -/
theorem l2Distance_blend (h : Averaged attack p) {mean : List ℝ}
    (hmean : mean.length = attack.direction.length)
    (hmean' : euclid _ mean = center attack.direction.length p.honest) :
    Robust.l2Distance (mean.zipWith (fun h s =>
      (samples p.honest*h+samples p.honest*r.numAttackers/(max r.honest.length 1 : ℕ)*s)/
        (samples p.honest+samples p.honest*r.numAttackers/(max r.honest.length 1 : ℕ)))
          (attack.direction.map fun d => d*magnitude)) (attack.direction.map fun d => d*magnitude) =
      evenShare r*‖center _ p.honest-aim attack magnitude‖ := by
  have hpos := h.samples_pos
  have hsubmission : (attack.direction.map fun d => d*magnitude).length =
    attack.direction.length := List.length_map _
  have haim : euclid attack.direction.length (attack.direction.map fun d => d*magnitude) =
    aim attack magnitude := euclid_map_mul _ _ _
  have hr : 0 < r.honest.length := List.length_pos_of_ne_nil r.honest_ne
  rw [l2Distance_real (by rw [List.length_zipWith, hmean, hsubmission, min_self]) hsubmission,
    euclid_blend hmean hsubmission, haim, hmean', blend_sub (by positivity), norm_smul,
    Real.norm_of_nonneg (by positivity), Nat.max_eq_left hr]
  refine congrArg (· * _) ?_
  rw [evenShare]
  field_simp

/-- On the feedback of an averaged round the attacker escalates exactly when the next round's even
share explains where its submission ended up. -/
theorem react_eq_escalate_iff (h : Averaged attack p) {mean w : List ℝ}
    (hmean : mean.length = attack.direction.length)
    (hmean' : euclid _ mean = center attack.direction.length p.honest)
    (hw : w.length = attack.direction.length) (hw' : euclid _ w-aim attack magnitude =
      honestShare p • (center _ p.honest-aim attack magnitude)) :
    react attack (mean,samples p.honest) r.honest.length r.numAttackers
      ⟨attack.direction.map fun d => d*magnitude,w⟩ = .escalate ↔ Absorbs attack p r magnitude := by
  have haim : euclid attack.direction.length (attack.direction.map fun d => d*magnitude) =
    aim attack magnitude := euclid_map_mul _ _ _
  have hnorm : 0 < max ‖aim attack magnitude‖ 1e-6 := lt_max_of_lt_right (by norm_num)
  have hreact : react attack (mean,samples p.honest) r.honest.length r.numAttackers
      ⟨attack.direction.map fun d => d*magnitude,w⟩ =
        if honestShare p*‖center _ p.honest-aim attack magnitude‖/max ‖aim attack magnitude‖ 1e-6 ≤
          evenShare r*‖center _ p.honest-aim attack magnitude‖/max ‖aim attack magnitude‖ 1e-6+
            attack.suppressionMargin then .escalate else .retreat := by
    unfold react
    dsimp only
    rw [Floating.max_real, l2Norm_real (List.length_map _), haim, l2Distance_aggregate h hw hw']
    refine if_congr ?_ rfl rfl
    rw [← l2Distance_blend h hmean hmean']
    exact decide_eq_true_iff
  rw [hreact, Absorbs, ite_eq_left_iff, imp_iff_not (by decide), not_not, ← sub_le_iff_le_add',
    ← sub_div, div_le_iff₀ hnorm, ← sub_mul]

end Dilution

section Runs
variable (attack : AdaptiveEvasionAttack ℝ) (magnitude : ℝ)

open Classical in
/-- How many rounds have attackers that read feedback: the ones right after an averaged round. -/
noncomputable def informed : List (Round ℝ) → ℕ
  | p::r::rounds =>
    informed (r::rounds)+if Averaged attack p ∧ r.numAttackers ≠ 0 then 1 else 0
  | _ => 0

/-- Every averaged round before one with attackers is absorbed, at the magnitude of a run that has
escalated on every feedback before. -/
def Absorbed (rounds : List (Round ℝ)) : Prop :=
  ∀ earlier p r later, rounds = earlier++p::r::later → Averaged attack p → r.numAttackers ≠ 0 →
    Absorbs attack p r (magnitude*attack.escalationFactor^informed attack (earlier++[p]))

/-- The state after some rounds. -/
noncomputable def stateAfter (rounds : List (Round ℝ)) : Memory ℝ × Option (RoundFeedback ℝ) :=
  Calls.after (playRound attack) (start magnitude) rounds

/-- What the next round finds of an averaged one. -/
structure Recalled (p : Round ℝ) (s : Memory ℝ × Option (RoundFeedback ℝ)) (mean w : List ℝ) :
    Prop where
  memory : s.1.lastHonestMeanAndWeight = some (mean,samples p.honest)
  length_mean : mean.length = attack.direction.length
  mean_eq : euclid _ mean = center attack.direction.length p.honest
  feedback : s.2 = some ⟨attack.direction.map fun d => d*s.1.currentMagnitude,w⟩
  length_aggregate : w.length = attack.direction.length
  aggregate_eq : euclid _ w-aim attack s.1.currentMagnitude =
    honestShare p • (center _ p.honest-aim attack s.1.currentMagnitude)

/-- A run that has not retreated. -/
structure Climbed (rounds : List (Round ℝ)) : Prop where
  magnitude_eq : (stateAfter attack magnitude rounds).1.currentMagnitude =
    magnitude*attack.escalationFactor^informed attack rounds
  first : rounds = [] → (stateAfter attack magnitude rounds).2 = none
  recalled : ∀ earlier p, rounds = earlier++[p] → Averaged attack p →
    ∃ mean w, Recalled attack p (stateAfter attack magnitude rounds) mean w
  forgotten : ∀ earlier p, rounds = earlier++[p] → ¬Averaged attack p →
    (stateAfter attack magnitude rounds).2 = none

variable {attack magnitude} {rounds : List (Round ℝ)}

open Classical in
theorem informed_append (earlier : List (Round ℝ)) (p r : Round ℝ) :
    informed attack (earlier++[p]++[r]) = informed attack (earlier++[p])+
      if Averaged attack p ∧ r.numAttackers ≠ 0 then 1 else 0 := by
  induction earlier with
  | nil => simp [informed]
  | cons q earlier ih =>
    cases earlier with
    | nil => simp [informed]; omega
    | cons q' earlier =>
      simp only [List.cons_append, informed] at ih ⊢
      omega

theorem informed_append_of_not {r : Round ℝ} (h : ∀ earlier p, rounds = earlier++[p] →
    ¬(Averaged attack p ∧ r.numAttackers ≠ 0)) :
    informed attack (rounds++[r]) = informed attack rounds := by
  induction rounds using List.reverseRecOn with
  | nil => rfl
  | append_singleton earlier p _ => rw [informed_append, if_neg (h earlier p rfl), add_zero]

theorem stateAfter_append (r : Round ℝ) : stateAfter attack magnitude (rounds++[r]) =
    (playRound attack (stateAfter attack magnitude rounds) r).2 :=
  Calls.after_append _ _ _ _

theorem neverRetreats_append (r : Round ℝ) : NeverRetreats attack magnitude (rounds++[r]) ↔
    NeverRetreats attack magnitude rounds ∧
      (playRound attack (stateAfter attack magnitude rounds) r).1 ≠ some .retreat := by
  unfold NeverRetreats reactions
  rw [Calls.answers_append, List.mem_append, not_or]
  simp [Calls.answers, stateAfter, eq_comm]

theorem absorbed_append (r : Round ℝ) : Absorbed attack magnitude (rounds++[r]) ↔
    Absorbed attack magnitude rounds ∧ ∀ earlier p, rounds = earlier++[p] → Averaged attack p →
      r.numAttackers ≠ 0 →
        Absorbs attack p r (magnitude*attack.escalationFactor^informed attack rounds) := by
  constructor
  · refine fun h => ⟨fun earlier p r' later heq => ?_,fun earlier p heq => ?_⟩
    · exact h earlier p r' (later++[r]) (by rw [heq]; simp)
    · subst heq
      exact h earlier p r [] (by simp)
  · rintro ⟨hrounds,hlast⟩ earlier p r' later heq hp hr
    induction later using List.reverseRecOn with
    | nil =>
      have hsplit : rounds++[r] = (earlier++[p])++[r'] := by rw [heq]; simp
      obtain ⟨rfl,hr'⟩ := List.append_inj' hsplit rfl
      obtain rfl := List.singleton_injective hr'
      exact hlast earlier p rfl hp hr
    | append_singleton later x _ =>
      have hsplit : rounds++[r] = (earlier++p::r'::later)++[x] := by rw [heq]; simp
      exact hrounds earlier p r' later (List.append_inj' hsplit rfl).1 hp hr

theorem playRound_idle {r : Round ℝ} (hr : r.numAttackers = 0)
    (s : Memory ℝ × Option (RoundFeedback ℝ)) : playRound attack s r = (none,s.1,none) := by
  unfold playRound craftAdaptive reaction
  rw [if_pos hr, if_pos hr]
  rfl

theorem playRound_active {r : Round ℝ} (hr : r.numAttackers ≠ 0)
    (s : Memory ℝ × Option (RoundFeedback ℝ)) : ∃ x M,
      x = reaction attack s.1 r.honest r.numAttackers s.2 ∧
      M = applyReaction attack s.1.currentMagnitude x ∧
      playRound attack s r = (x,⟨M,some (weightedMeanAndWeight r.honest)⟩,
        feedbackOf r.honest (crafted attack M r.honest r.numAttackers)) := by
  refine ⟨_,_,rfl,rfl,?_⟩
  unfold playRound craftAdaptive
  rw [if_neg hr]

/-- On a run that has not retreated, feedback is read exactly after an averaged round, and what it
leads to is decided by the shares. -/
theorem Climbed.reaction_cases (h : Climbed attack magnitude rounds) {r : Round ℝ}
    (hr : r.numAttackers ≠ 0) :
    (∃ earlier p x, rounds = earlier++[p] ∧ Averaged attack p ∧
      reaction attack (stateAfter attack magnitude rounds).1 r.honest r.numAttackers
        (stateAfter attack magnitude rounds).2 = some x ∧
      (x = .escalate ↔ Absorbs attack p r
        (magnitude*attack.escalationFactor^informed attack rounds))) ∨
    (∀ earlier p, rounds = earlier++[p] → ¬Averaged attack p) ∧
      reaction attack (stateAfter attack magnitude rounds).1 r.honest r.numAttackers
        (stateAfter attack magnitude rounds).2 = none := by
  by_cases hlast : ∃ earlier p, rounds = earlier++[p] ∧ Averaged attack p
  · obtain ⟨earlier,p,heq,hp⟩ := hlast
    obtain ⟨mean,w,hrecalled⟩ := h.recalled earlier p heq hp
    have hread : reaction attack (stateAfter attack magnitude rounds).1 r.honest r.numAttackers
        (stateAfter attack magnitude rounds).2 = some (react attack (mean,samples p.honest)
          r.honest.length r.numAttackers ⟨attack.direction.map fun d =>
            d*(stateAfter attack magnitude rounds).1.currentMagnitude,w⟩) := by
      unfold reaction
      rw [if_neg hr, hrecalled.feedback, hrecalled.memory]
    refine .inl ⟨earlier,p,_,heq,hp,hread,?_⟩
    rw [← h.magnitude_eq]
    exact react_eq_escalate_iff hp hrecalled.length_mean hrecalled.mean_eq
      hrecalled.length_aggregate hrecalled.aggregate_eq
  · refine .inr ⟨fun earlier p heq hp => hlast ⟨earlier,p,heq,hp⟩,?_⟩
    have hnone : (stateAfter attack magnitude rounds).2 = none := by
      induction rounds using List.reverseRecOn with
      | nil => exact h.first rfl
      | append_singleton earlier p _ =>
        exact h.forgotten earlier p rfl fun hp => hlast ⟨earlier,p,rfl,hp⟩
    unfold reaction
    rw [if_neg hr, hnone]

/-- A round without a retreat keeps a run climbing. -/
theorem Climbed.append (h : Climbed attack magnitude rounds) {r : Round ℝ}
    (hstep : (playRound attack (stateAfter attack magnitude rounds) r).1 ≠ some .retreat) :
    Climbed attack magnitude (rounds++[r]) := by
  have hend {earlier : List (Round ℝ)} {p : Round ℝ} (heq : rounds++[r] = earlier++[p]) : p = r :=
    (List.singleton_injective (List.append_inj' heq rfl).2).symm
  by_cases hr : r.numAttackers = 0
  · have hstate : stateAfter attack magnitude (rounds++[r]) =
        ((stateAfter attack magnitude rounds).1,none) := by
      rw [stateAfter_append, playRound_idle hr]
    refine ⟨?_,fun hnil => by simp at hnil,fun earlier p heq hp => ?_,fun _ _ _ _ => by rw [hstate]⟩
    · rw [hstate, informed_append_of_not fun _ _ _ hboth => hboth.2 hr]
      exact h.magnitude_eq
    · rw [hend heq] at hp
      exact absurd hr hp.attackers
  · obtain ⟨x,M,hx,hM,hround⟩ := playRound_active hr (stateAfter attack magnitude rounds)
    have hstate : stateAfter attack magnitude (rounds++[r]) =
        (⟨M,some (weightedMeanAndWeight r.honest)⟩,
          feedbackOf r.honest (crafted attack M r.honest r.numAttackers)) := by
      rw [stateAfter_append, hround]
    rw [hround] at hstep
    refine ⟨?_,fun hnil => by simp at hnil,fun earlier p heq hp => ?_,fun earlier p heq hp => ?_⟩
    · rw [hstate, hM, h.magnitude_eq]
      rcases h.reaction_cases hr with ⟨earlier,p,y,rfl,hp,hy,-⟩ | ⟨hnone,hy⟩
      · rw [hy] at hx
        subst hx
        cases y with
        | retreat => exact absurd rfl hstep
        | escalate => rw [informed_append, if_pos ⟨hp,hr⟩, pow_succ, ← mul_assoc]; rfl
      · rw [hx, hy, informed_append_of_not fun earlier p heq hboth => hnone earlier p heq hboth.1]
        rfl
    · obtain rfl := hend heq
      obtain ⟨mean,hmean,hlength,heuclid⟩ := weightedMeanAndWeight_real hp.lengths hp.samples_pos
      obtain ⟨w,hw,hlength',heuclid'⟩ := feedbackOf_averaged hp M
      exact ⟨mean,w,by rw [hstate, hmean],hlength,heuclid,by rw [hstate, hw],hlength',
        by rw [hstate]; exact heuclid'⟩
    · obtain rfl := hend heq
      rw [hstate]
      exact feedbackOf_of_not_averaged hp M

theorem climbed_nil : Climbed attack magnitude [] where
  magnitude_eq := by simp [stateAfter, Calls.after, start, informed]
  first _ := rfl
  recalled earlier p heq := by simp at heq
  forgotten earlier p heq := by simp at heq

theorem climbed_of_neverRetreats (h : NeverRetreats attack magnitude rounds) :
    Climbed attack magnitude rounds := by
  induction rounds using List.reverseRecOn with
  | nil => exact climbed_nil
  | append_singleton rounds r ih =>
    obtain ⟨hrounds,hstep⟩ := (neverRetreats_append r).mp h
    exact (ih hrounds).append hstep

/-- Against plain averaging the attacker never retreats exactly when the share the honest clients
really have in each average exceeds the even one of the next round by no more than the margin
allows, for its distance from their center. -/
theorem neverRetreats_iff (attack : AdaptiveEvasionAttack ℝ) (magnitude : ℝ)
    (rounds : List (Round ℝ)) :
    NeverRetreats attack magnitude rounds ↔ Absorbed attack magnitude rounds := by
  induction rounds using List.reverseRecOn with
  | nil =>
    refine iff_of_true nofun fun earlier p r later heq => ?_
    simp at heq
  | append_singleton rounds r ih =>
    rw [neverRetreats_append, absorbed_append, ← ih]
    refine and_congr_right fun hrounds => ?_
    have hclimbed := climbed_of_neverRetreats hrounds
    by_cases hr : r.numAttackers = 0
    · rw [playRound_idle hr]
      exact iff_of_true nofun fun _ _ _ _ hne => absurd hr hne
    · obtain ⟨x,M,hx,-,hround⟩ := playRound_active hr (stateAfter attack magnitude rounds)
      rw [hround, hx]
      rcases hclimbed.reaction_cases hr with ⟨earlier,p,y,heq,hp,hy,hiff⟩ | ⟨hnone,hy⟩
      · rw [hy]
        have hescalate : some y ≠ some Reaction.retreat ↔ y = .escalate := by cases y <;> simp
        rw [hescalate, hiff]
        refine ⟨fun habsorbs earlier' p' heq' _ _ => ?_,fun hall => hall earlier p heq hp hr⟩
        obtain ⟨-,hsame⟩ := List.append_inj' (heq'.symm.trans heq) rfl
        rwa [List.singleton_injective hsame]
      · rw [hy]
        exact iff_of_true nofun fun earlier p heq hp => absurd hp (hnone earlier p heq)

end Runs

/-- Two honest clients, the first with one sample of ten, and one attacker that reports one too. -/
def skewed : Round ℝ := ⟨[⟨"a",1,1,[0]⟩,⟨"b",1,9,[0]⟩],List.cons_ne_nil _ _,1⟩

theorem averaged_skewed : Averaged (.new [1]) skewed where
  attackers := by decide
  lengths u hu := by
    simp only [skewed, List.mem_cons, List.not_mem_nil, or_false] at hu
    rcases hu with rfl | rfl <;> rfl
  counts u hu := by
    simp only [skewed, List.mem_cons, List.not_mem_nil, or_false] at hu
    rcases hu with rfl | rfl <;> decide
  samples := ⟨_,List.mem_cons_self,Nat.one_pos⟩

theorem not_absorbs_skewed : ¬Absorbs (.new [1]) skewed skewed 10 := by
  have hzero : euclid 1 [0] = 0 := euclid_zeros 1
  have hcenter : center (AdaptiveEvasionAttack.new [(1 : ℝ)]).direction.length skewed.honest = 0 := by
    change center 1 skewed.honest = 0
    simp [center_eq, weightedSum, skewed, hzero]
  have haim : ‖aim (.new [1]) 10‖ = 10 := by
    unfold aim
    rw [norm_smul, EuclideanSpace.norm_eq]
    change ‖(10 : ℝ)‖*√(∑ i : Fin 1, ‖euclid 1 [1] i‖^2) = 10
    simp
  have hhonest : honestShare skewed = 10/11 := by
    simp [honestShare, samples, skewed, roundAndSamples]
    norm_num
  have heven : evenShare skewed = 2/3 := by
    simp [evenShare, skewed]
    norm_num
  have hmargin : (AdaptiveEvasionAttack.new [(1 : ℝ)]).suppressionMargin = 0.15 := rfl
  unfold Absorbs
  rw [hcenter, zero_sub, norm_neg, haim, hhonest, heven, hmargin]
  norm_num

/-- Two such rounds: the honest share really was ten parts of eleven, and two of three expected. -/
theorem not_neverRetreats_skewed : ¬NeverRetreats (.new [1]) (10 : ℝ) [skewed,skewed] := by
  intro h
  have hsplit : NeverRetreats (.new [1]) (10 : ℝ) ([skewed]++[skewed]) := h
  obtain ⟨hfirst,hsecond⟩ := (neverRetreats_append skewed).mp hsplit
  have hattackers : skewed.numAttackers ≠ 0 := by decide
  obtain ⟨x,M,hx,-,hround⟩ := playRound_active hattackers (stateAfter (.new [1]) 10 [skewed])
  rw [hround, hx] at hsecond
  rcases (climbed_of_neverRetreats hfirst).reaction_cases hattackers with
    ⟨earlier,p,y,heq,-,hy,hiff⟩ | ⟨hnone,-⟩
  · obtain ⟨-,hp⟩ := List.append_inj' (show []++[skewed] = earlier++[p] from heq) rfl
    obtain rfl := List.singleton_injective hp
    rw [hy] at hsecond
    have hescalate : y = .escalate := by cases y <;> simp at hsecond ⊢
    have habsorbs := hiff.mp hescalate
    have hinformed : informed (.new [1]) [skewed] = 0 := by simp [informed]
    rw [hinformed, pow_zero, mul_one] at habsorbs
    exact not_absorbs_skewed habsorbs
  · exact hnone [] skewed rfl averaged_skewed

end ConfluxFL.Attacks
