import ConfluxFL.Privacy.Composition
import ConfluxFL.Privacy.SampledGaussian

/-! Epsilon against the rate and the noise of one round. The bounds of a round move the right way
at every order; a history's total follows them until a configuration's counter runs over. -/
namespace ConfluxFL

section Round
variable {alpha sigma sigma' q q' : ℝ}

/-- The bound of a round as a real number, which it is when there is noise. -/
noncomputable def roundRdp (alpha sigma q : ℝ) : ℝ := (rdpPerRound alpha sigma q).toReal

theorem rdpPerRound_none (hσ : 0 < sigma) (h : sampledGaussianRdp alpha sigma q = none) :
    rdpPerRound alpha sigma q = ((alpha/(2*sigma*sigma) : ℝ) : EReal) := by
  rw [rdpPerRound, h, gaussianRdp, if_neg hσ.ne']

theorem rdpPerRound_some {tight : ℝ} (hσ : 0 < sigma)
    (h : sampledGaussianRdp alpha sigma q = some tight) :
    rdpPerRound alpha sigma q = ((min tight (alpha/(2*sigma*sigma)) : ℝ) : EReal) := by
  simp only [rdpPerRound, h, gaussianRdp, if_neg hσ.ne', EReal.coe_lt_coe_iff]
  split_ifs with hless
  · rw [min_eq_left hless.le]
  · rw [min_eq_right (le_of_not_gt hless)]

theorem rdpPerRound_eq (hσ : 0 < sigma) : rdpPerRound alpha sigma q = roundRdp alpha sigma q := by
  cases h : sampledGaussianRdp alpha sigma q with
  | none => rw [roundRdp, rdpPerRound_none hσ h, EReal.toReal_coe]
  | some tight => rw [roundRdp, rdpPerRound_some hσ h, EReal.toReal_coe]

theorem roundRdp_none (hσ : 0 < sigma) (h : sampledGaussianRdp alpha sigma q = none) :
    roundRdp alpha sigma q = alpha/(2*sigma*sigma) := by
  rw [roundRdp, rdpPerRound_none hσ h, EReal.toReal_coe]

theorem roundRdp_le (hσ : 0 < sigma) : roundRdp alpha sigma q ≤ alpha/(2*sigma*sigma) := by
  cases h : sampledGaussianRdp alpha sigma q with
  | none => rw [roundRdp_none hσ h]
  | some tight =>
    rw [roundRdp, rdpPerRound_some hσ h, EReal.toReal_coe]
    exact min_le_right _ _

theorem roundRdp_everybody (hσ : 0 < sigma) :
    roundRdp alpha sigma 1 = alpha/(2*sigma*sigma) :=
  roundRdp_none hσ (by rw [sampledGaussianRdp, if_neg (by norm_num)])

/-- An order of the grid is one the tight formula does not apply to, or an integer. -/
theorem rdpOrders_cases (h : alpha ∈ rdpOrders) :
    (∀ sigma q, sampledGaussianRdp alpha sigma q = none) ∨
      ∃ n : ℕ, 2 ≤ n ∧ n < 2^32 ∧ alpha = n := by
  obtain ⟨hone,h256⟩ := rdpOrders_bounds h
  by_cases hint : Int.fract alpha = 0 ∧ 2 ≤ alpha
  · obtain ⟨z,hz⟩ := Int.fract_eq_zero_iff.mp hint.1
    obtain ⟨n,rfl⟩ : ∃ n : ℕ, z = n := by
      refine Int.eq_ofNat_of_zero_le ?_
      have : (0 : ℝ) ≤ z := by rw [hz]; linarith
      exact_mod_cast this
    rw [Int.cast_natCast] at hz
    subst hz
    have hlow : 2 ≤ n := by exact_mod_cast hint.2
    have hhigh : n ≤ 256 := by exact_mod_cast h256
    exact .inr ⟨n,hlow,by omega,rfl⟩
  · refine .inl fun sigma q => ?_
    rw [sampledGaussianRdp, if_neg fun hcond => hint hcond.1]

theorem roundRdp_published {n : ℕ} (hn : 2 ≤ n) (hlt : n < 2^32) (hq : 0 < q) (hq' : q < 1)
    (hσ : 0 < sigma) :
    roundRdp n sigma q = min (publishedRdp n sigma q) (n/(2*sigma*sigma)) := by
  rw [roundRdp, rdpPerRound_some hσ (sampledGaussianRdp_of_lt hn hlt hq hq' hσ), EReal.toReal_coe]

theorem fullRdp_le_noise (halpha : 0 ≤ alpha) (hσ : 0 < sigma) (hle : sigma ≤ sigma') :
    alpha/(2*sigma'*sigma') ≤ alpha/(2*sigma*sigma) :=
  div_le_div_of_nonneg_left halpha (by positivity) (by nlinarith)

theorem roundRdp_pos (h : alpha ∈ rdpOrders) (hσ : 0 < sigma) (hq : 0 < q) (hq' : q ≤ 1) :
    0 < roundRdp alpha sigma q := by
  have hone := (rdpOrders_bounds h).1
  have hfull : 0 < alpha/(2*sigma*sigma) := div_pos (by linarith) (by positivity)
  obtain hnone | ⟨n,hn,hlt,rfl⟩ := rdpOrders_cases h
  · rwa [roundRdp_none hσ (hnone _ _)]
  · obtain rfl | hsampled := hq'.eq_or_lt
    · rwa [roundRdp_everybody hσ]
    · rw [roundRdp_published hn hlt hq hsampled hσ]
      exact lt_min (publishedRdp_pos hn hq hq' hσ) hfull

theorem roundRdp_le_rate (h : alpha ∈ rdpOrders) (hσ : 0 < sigma) (hq : 0 < q) (hle : q ≤ q')
    (hq' : q' ≤ 1) : roundRdp alpha sigma q ≤ roundRdp alpha sigma q' := by
  obtain hnone | ⟨n,hn,hlt,rfl⟩ := rdpOrders_cases h
  · rw [roundRdp_none hσ (hnone _ _), roundRdp_none hσ (hnone _ _)]
  · obtain rfl | hsampled := hq'.eq_or_lt
    · rw [roundRdp_everybody hσ]
      exact roundRdp_le hσ
    · rw [roundRdp_published hn hlt hq (hle.trans_lt hsampled) hσ,
        roundRdp_published hn hlt (hq.trans_le hle) hsampled hσ]
      exact min_le_min_right _ (publishedRdp_le_rate hn hq hle hq')

theorem roundRdp_le_noise (h : alpha ∈ rdpOrders) (hσ : 0 < sigma) (hle : sigma ≤ sigma')
    (hq : 0 < q) (hq' : q ≤ 1) : roundRdp alpha sigma' q ≤ roundRdp alpha sigma q := by
  have hone := (rdpOrders_bounds h).1
  have hσ' : 0 < sigma' := hσ.trans_le hle
  have hfull := @fullRdp_le_noise alpha sigma sigma' (by linarith) hσ hle
  obtain hnone | ⟨n,hn,hlt,rfl⟩ := rdpOrders_cases h
  · rwa [roundRdp_none hσ' (hnone _ _), roundRdp_none hσ (hnone _ _)]
  · obtain rfl | hsampled := hq'.eq_or_lt
    · rwa [roundRdp_everybody hσ', roundRdp_everybody hσ]
    · rw [roundRdp_published hn hlt hq hsampled hσ',
        roundRdp_published hn hlt hq hsampled hσ]
      exact min_le_min (publishedRdp_le_noise hn hq hq' hσ hle) hfull

end Round

/-- A round with noise and a rate of sampling. -/
structure RoundCost.Sampled (cost : RoundCost) : Prop where
  noisy : 0 < cost.noiseMultiplier.toReal
  exposed : 0 < cost.sampleRate.toReal
  rate_le : cost.sampleRate.toReal ≤ 1

/-- One more round of this configuration takes its counter back to zero. -/
def Overruns (rounds : List RoundCost) (cost : RoundCost) : Prop :=
  (rounds.count cost+1)%2^32 = 0

instance (rounds : List RoundCost) (cost : RoundCost) : Decidable (Overruns rounds cost) :=
  inferInstanceAs (Decidable (_ = _))

section Totals
variable {alpha : ℝ} {before after : List RoundCost} {cost : RoundCost}

noncomputable def exactCost (alpha : ℝ) (cost : RoundCost) : ℝ :=
  roundRdp alpha cost.noiseMultiplier.toReal cost.sampleRate.toReal

/-- The grouped total as a real number. -/
noncomputable def groupedTotal (alpha : ℝ) (rounds : List RoundCost) : ℝ :=
  ∑ cost ∈ rounds.toFinset, ((rounds.count cost%2^32 : ℕ) : ℝ)*exactCost alpha cost

theorem costAt_eq (h : cost.Sampled) : costAt alpha cost = exactCost alpha cost :=
  rdpPerRound_eq h.noisy

theorem sum_coe_list (l : List ℝ) : ((l.sum : ℝ) : EReal) = (l.map ((↑) : ℝ → EReal)).sum := by
  induction l with
  | nil => rfl
  | cons x l ih => rw [List.sum_cons, EReal.coe_add, ih, List.map_cons, List.sum_cons]

theorem rdpTotal_eq {rounds : List RoundCost} (h : ∀ c ∈ rounds, c.Sampled) :
    rdpTotal alpha rounds = groupedTotal alpha rounds := by
  have hterms : rounds.dedup.map (fun c => (rounds.count c%2^32) • costAt alpha c) =
      (rounds.dedup.map fun c => ((rounds.count c%2^32 : ℕ) : ℝ)*exactCost alpha c).map
        ((↑) : ℝ → EReal) := by
    rw [List.map_map]
    refine List.map_congr_left fun c hc => ?_
    rw [costAt_eq (h c (List.mem_dedup.mp hc)), ← EReal.coe_nsmul, nsmul_eq_mul]
    rfl
  have hset : rounds.dedup.toFinset = rounds.toFinset := by
    ext c
    simp
  rw [rdpTotal, hterms, ← sum_coe_list, groupedTotal, ← hset,
    List.sum_toFinset _ rounds.nodup_dedup]

/-- A configuration that does not occur counts nothing. -/
theorem groupedTotal_eq {rounds : List RoundCost} {s : Finset RoundCost}
    (h : rounds.toFinset ⊆ s) : groupedTotal alpha rounds =
      ∑ c ∈ s, ((rounds.count c%2^32 : ℕ) : ℝ)*exactCost alpha c := by
  refine Finset.sum_subset h fun c _ hc => ?_
  rw [List.count_eq_zero_of_not_mem fun hmem => hc (List.mem_toFinset.mpr hmem)]
  simp

theorem count_insert (c : RoundCost) : (before++cost::after).count c =
    (before++after).count c+if cost = c then 1 else 0 := by
  rw [List.count_append, List.count_cons, List.count_append]
  simp only [beq_iff_eq]
  omega

/-- What a round adds to the total: its cost, unless its counter runs over. -/
theorem groupedTotal_insert : groupedTotal alpha (before++cost::after) =
    groupedTotal alpha (before++after)+
      ((((before++after).count cost+1)%2^32 : ℕ)-((before++after).count cost%2^32 : ℕ) : ℝ)*
        exactCost alpha cost := by
  have hsub : (before++after).toFinset ⊆ (before++cost::after).toFinset := by
    intro c hc
    simp only [List.mem_toFinset, List.mem_append, List.mem_cons] at hc ⊢
    tauto
  rw [groupedTotal_eq hsub, groupedTotal, ← sub_eq_iff_eq_add', ← Finset.sum_sub_distrib,
    Finset.sum_eq_single cost]
  · rw [count_insert, if_pos rfl]
    ring
  · intro c _ hne
    rw [count_insert, if_neg (Ne.symm hne), Nat.add_zero, sub_self]
  · intro hnot
    exact absurd (by simp) hnot

theorem groupedTotal_of_overruns (h : Overruns (before++after) cost) :
    groupedTotal alpha (before++cost::after) =
      groupedTotal alpha (before++after)-(2^32-1)*exactCost alpha cost := by
  have hlast : (before++after).count cost%2^32 = 2^32-1 := by
    unfold Overruns at h
    omega
  rw [groupedTotal_insert, h, hlast]
  push_cast
  ring

theorem groupedTotal_of_not_overruns (h : ¬Overruns (before++after) cost) :
    groupedTotal alpha (before++cost::after) =
      groupedTotal alpha (before++after)+exactCost alpha cost := by
  have hnext : ((before++after).count cost+1)%2^32 = (before++after).count cost%2^32+1 := by
    unfold Overruns at h
    omega
  rw [groupedTotal_insert, hnext]
  push_cast
  ring

end Totals

section Epsilon
variable {before after rounds : List RoundCost} {cheap dear : RoundCost} {alpha delta : ℝ}

/-- The bound at one order, a real number. -/
noncomputable def boundAt (rounds : List RoundCost) (delta alpha : ℝ) : ℝ :=
  groupedTotal alpha rounds+Real.log (1/delta)/(alpha-1)

theorem bound_eq (h : ∀ c ∈ rounds, c.Sampled) :
    rdpTotal alpha rounds+conversion alpha delta = boundAt rounds delta alpha := by
  rw [rdpTotal_eq h, conversion, ← EReal.coe_add]
  rfl

theorem exists_epsilon (hne : rounds ≠ []) (h : ∀ c ∈ rounds, c.Sampled) :
    ∃ e : ℝ, epsilonFromRounds rounds delta = e ∧
      (∃ alpha ∈ rdpOrders, boundAt rounds delta alpha = e) ∧
      ∀ alpha ∈ rdpOrders, e ≤ boundAt rounds delta alpha := by
  obtain ⟨⟨alpha,halpha,heq⟩,hlow⟩ := @epsilonFromRounds_isLeast rounds delta hne
  rw [bound_eq h] at heq
  refine ⟨boundAt rounds delta alpha,heq.symm,⟨alpha,halpha,rfl⟩,fun beta hbeta => ?_⟩
  have hbound := hlow ⟨beta,hbeta,rfl⟩
  rwa [bound_eq h, ← heq, EReal.coe_le_coe_iff] at hbound

/-- At an order where the history with the second round has its least bound the two rounds cost
the same. -/
def TiedAtLeast (before after : List RoundCost) (cheap dear : RoundCost) (delta : ℝ) : Prop :=
  ∃ alpha ∈ rdpOrders, costAt alpha cheap = costAt alpha dear ∧ ∀ beta ∈ rdpOrders,
    rdpTotal alpha (before++dear::after)+conversion alpha delta ≤
      rdpTotal beta (before++dear::after)+conversion beta delta

theorem exactCost_pos {cost : RoundCost} (halpha : alpha ∈ rdpOrders) (h : cost.Sampled) :
    0 < exactCost alpha cost :=
  roundRdp_pos halpha h.noisy h.exposed h.rate_le

theorem sampled_insert {cost : RoundCost} (hrest : ∀ c ∈ before++after, c.Sampled)
    (hcost : cost.Sampled) : ∀ c ∈ before++cost::after, c.Sampled := by
  simp only [List.mem_append, List.mem_cons] at hrest ⊢
  rintro c (h | rfl | h)
  · exact hrest c (.inl h)
  · exact hcost
  · exact hrest c (.inr h)

section Swap
variable (hrest : ∀ c ∈ before++after, c.Sampled) (hcheap : cheap.Sampled)
  (hdear : dear.Sampled)

include hcheap in
/-- Without an overrun a dearer round raises every total. -/
theorem groupedTotal_le (halpha : alpha ∈ rdpOrders)
    (hle : exactCost alpha cheap ≤ exactCost alpha dear) (hover : ¬Overruns (before++after) dear) :
    groupedTotal alpha (before++cheap::after) ≤ groupedTotal alpha (before++dear::after) := by
  have hpos := exactCost_pos halpha hcheap
  rw [groupedTotal_of_not_overruns hover]
  by_cases hover' : Overruns (before++after) cheap
  · rw [groupedTotal_of_overruns hover']
    linarith
  · rw [groupedTotal_of_not_overruns hover']
    linarith

include hcheap hdear in
/-- With an overrun of its own counter only, it lowers every bound. -/
theorem boundAt_lt (halpha : alpha ∈ rdpOrders) (hover : Overruns (before++after) dear)
    (hover' : ¬Overruns (before++after) cheap) :
    boundAt (before++dear::after) delta alpha < boundAt (before++cheap::after) delta alpha := by
  have hpos := exactCost_pos halpha hcheap
  have hpos' := exactCost_pos halpha hdear
  rw [boundAt, boundAt, groupedTotal_of_overruns hover, groupedTotal_of_not_overruns hover']
  linarith

/-- With both overruns the order of the bounds turns round. -/
theorem boundAt_gap (hover : Overruns (before++after) dear)
    (hover' : Overruns (before++after) cheap) : boundAt (before++cheap::after) delta alpha =
      boundAt (before++dear::after) delta alpha+
        (2^32-1)*(exactCost alpha dear-exactCost alpha cheap) := by
  rw [boundAt, boundAt, groupedTotal_of_overruns hover, groupedTotal_of_overruns hover']
  ring

include hrest hcheap hdear

theorem tiedAtLeast_iff : TiedAtLeast before after cheap dear delta ↔
    ∃ alpha ∈ rdpOrders, exactCost alpha cheap = exactCost alpha dear ∧ ∀ beta ∈ rdpOrders,
      boundAt (before++dear::after) delta alpha ≤ boundAt (before++dear::after) delta beta := by
  simp only [TiedAtLeast, costAt_eq hcheap, costAt_eq hdear,
    bound_eq (sampled_insert hrest hdear), EReal.coe_le_coe_iff, EReal.coe_eq_coe_iff]

/-- With both overruns epsilon does not fall only where the two rounds cost the same. -/
theorem epsilon_le_iff_tied
    (hle : ∀ alpha ∈ rdpOrders, exactCost alpha cheap ≤ exactCost alpha dear)
    (hover : Overruns (before++after) dear) (hover' : Overruns (before++after) cheap) :
    epsilonFromRounds (before++cheap::after) delta ≤
        epsilonFromRounds (before++dear::after) delta ↔
      TiedAtLeast before after cheap dear delta := by
  obtain ⟨e,he,⟨alpha,halpha,hbound⟩,hlow⟩ := @exists_epsilon (before++cheap::after) delta
    (by simp) (sampled_insert hrest hcheap)
  obtain ⟨e',he',⟨alpha',halpha',hbound'⟩,hlow'⟩ := @exists_epsilon (before++dear::after) delta
    (by simp) (sampled_insert hrest hdear)
  rw [he, he', EReal.coe_le_coe_iff, tiedAtLeast_iff hrest hcheap hdear]
  constructor
  · intro hless
    have hsame := @boundAt_gap before after cheap dear alpha delta hover hover'
    have hleast := hlow' alpha halpha
    have hcost := hle alpha halpha
    have htied : exactCost alpha cheap = exactCost alpha dear := by linarith
    rw [htied, sub_self, mul_zero, add_zero] at hsame
    refine ⟨alpha,halpha,htied,fun beta hbeta => ?_⟩
    have hbeta' := hlow' beta hbeta
    linarith
  · rintro ⟨beta,hbeta,htied,hleast⟩
    have hsame := @boundAt_gap before after cheap dear beta delta hover hover'
    rw [htied, sub_self, mul_zero, add_zero] at hsame
    calc e ≤ boundAt (before++cheap::after) delta beta := hlow beta hbeta
      _ = boundAt (before++dear::after) delta beta := hsame
      _ ≤ boundAt (before++dear::after) delta alpha' := hleast alpha' halpha'
      _ = e' := hbound'

/-- A dearer round in place of a cheaper one raises epsilon unless its counter runs over. -/
theorem epsilon_swap_iff
    (hle : ∀ alpha ∈ rdpOrders, exactCost alpha cheap ≤ exactCost alpha dear) :
    epsilonFromRounds (before++cheap::after) delta ≤
        epsilonFromRounds (before++dear::after) delta ↔
      (Overruns (before++after) dear →
        Overruns (before++after) cheap ∧ TiedAtLeast before after cheap dear delta) := by
  by_cases hover : Overruns (before++after) dear
  · by_cases hover' : Overruns (before++after) cheap
    · rw [epsilon_le_iff_tied hrest hcheap hdear hle hover hover']
      exact ⟨fun htied _ => ⟨hover',htied⟩,fun hcond => (hcond hover).2⟩
    · obtain ⟨e,he,⟨alpha,halpha,hbound⟩,-⟩ := @exists_epsilon (before++cheap::after) delta
        (by simp) (sampled_insert hrest hcheap)
      obtain ⟨e',he',-,hlow'⟩ := @exists_epsilon (before++dear::after) delta (by simp)
        (sampled_insert hrest hdear)
      have hless : e' < e := hbound ▸ (hlow' alpha halpha).trans_lt
        (boundAt_lt hcheap hdear halpha hover hover')
      rw [he, he', EReal.coe_le_coe_iff]
      exact iff_of_false hless.not_ge fun hcond => hover' (hcond hover).1
  · refine iff_of_true ?_ fun hcond => absurd hcond hover
    refine epsilonFromRounds_le (by simp) (by simp) fun alpha halpha => ?_
    rw [rdpTotal_eq (sampled_insert hrest hcheap), rdpTotal_eq (sampled_insert hrest hdear),
      EReal.coe_le_coe_iff]
    exact groupedTotal_le hcheap halpha (hle alpha halpha) hover

end Swap
end Epsilon

/-- Raising a round's rate does not lower epsilon and raising its noise does not raise it, unless
the dearer of the two configurations runs its counter over; no bound exceeds the one without
subsampling. -/
theorem epsilon_monotone_iff (before after : List RoundCost) (cost cost' : RoundCost)
    (delta : ℝ) (hrest : ∀ c ∈ before++after, c.Sampled) (hcost : cost.Sampled)
    (hcost' : cost'.Sampled) :
    (cost'.noiseMultiplier = cost.noiseMultiplier →
      cost.sampleRate.toReal ≤ cost'.sampleRate.toReal →
      (epsilonFromRounds (before++cost::after) delta ≤
          epsilonFromRounds (before++cost'::after) delta ↔
        (Overruns (before++after) cost' →
          Overruns (before++after) cost ∧ TiedAtLeast before after cost cost' delta))) ∧
    (cost'.sampleRate = cost.sampleRate →
      cost.noiseMultiplier.toReal ≤ cost'.noiseMultiplier.toReal →
      (epsilonFromRounds (before++cost'::after) delta ≤
          epsilonFromRounds (before++cost::after) delta ↔
        (Overruns (before++after) cost →
          Overruns (before++after) cost' ∧ TiedAtLeast before after cost' cost delta))) ∧
    ∀ alpha sigma q : ℝ, 0 < sigma →
      rdpPerRound alpha sigma q ≤ ((alpha/(2*sigma^2) : ℝ) : EReal) ∧
      rdpPerRound alpha sigma 1 = ((alpha/(2*sigma^2) : ℝ) : EReal) := by
  refine ⟨fun hnoise hrate => ?_,fun hrate hnoise => ?_,fun alpha sigma q hσ => ?_⟩
  · refine epsilon_swap_iff hrest hcost hcost' fun alpha halpha => ?_
    rw [exactCost, exactCost, hnoise]
    exact roundRdp_le_rate halpha hcost.noisy hcost.exposed hrate hcost'.rate_le
  · refine epsilon_swap_iff hrest hcost' hcost fun alpha halpha => ?_
    rw [exactCost, exactCost, hrate]
    exact roundRdp_le_noise halpha hcost.noisy hnoise hcost.exposed hcost.rate_le
  · rw [rdpPerRound_eq hσ, rdpPerRound_eq hσ, EReal.coe_le_coe_iff, EReal.coe_eq_coe_iff,
      show 2*sigma^2 = 2*sigma*sigma by ring]
    exact ⟨roundRdp_le hσ,roundRdp_everybody hσ⟩

section Halves

/-- Unit noise on half of the clients, and on all of them. -/
def halfRound : RoundCost := ⟨F32.one,⟨0x3f000000⟩⟩
def fullRound : RoundCost := ⟨F32.one,F32.one⟩

theorem halfRound_rate : halfRound.sampleRate.toReal = 1/2 := by
  have hunpack : (⟨0x3f000000⟩ : F32).value.toModel.unpack =
      .finite .positive 0x800000 (-24) (by decide) := rfl
  rw [halfRound, F32.toReal_of_unpack hunpack]
  norm_num

theorem sampled_halfRound : halfRound.Sampled :=
  ⟨by rw [halfRound, F32.toReal_one]; norm_num,by rw [halfRound_rate]; norm_num,
    by rw [halfRound_rate]; norm_num⟩

theorem sampled_fullRound : fullRound.Sampled :=
  ⟨by rw [fullRound, F32.toReal_one]; norm_num,by rw [fullRound, F32.toReal_one]; norm_num,
    by rw [fullRound, F32.toReal_one]⟩

theorem halfRound_le : halfRound.sampleRate.toReal ≤ fullRound.sampleRate.toReal := by
  rw [halfRound_rate, fullRound, F32.toReal_one]
  norm_num

theorem epsilon_monotone_halfRound :
    epsilonFromRounds [halfRound] (1/2) ≤ epsilonFromRounds [fullRound] (1/2) := by
  have hiff := epsilon_monotone_iff [] [] halfRound fullRound (1/2) (by simp) sampled_halfRound
    sampled_fullRound
  exact (hiff.1 rfl halfRound_le).mpr fun hover => absurd hover (by decide)

/-- The counter of a configuration that all other rounds share runs over. -/
theorem not_epsilon_le_overrun :
    halfRound.sampleRate.toReal ≤ fullRound.sampleRate.toReal ∧
      ¬epsilonFromRounds (List.replicate (2^32-1) fullRound++[halfRound]) (1/2) ≤
        epsilonFromRounds (List.replicate (2^32-1) fullRound++[fullRound]) (1/2) := by
  refine ⟨halfRound_le,?_⟩
  obtain ⟨n,hn⟩ : ∃ n, 2^32-1 = n := ⟨_,rfl⟩
  rw [hn]
  have hrest : ∀ c ∈ List.replicate n fullRound++[], c.Sampled := by
    intro c hc
    rw [List.append_nil] at hc
    rw [List.eq_of_mem_replicate hc]
    exact sampled_fullRound
  rw [epsilon_swap_iff hrest sampled_halfRound sampled_fullRound fun alpha halpha =>
    roundRdp_le_rate halpha sampled_halfRound.noisy sampled_halfRound.exposed halfRound_le
      sampled_fullRound.rate_le]
  have hover : Overruns (List.replicate n fullRound++[]) fullRound := by
    rw [Overruns, List.append_nil, List.count_replicate_self]
    omega
  have hnot : ¬Overruns (List.replicate n fullRound++[]) halfRound := by
    rw [Overruns, List.append_nil, List.count_replicate, if_neg (by decide)]
    decide
  exact fun hcond => hnot (hcond hover).1

end Halves

end ConfluxFL
