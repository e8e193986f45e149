import ConfluxFL.Core.StepCounts

/-! What the optimizers come to, in exact arithmetic, when their own parameter is out of play:
FedNova with one step count and FedAvgM without momentum are FedAvg, whatever model they hold.
q-FedAvg at zero is the plain mean, which is FedAvg's only for some batches. -/
namespace ConfluxFL

/-- Every client reports this step count, or none reports any. -/
def UniformSteps (updates : List ClientDelta) : Prop :=
  (∃ t ≤ FedNova.maxPlausibleLocalSteps, ∀ u ∈ updates, FedNova.reportedSteps u = some t) ∨
    ∀ u ∈ updates, FedNova.reportedSteps u = none

theorem map_zipWith_left {α β γ : Type} {f : α → β → γ} {g : γ → β} (hg : ∀ a b, g (f a b) = b)
    {as : List α} {bs : List β} (hlen : as.length = bs.length) : (as.zipWith f bs).map g = bs := by
  rw [List.map_zipWith, ← List.map_uncurry_zip_eq_zipWith]
  refine (List.map_congr_left fun p _ => ?_).trans (List.map_snd_zip hlen.ge)
  exact hg p.1 p.2

section Calls
variable {σ : Type} {o : Optimizer ℝ σ}

/-- An optimizer whose seed and steps on a batch are FedAvg's. -/
theorem aggregate_fedAvg {state : Option σ} {updates : List ClientDelta} {w : List ℝ}
    (h : fedAvgIn updates = .ok w) (hstart : ∀ v, o.global (o.start v) = v)
    (hseed : o.seed = averageBySamples)
    (hstep : ∀ decoded s, decodeAndValidate updates = .ok decoded →
      (o.global s).length = (decoded.headD []).length →
      averageBySamples updates (embed decoded) = .ok w →
      ∃ s', o.step updates (embed decoded) s = .ok s' ∧ o.global s' = w) :
    (o.aggregate state updates).1 = fedAvgIn updates := by
  obtain ⟨decoded,hd,hdim,haverage⟩ := onBatch_ok h
  rw [h]
  exact o.aggregate_of_ok hd hdim.1 ⟨w,hseed ▸ haverage,hstart w⟩ fun s _ hlen =>
    hstep decoded s hd hlen haverage

end Calls

namespace FedNova
variable {updates : List ClientDelta}

/-- With one step count for all the coefficients are FedAvg's. -/
theorem coefficient_uniform {t : ℕ} (ht : t ≤ maxPlausibleLocalSteps)
    (hall : ∀ u ∈ updates, reportedSteps u = some t) (htotal : totalSamples updates ≠ 0) :
    ∀ u ∈ updates, coefficient updates u = sampleShare updates u := by
  intro u hu
  have htau : ∀ v ∈ updates, (tau updates v : ℝ) = t := fun v hv => by
    rw [tau_reported (hall v hv), Nat.min_eq_left ht]
  have heffective : (effectiveTau updates : ℝ) = t :=
    le_antisymm (effectiveTau_le (List.ne_nil_of_mem hu) fun v hv => (htau v hv).le)
      (le_effectiveTau (List.ne_nil_of_mem hu) fun v hv => (htau v hv).ge)
  have hpos : (t : ℝ) ≠ 0 := Nat.cast_ne_zero.mpr (pos_of_reported (hall u hu)).ne'
  rw [coefficient, heffective, htau u hu, share_real, if_neg htotal, mul_div_cancel_left₀ _ hpos]

theorem aggregate_uniform {state : Option (List ℝ)} {w : List ℝ} (h : fedAvgIn updates = .ok w)
    (hsteps : UniformSteps updates) :
    ((optimizer (ν := ℝ)).aggregate state updates).1 = fedAvgIn updates := by
  refine aggregate_fedAvg h (fun _ => rfl) rfl fun decoded s hd hlen haverage => ⟨w,?_,rfl⟩
  obtain ⟨u,hu⟩ := List.exists_mem_of_ne_nil _ (hasDimension_fedAvgIn h).1
  change s.length = _ at hlen
  rcases hsteps with ⟨t,ht,hall⟩ | hnone
  · rw [averageBySamples_real hd] at haverage
    split_ifs at haverage with htotal
    rw [step_real hd hlen ⟨u,hu,Option.isSome_iff_exists.mpr ⟨t,hall u hu⟩⟩, ← haverage]
    have hshares := coefficient_uniform ht hall htotal
    rw [moved_eq_mixture, mixture_congr hshares]
    · exact congrArg (fun dim => Except.ok (mixture dim updates (sampleShare updates))) hlen
    · rw [List.map_congr_left hshares, sum_sampleShare htotal]
  · have hall : (updates.all fun u => (reportedSteps u).isNone) = true :=
      List.all_eq_true.mpr fun u hu => Option.isNone_iff_eq_none.mpr (hnone u hu)
    exact (if_pos hall).trans haverage

end FedNova

namespace FedAvgM

/-- Without momentum a step at full rate ends at its target. -/
theorem aggregate_plain {beta serverLearningRate : F32} (hbeta : beta.toReal = 0)
    (hrate : serverLearningRate.toReal = 1) {state : Option (List (Momentum ℝ ℝ))}
    {updates : List ClientDelta} {w : List ℝ} (h : fedAvgIn updates = .ok w) :
    ((optimizer (ν := ℝ) beta serverLearningRate).aggregate state updates).1 =
      fedAvgIn updates := by
  refine aggregate_fedAvg h (fun v => ?_) rfl fun decoded s hd hlen haverage => ?_
  · exact (List.map_map ..).trans (List.map_id v)
  · have hw := length_averageBySamples (length_headD_embed decoded) (length_of_mem_embed hd) haverage
    refine ⟨s.zipWith (coordinateStep beta serverLearningRate) w,?_,?_⟩
    · simp only [optimizer, haverage]
      exact keepFinite_real _ _ _
    · refine map_zipWith_left (fun c target => ?_) ?_
      · change c.global+serverLearningRate.toReal*(beta.toReal*c.velocity+(target-c.global)) = target
        rw [hbeta, hrate, zero_mul, zero_add, one_mul, add_sub_cancel]
      · rw [hw, ← hlen]
        exact (List.length_map ..).symm

end FedAvgM

/-- While FedAvg succeeds, FedNova answers what FedAvg does in every round with one step count,
whatever the rounds before it were, and FedAvgM without momentum in every round. -/
theorem reduces_to_fedAvg {beta serverLearningRate : F32} (hbeta : beta.toReal = 0)
    (hrate : serverLearningRate.toReal = 1) {batches : List (List ClientDelta)}
    (h : ∀ updates ∈ batches, ∃ w : List ℝ, fedAvgIn updates = .ok w) :
    (∀ (i : ℕ) (updates : List ClientDelta), batches[i]? = some updates → UniformSteps updates →
        ((FedNova.optimizer (ν := ℝ)).answers batches)[i]? = some (fedAvgIn updates)) ∧
      (FedAvgM.optimizer beta serverLearningRate).answers batches =
        batches.map (fedAvgIn (ν := ℝ)) := by
  constructor
  · intro i updates hi hsteps
    obtain ⟨w,hw⟩ := h updates (List.mem_of_getElem? hi)
    rw [Optimizer.answers, Calls.getElem?_answers, hi]
    exact congrArg some (FedNova.aggregate_uniform hw hsteps)
  · refine List.ext_getElem? fun i => ?_
    rw [Optimizer.answers, Calls.getElem?_answers, List.getElem?_map]
    cases hi : batches[i]? with
    | none => rfl
    | some updates =>
      obtain ⟨w,hw⟩ := h updates (List.mem_of_getElem? hi)
      exact congrArg some (FedAvgM.aggregate_plain hbeta hrate hw)

/-- Two clients that took two steps each, then the same two without a count. -/
theorem reduces_to_fedAvg_twoRounds :
    let counted := [{ reportedWeight "a" F32.one 3 with localSteps := some 2 },
      { reportedWeight "b" F32.zero 1 with localSteps := some 2 }]
    let uncounted := [reportedWeight "a" F32.one 3,reportedWeight "b" F32.zero 1]
    (∀ (i : ℕ) (updates : List ClientDelta), [counted,uncounted][i]? = some updates →
      UniformSteps updates →
        ((FedNova.optimizer (ν := ℝ)).answers [counted,uncounted])[i]? = some (fedAvgIn updates)) ∧
      (FedAvgM.optimizer F32.zero F32.one).answers [counted,uncounted] =
        [counted,uncounted].map (fedAvgIn (ν := ℝ)) := by
  intro counted uncounted
  refine reduces_to_fedAvg F32.toReal_zero F32.toReal_one fun updates hupdates => ?_
  have hd : decodeAndValidate counted = .ok [[F32.one],[F32.zero]] := by decide +kernel
  have hd' : decodeAndValidate uncounted = .ok [[F32.one],[F32.zero]] := by decide +kernel
  simp only [List.mem_cons, List.not_mem_nil, or_false] at hupdates
  rcases hupdates with rfl | rfl
  · exact ⟨_,fedAvgIn_of_ok hd (by decide)⟩
  · exact ⟨_,fedAvgIn_of_ok hd' (by decide)⟩

namespace QFedAvg
variable {q lipschitz : F32} {updates : List ClientDelta} {decoded : List (List F32)}

/-- No coordinate goes with the sample counts: its sum by samples is its plain sum, up to the
counts. -/
def Uncorrelated (updates : List ClientDelta) : Prop := ∀ k : ℕ,
  updates.length*(updates.map fun u => u.numSamples*(row u).getD k 0).sum =
    totalSamples updates*(updates.map fun u => (row u).getD k 0).sum

/-- The batch before this one had another dimension, or there was none. -/
def StartsOver (earlier : List (List ClientDelta)) (updates : List ClientDelta) : Prop :=
  ∀ previous ∈ earlier.getLast?, ∀ dim, HasDimension previous dim → ¬HasDimension updates dim

/-- The plain mean is FedAvg's exactly for these batches. -/
theorem mixture_plain_iff (hd : decodeAndValidate updates = .ok decoded)
    (htotal : totalSamples updates ≠ 0) :
    mixture (decoded.headD []).length updates (fun _ => 1/updates.length) =
      mixture (decoded.headD []).length updates (sampleShare updates) ↔ Uncorrelated updates := by
  have htotal' : (totalSamples updates : ℝ) ≠ 0 := Nat.cast_ne_zero.mpr htotal
  have hlen : (updates.length : ℝ) ≠ 0 := by
    rw [Nat.cast_ne_zero, Ne, List.length_eq_zero_iff]
    rintro rfl
    exact htotal rfl
  have hshare (k : ℕ) : (updates.map fun u => sampleShare updates u*(row u).getD k 0).sum =
      (updates.map fun u => u.numSamples*(row u).getD k 0).sum/totalSamples updates := by
    rw [div_eq_inv_mul, ← List.sum_map_mul_left]
    refine congrArg List.sum (List.map_congr_left fun u _ => ?_)
    rw [sampleShare]
    ring
  have hmean (k : ℕ) : (updates.map fun u => 1/(updates.length : ℝ)*(row u).getD k 0).sum =
      (updates.map fun u => (row u).getD k 0).sum/updates.length := by
    rw [List.sum_map_mul_left, one_div_mul_eq_div]
  have hcross (k : ℕ) : (updates.map fun u => 1/(updates.length : ℝ)*(row u).getD k 0).sum =
      (updates.map fun u => sampleShare updates u*(row u).getD k 0).sum ↔
        updates.length*(updates.map fun u => u.numSamples*(row u).getD k 0).sum =
          totalSamples updates*(updates.map fun u => (row u).getD k 0).sum := by
    rw [hshare, hmean, div_eq_div_iff hlen htotal']
    constructor <;> intro h <;> linarith
  constructor
  · intro h k
    rw [← hcross]
    by_cases hk : k < (decoded.headD []).length
    · rw [← getD_mixture hk, ← getD_mixture hk, h]
    · refine congrArg List.sum (List.map_congr_left fun u hu => ?_)
      rw [List.getD_eq_default _ _ (by rw [length_row hd hu]; exact Nat.le_of_not_lt hk), mul_zero,
        mul_zero]
  · intro h
    refine Coordinates.ext_getD 0 (by rw [length_mixture, length_mixture]) fun k hk => ?_
    rw [length_mixture] at hk
    rw [getD_mixture hk, getD_mixture hk, hcross]
    exact h k

theorem foldl_pair {α β ε : Type} (f : α → ε → α) (g : β → ε → β) (es : List ε) (a : α) (b : β) :
    es.foldl (fun acc e => (f acc.1 e,g acc.2 e)) (a,b) = (es.foldl f a,es.foldl g b) := by
  induction es generalizing a b with
  | nil => rfl
  | cons e es ih => rw [List.foldl_cons, List.foldl_cons, List.foldl_cons, ih]

/-- At zero every client has the weight of the Lipschitz estimate. -/
theorem clientStep_zero (l : ℝ) (global : List ℝ) (acc : ℝ × List ℝ)
    (client : ClientDelta × List ℝ) : clientStep 0 l global acc client =
      (acc.1+l,acc.2.zipWith (fun a p => a+l*(p.1-p.2)) (client.2.zip global)) := by
  have hweight : clientWeight 0 l global client = l := by
    change 0*_*_+l*Real.rpow _ 0 = l
    rw [zero_mul, zero_mul, zero_add]
    exact (congrArg (l*·) (Real.rpow_zero _)).trans (mul_one l)
  have hpower : (Floating.pow (loss client.1) 0 : ℝ) = 1 := Real.rpow_zero _
  unfold clientStep
  dsimp only
  rw [hweight, hpower, one_mul]
  rfl

/-- What the clients' steps come to at zero. -/
theorem clientSteps_zero (hd : decodeAndValidate updates = .ok decoded) (l : ℝ)
    (global : List ℝ) : (updates.zip (embed decoded)).foldl (clientStep 0 l global)
        (0,zeros global.length) =
      (updates.length*l,updates.foldl (fun acc u =>
        acc.zipWith (fun a p => a+l*(p.1-p.2)) ((row u).zip global)) (zeros global.length)) := by
  have hstep : (fun acc u => clientStep 0 l global acc (u,row u)) =
      fun (acc : ℝ × List ℝ) (u : ClientDelta) => (acc.1+l,
        acc.2.zipWith (fun a p => a+l*(p.1-p.2)) ((row u).zip global)) :=
    funext₂ fun acc u => clientStep_zero l global acc (u,row u)
  have hsum : updates.foldl (fun a _ => a+l) 0 = updates.length*l := by
    have hmap : Floating.sum (updates.map fun _ => l) = updates.foldl (fun a _ => a+l) 0 :=
      List.foldl_map
    rw [← hmap, Floating.sum_real, List.map_const', List.sum_replicate, nsmul_eq_mul]
  rw [zip_rows hd, List.foldl_map, hstep, ← hsum]
  exact foldl_pair (fun a _ => a+l) (fun (acc : List ℝ) u =>
    acc.zipWith (fun a p => a+l*(p.1-p.2)) ((row u).zip global)) updates 0 _

/-- A round in which somebody reports a loss goes to the plain mean. -/
theorem step_real (hq : q.toReal = 0) (hl : 0 < lipschitz.toReal)
    (hd : decodeAndValidate updates = .ok decoded) {global : List ℝ}
    (hlen : global.length = (decoded.headD []).length)
    (hsome : ∃ u ∈ updates, u.localLoss.isSome = true) :
    (optimizer (ν := ℝ) q lipschitz).step updates (embed decoded) global =
      .ok (mixture (decoded.headD []).length updates fun _ => 1/updates.length) := by
  have hcount : (0 : ℝ) < updates.length := by
    obtain ⟨u,hu,-⟩ := hsome
    exact Nat.cast_pos.mpr (List.length_pos_of_mem hu)
  have hpos : 0 < updates.length*lipschitz.toReal := mul_pos hcount hl
  have hsums : (updates.zip (embed decoded)).foldl
      (clientStep (Floating.ofF32 q) (Floating.ofF32 lipschitz) global) (0,zeros global.length) = _ :=
    (congrArg (fun q => (updates.zip (embed decoded)).foldl (clientStep q lipschitz.toReal global)
      (0,zeros global.length)) hq).trans (clientSteps_zero hd lipschitz.toReal global)
  have husable : ¬(Floating.le (updates.length*lipschitz.toReal) 0 ||
      !Floating.isFinite (updates.length*lipschitz.toReal)) = true := by
    intro h
    exact hpos.not_ge (of_decide_eq_true ((Bool.or_false _).symm.trans h))
  simp only [optimizer]
  rw [List.any_eq_true.mpr hsome, if_neg (by decide), hsums]
  dsimp only
  rw [if_neg husable, keepFinite_real, ← hlen]
  refine congrArg Except.ok ?_
  have hmoved := zipWith_foldl_moved hd hlen (f := fun acc u =>
    acc.zipWith (fun a p => a+lipschitz.toReal*(p.1-p.2)) ((row u).zip global))
    (fun _ _ _ => rfl) (1/(updates.length*lipschitz.toReal))
  have hshare : 1/(updates.length*lipschitz.toReal)*lipschitz.toReal = 1/updates.length := by
    rw [one_div, mul_inv, mul_assoc, inv_mul_cancel₀ hl.ne', mul_one, one_div]
  rw [hshare, moved_eq_mixture] at hmoved
  · rw [← hmoved]
    refine congrFun (congrFun (congrArg List.zipWith ?_) global) _
    funext w d
    change w+d/(updates.length*lipschitz.toReal) = _
    rw [one_div_mul_eq_div]
  · rw [List.map_const', List.sum_replicate, nsmul_eq_mul]
    exact mul_one_div_cancel hcount.ne'

/-- A call on a batch that FedAvg accepts: FedAvg's answer, or the plain mean in a round that goes
on and has a loss to weigh. -/
theorem aggregate_zero (hq : q.toReal = 0) (hl : 0 < lipschitz.toReal)
    (state : Option (List ℝ)) {w : List ℝ} (h : fedAvgIn updates = .ok w) :
    ((∀ s ∈ state, s.length ≠ w.length) ∨ (∀ u ∈ updates, u.localLoss = none)) ∧
        (optimizer (ν := ℝ) q lipschitz).aggregate state updates = (.ok w,some w) ∨
      ((∃ s ∈ state, s.length = w.length) ∧ ∃ u ∈ updates, u.localLoss.isSome = true) ∧
        ∃ plain, plain.length = w.length ∧ (plain = w ↔ Uncorrelated updates) ∧
          (optimizer (ν := ℝ) q lipschitz).aggregate state updates = (.ok plain,some plain) := by
  obtain ⟨decoded,hd,hdim,haverage⟩ := onBatch_ok h
  have htotal : totalSamples updates ≠ 0 := (fedAvgIn_real h).choose_spec.2.1
  have hw := haverage
  rw [averageBySamples_real hd, if_neg htotal] at hw
  obtain rfl := Except.ok.inj hw
  rw [length_mixture]
  by_cases hother : ∀ s ∈ state, s.length ≠ (decoded.headD []).length
  · exact .inl ⟨.inl hother,Optimizer.aggregate_seed _ hd hdim.1 hother haverage⟩
  · push Not at hother
    obtain ⟨s,rfl,hlen⟩ := hother
    by_cases hnone : ∀ u ∈ updates, u.localLoss = none
    · refine .inl ⟨.inr hnone,Optimizer.aggregate_step _ hd hdim.1 hlen ?_⟩
      have hany : (!updates.any fun u => u.localLoss.isSome) = true := by
        rw [Bool.not_eq_true', List.any_eq_false]
        exact fun u hu => by rw [hnone u hu]; decide
      exact (if_pos hany).trans haverage
    · push Not at hnone
      obtain ⟨u,hu,hloss⟩ := hnone
      have hsome : ∃ u ∈ updates, u.localLoss.isSome = true :=
        ⟨u,hu,Option.isSome_iff_ne_none.mpr hloss⟩
      exact .inr ⟨⟨⟨s,rfl,hlen⟩,hsome⟩,_,length_mixture,mixture_plain_iff hd htotal,
        Optimizer.aggregate_step _ hd hdim.1 hlen (step_real hq hl hd hlen hsome)⟩

theorem aggregate_accepts (hq : q.toReal = 0) (hl : 0 < lipschitz.toReal)
    (state : Option (List ℝ)) {w : List ℝ} (h : fedAvgIn updates = .ok w) :
    ∃ v, v.length = w.length ∧
      (optimizer (ν := ℝ) q lipschitz).aggregate state updates = (.ok v,some v) := by
  rcases aggregate_zero hq hl state h with ⟨-,heq⟩ | ⟨-,plain,hlen,-,heq⟩
  · exact ⟨w,rfl,heq⟩
  · exact ⟨plain,hlen,heq⟩

/-- While FedAvg succeeds, the model has the dimension of the batch before. -/
theorem length_after (hq : q.toReal = 0) (hl : 0 < lipschitz.toReal)
    {batches : List (List ClientDelta)}
    (h : ∀ updates ∈ batches, ∃ w : List ℝ, fedAvgIn updates = .ok w) :
    ((optimizer (ν := ℝ) q lipschitz).after batches = none ↔ batches = []) ∧
      ∀ s ∈ (optimizer (ν := ℝ) q lipschitz).after batches, ∀ updates ∈ batches.getLast?,
        HasDimension updates s.length := by
  cases batches using List.reverseRecOn with
  | nil => exact ⟨iff_of_true rfl rfl,nofun⟩
  | append_singleton batches updates =>
    obtain ⟨w,hw⟩ := h updates (List.mem_append_right _ List.mem_cons_self)
    rw [Optimizer.after_concat, List.getLast?_concat]
    obtain ⟨v,hlen,heq⟩ := aggregate_accepts hq hl _ hw
    rw [heq]
    refine ⟨iff_of_false nofun (List.concat_ne_nil _ _),fun s hs last hlast => ?_⟩
    cases hs
    cases hlast
    rw [hlen]
    exact hasDimension_fedAvgIn hw

theorem startsOver_iff (hq : q.toReal = 0) (hl : 0 < lipschitz.toReal)
    {earlier : List (List ClientDelta)}
    (hearlier : ∀ updates ∈ earlier, ∃ w : List ℝ, fedAvgIn updates = .ok w) {w : List ℝ}
    (h : fedAvgIn updates = .ok w) : StartsOver earlier updates ↔
      ∀ s ∈ (optimizer (ν := ℝ) q lipschitz).after earlier, s.length ≠ w.length := by
  have hdim := hasDimension_fedAvgIn h
  obtain ⟨hnone,hlast⟩ := length_after hq hl hearlier
  constructor
  · intro hover s hs hlen
    cases hprevious : earlier.getLast? with
    | none =>
      rw [hnone.mpr (List.getLast?_eq_none_iff.mp hprevious)] at hs
      cases hs
    | some previous => exact hover previous hprevious s.length (hlast s hs previous hprevious) (hlen ▸ hdim)
  · intro hother previous hprevious dim hdim' hdim''
    cases hafter : (optimizer (ν := ℝ) q lipschitz).after earlier with
    | none =>
      rw [hnone.mp hafter] at hprevious
      cases hprevious
    | some s =>
      have hs := (hlast s hafter previous hprevious).subset hdim' (List.Subset.refl _)
      exact hother s hafter (hs.symm.trans (hdim.subset hdim'' (List.Subset.refl _)))

/-- When a call's answer is FedAvg's. -/
theorem aggregate_eq_fedAvg_iff (hq : q.toReal = 0) (hl : 0 < lipschitz.toReal)
    {earlier : List (List ClientDelta)}
    (hearlier : ∀ updates ∈ earlier, ∃ w : List ℝ, fedAvgIn updates = .ok w) {w : List ℝ}
    (h : fedAvgIn updates = .ok w) :
    ((optimizer (ν := ℝ) q lipschitz).aggregate ((optimizer q lipschitz).after earlier) updates).1 =
        fedAvgIn updates ↔
      StartsOver earlier updates ∨ (∀ u ∈ updates, u.localLoss = none) ∨ Uncorrelated updates := by
  rw [startsOver_iff hq hl hearlier h, ← or_assoc]
  rcases aggregate_zero hq hl ((optimizer q lipschitz).after earlier) h with
    ⟨hfedAvg,heq⟩ | ⟨⟨⟨s,hs,hlen⟩,u,hu,hloss⟩,plain,-,hplain,heq⟩
  · rw [heq]
    exact iff_of_true h.symm (.inl hfedAvg)
  · have hgoes : ¬((∀ s ∈ (optimizer (ν := ℝ) q lipschitz).after earlier, s.length ≠ w.length) ∨
        ∀ u ∈ updates, u.localLoss = none) := by
      rintro (hother | hnone)
      · exact hother s hs hlen
      · rw [hnone u hu] at hloss
        cases hloss
    rw [heq, h, or_iff_right hgoes, ← hplain]
    exact ⟨Except.ok.inj,congrArg Except.ok⟩

/-- While FedAvg succeeds, q-FedAvg at zero answers what FedAvg does in exactly the rounds that
start over, in those without a loss, and in those where the counts make no difference. -/
theorem answers_eq_fedAvg_iff (hq : q.toReal = 0) (hl : 0 < lipschitz.toReal)
    {batches : List (List ClientDelta)}
    (h : ∀ updates ∈ batches, ∃ w : List ℝ, fedAvgIn updates = .ok w) {i : ℕ}
    (hi : batches[i]? = some updates) :
    ((optimizer (ν := ℝ) q lipschitz).answers batches)[i]? = some (fedAvgIn updates) ↔
      StartsOver (batches.take i) updates ∨ (∀ u ∈ updates, u.localLoss = none) ∨
        Uncorrelated updates := by
  obtain ⟨w,hw⟩ := h updates (List.mem_of_getElem? hi)
  rw [← aggregate_eq_fedAvg_iff hq hl (fun us hus => h us (List.mem_of_mem_take hus)) hw,
    Optimizer.answers, Calls.getElem?_answers, hi]
  exact Option.some_inj

/-- Three samples for the weight zero, one for the weight one. -/
def unevenLosses : List ClientDelta :=
  [{ reportedWeight "a" F32.zero 3 with localLoss := some F32.one },
    { reportedWeight "b" F32.one 1 with localLoss := some F32.one }]

theorem fedAvgIn_reportedZero :
    (fedAvgIn [reportedWeight "a" F32.zero 1] : Except AggregatorError (List ℝ)) =
      .ok (mixture 1 [reportedWeight "a" F32.zero 1]
        (sampleShare [reportedWeight "a" F32.zero 1])) := by
  have hd : decodeAndValidate [reportedWeight "a" F32.zero 1] = .ok [[F32.zero]] := by
    decide +kernel
  exact fedAvgIn_of_ok hd (by decide)

theorem fedAvgIn_unevenLosses :
    (fedAvgIn unevenLosses : Except AggregatorError (List ℝ)) =
      .ok (mixture 1 unevenLosses (sampleShare unevenLosses)) := by
  have hd : decodeAndValidate unevenLosses = .ok [[F32.zero],[F32.one]] := by decide +kernel
  exact fedAvgIn_of_ok hd (by decide)

theorem answers_eq_fedAvg_iff_unevenLosses :
    ((optimizer (ν := ℝ) F32.zero F32.one).answers
        [[reportedWeight "a" F32.zero 1],unevenLosses])[1]? = some (fedAvgIn unevenLosses) ↔
      StartsOver [[reportedWeight "a" F32.zero 1]] unevenLosses ∨
        (∀ u ∈ unevenLosses, u.localLoss = none) ∨ Uncorrelated unevenLosses := by
  refine answers_eq_fedAvg_iff F32.toReal_zero (zero_lt_one.trans_eq F32.toReal_one.symm)
    ?_ rfl
  intro updates hupdates
  simp only [List.mem_cons, List.not_mem_nil, or_false] at hupdates
  rcases hupdates with rfl | rfl
  · exact ⟨_,fedAvgIn_reportedZero⟩
  · exact ⟨_,fedAvgIn_unevenLosses⟩

/-- In the second round of these the plain mean is returned, not FedAvg's. -/
theorem answers_ne_fedAvg_unevenLosses :
    (fedAvgIn [reportedWeight "a" F32.zero 1] : Except AggregatorError (List ℝ)).toOption.isSome ∧
      (fedAvgIn unevenLosses : Except AggregatorError (List ℝ)).toOption.isSome ∧
      ((optimizer (ν := ℝ) F32.zero F32.one).answers
        [[reportedWeight "a" F32.zero 1],unevenLosses])[1]? ≠ some (fedAvgIn unevenLosses) := by
  refine ⟨by rw [fedAvgIn_reportedZero]; rfl,by rw [fedAvgIn_unevenLosses]; rfl,fun hanswer => ?_⟩
  rw [Optimizer.answers, Calls.getElem?_answers] at hanswer
  have hearlier : ∀ updates ∈ [[reportedWeight "a" F32.zero 1]],
      ∃ w : List ℝ, fedAvgIn updates = .ok w := by
    rintro updates hupdates
    rw [List.mem_singleton.mp hupdates]
    exact ⟨_,fedAvgIn_reportedZero⟩
  rcases (aggregate_eq_fedAvg_iff F32.toReal_zero (zero_lt_one.trans_eq F32.toReal_one.symm) hearlier
    fedAvgIn_unevenLosses).mp (Option.some_inj.mp hanswer) with hover | hnone | huncorrelated
  · refine hover _ rfl 1 ?_ (hasDimension_fedAvgIn fedAvgIn_unevenLosses)
    exact hasDimension_fedAvgIn fedAvgIn_reportedZero
  · cases hnone _ List.mem_cons_self
  · have hzero : row { reportedWeight "a" F32.zero 3 with localLoss := some F32.one } = [0] :=
      (row_of_encoded (rfl : _ = encodeWeights [F32.zero])).trans (by simp)
    have hone : row { reportedWeight "b" F32.one 1 with localLoss := some F32.one } = [1] :=
      (row_of_encoded (rfl : _ = encodeWeights [F32.one])).trans (by simp)
    have hsums := huncorrelated 0
    simp only [unevenLosses, List.map_cons, List.map_nil, hzero, hone] at hsums
    norm_num [totalSamples, reportedWeight] at hsums

end QFedAvg
end ConfluxFL
