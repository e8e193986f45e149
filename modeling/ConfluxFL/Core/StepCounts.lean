import ConfluxFL.Core.KrumCounts
import ConfluxFL.Core.OptimizerRuns

/-! FedNova's step counts in exact arithmetic: where they lie, and what coefficient they give each
client's progress. A reported count is capped; the one that stands in for a missing count is the
mean of what was reported, before the cap. -/
namespace ConfluxFL.FedNova

/-- The coefficient of a client's progress in the update. -/
noncomputable def coefficient (updates : List ClientDelta) (u : ClientDelta) : ℝ :=
  effectiveTau updates*share updates u/tau updates u

def reported (updates : List ClientDelta) : List ℕ := updates.filterMap reportedSteps

/-- The samples of the clients that reported a count. -/
def reportedSamples (updates : List ClientDelta) : ℕ :=
  (updates.map fun u => if (reportedSteps u).isSome then u.numSamples else 0).sum

/-- The reported counts, each as often as its client has samples. -/
def sampleSteps (updates : List ClientDelta) : ℕ :=
  (updates.map fun u => u.numSamples*(reportedSteps u).getD 0).sum

/-- The mean of the reported counts by samples is their plain mean, or nobody who reported has
samples. -/
def SameMeans (updates : List ClientDelta) : Prop :=
  sampleSteps updates*(reported updates).length = reportedSamples updates*(reported updates).sum

section Shares
variable {updates : List ClientDelta}

theorem share_real (updates : List ClientDelta) (u : ClientDelta) : (share updates u : ℝ) =
    if totalSamples updates = 0 then 1/(updates.length : ℝ) else sampleShare updates u := by
  unfold share
  dsimp only
  rw [Floating.sum_real]
  have htotal : (updates.map fun u => (Floating.ofNat u.numSamples : ℝ)).sum =
      totalSamples updates := sum_numSamples updates
  rw [htotal, Floating.lt_real]
  by_cases h : totalSamples updates = 0
  · rw [if_pos h, if_neg (by simp [h])]
    rfl
  · rw [if_neg h, if_pos (decide_eq_true (Nat.cast_pos.mpr (Nat.pos_of_ne_zero h)))]
    rfl

theorem share_nonneg (u : ClientDelta) : 0 ≤ (share updates u : ℝ) := by
  rw [share_real]
  split
  · positivity
  · exact sampleShare_nonneg u

theorem sum_share (hne : updates ≠ []) : (updates.map (share updates : ClientDelta → ℝ)).sum = 1 := by
  rw [funext (share_real updates)]
  by_cases h : totalSamples updates = 0
  · have hlen : (updates.length : ℝ) ≠ 0 :=
      Nat.cast_ne_zero.mpr (List.length_pos_iff.mpr hne).ne'
    simp only [h, if_true, List.map_const', List.sum_replicate, nsmul_eq_mul]
    exact mul_one_div_cancel hlen
  · simp only [h, if_false]
    exact sum_sampleShare h

end Shares

section Tau
variable {updates : List ClientDelta} {u : ClientDelta}

theorem tau_reported {t : ℕ} (h : reportedSteps u = some t) :
    (tau updates u : ℝ) = (min t maxPlausibleLocalSteps : ℕ) := by
  rw [tau, h]
  rfl

theorem tau_missing (h : reportedSteps u = none) :
    (tau updates u : ℝ) = max (((reported updates).sum : ℝ)/(reported updates).length) 1 := by
  rw [tau, h]
  dsimp only
  unfold defaultTau
  dsimp only
  rw [Floating.max_real, Floating.sum_real]
  have hsum : ((updates.filterMap reportedSteps).map (Floating.ofNat : ℕ → ℝ)).sum =
      ((reported updates).sum : ℕ) := (Nat.cast_list_sum _).symm
  rw [hsum]
  rfl

theorem pos_of_reported {t : ℕ} (h : reportedSteps u = some t) : 0 < t :=
  of_decide_eq_true (Option.filter_eq_some_iff.mp h).2

/-- No count is below one. -/
theorem one_le_tau (updates : List ClientDelta) (u : ClientDelta) : 1 ≤ (tau updates u : ℝ) := by
  cases h : reportedSteps u with
  | none =>
    rw [tau_missing h]
    exact le_max_right _ _
  | some t =>
    rw [tau_reported h, Nat.one_le_cast]
    exact le_min (pos_of_reported h) (by decide)

theorem effectiveTau_real (updates : List ClientDelta) : (effectiveTau updates : ℝ) =
    (updates.map fun u => share updates u*tau updates u).sum :=
  Floating.sum_real _

theorem sum_share_mul (hne : updates ≠ []) (b : ℝ) :
    (updates.map fun u => share updates u*b).sum = b := by
  rw [List.sum_map_mul_right, sum_share hne, one_mul]

/-- The weighted mean is between bounds of all counts. -/
theorem le_effectiveTau (hne : updates ≠ []) {lo : ℝ} (h : ∀ u ∈ updates, lo ≤ tau updates u) :
    lo ≤ effectiveTau updates := by
  rw [effectiveTau_real, ← sum_share_mul hne lo]
  exact List.sum_le_sum fun u hu => mul_le_mul_of_nonneg_left (h u hu) (share_nonneg u)

theorem effectiveTau_le (hne : updates ≠ []) {hi : ℝ} (h : ∀ u ∈ updates, tau updates u ≤ hi) :
    effectiveTau updates ≤ hi := by
  rw [effectiveTau_real, ← sum_share_mul hne hi]
  exact List.sum_le_sum fun u hu => mul_le_mul_of_nonneg_left (h u hu) (share_nonneg u)

theorem effectiveTau_pos (hne : updates ≠ []) : 0 < (effectiveTau updates : ℝ) :=
  zero_lt_one.trans_le (le_effectiveTau hne fun u _ => one_le_tau updates u)

end Tau

section Update
variable {updates : List ClientDelta} {decoded : List (List F32)} {global : List ℝ}

/-- A round in which somebody reports a count moves the model by these coefficients. -/
theorem step_real (hd : decodeAndValidate updates = .ok decoded)
    (hlen : global.length = (decoded.headD []).length)
    (hsome : ∃ u ∈ updates, (reportedSteps u).isSome = true) :
    (optimizer (ν := ℝ)).step updates (embed decoded) global =
      .ok (moved global updates (coefficient updates)) := by
  have hne : updates ≠ [] := by
    rintro rfl
    obtain ⟨u,hu,-⟩ := hsome
    cases hu
  have hall : (updates.all fun u => (reportedSteps u).isNone) ≠ true := by
    intro h
    obtain ⟨u,hu,hu'⟩ := hsome
    rw [Option.isSome_iff_ne_none] at hu'
    exact hu' (Option.isNone_iff_eq_none.mp (List.all_eq_true.mp h u hu))
  have hpos : ¬(!Floating.isFinite (effectiveTau updates : ℝ) ||
      Floating.le (effectiveTau updates : ℝ) 0) = true := by
    intro h
    exact (effectiveTau_pos hne).not_ge (of_decide_eq_true h)
  simp only [optimizer]
  rw [if_neg hall, if_neg hpos, keepFinite_real]
  refine congrArg Except.ok ?_
  unfold normalizedStep
  rw [zip_rows hd, List.foldl_map]
  have hmoved := zipWith_foldl_moved hd hlen (f := fun acc u =>
    acc.zipWith (fun a p => a+coefficient updates u*(p.1-p.2)) ((row u).zip global))
    (fun _ _ _ => rfl) 1
  simp only [one_mul] at hmoved
  exact hmoved

/-- With counts below the ceiling, what the effective count comes to. -/
theorem effectiveTau_sum (htotal : totalSamples updates ≠ 0)
    (hcap : ∀ u ∈ updates, ∀ t ∈ reportedSteps u, t ≤ maxPlausibleLocalSteps) {mean : ℝ}
    (hmean : ∀ u ∈ updates, reportedSteps u = none → tau updates u = mean) :
    totalSamples updates*effectiveTau updates+reportedSamples updates*mean =
      sampleSteps updates+totalSamples updates*mean := by
  have htotal' : (totalSamples updates : ℝ) ≠ 0 := Nat.cast_ne_zero.mpr htotal
  have heffective : (totalSamples updates : ℝ)*effectiveTau updates =
      (updates.map fun u => (u.numSamples : ℝ)*tau updates u).sum := by
    rw [effectiveTau_real, ← List.sum_map_mul_left]
    refine congrArg List.sum (List.map_congr_left fun u _ => ?_)
    rw [share_real, if_neg htotal, sampleShare, ← mul_assoc, mul_div_cancel₀ _ htotal']
  rw [heffective, ← sum_numSamples, reportedSamples, sampleSteps, Nat.cast_list_sum,
    Nat.cast_list_sum, List.map_map, List.map_map, ← List.sum_map_mul_right,
    ← List.sum_map_mul_right, ← List.sum_map_add, ← List.sum_map_add]
  refine congrArg List.sum (List.map_congr_left fun u hu => ?_)
  cases h : reportedSteps u with
  | none =>
    simp only [Function.comp_apply, h, Option.isSome_none, Option.getD_none, hmean u hu h]
    simp
  | some t =>
    simp only [Function.comp_apply, h, Option.isSome_some, Option.getD_some, tau_reported h,
      Nat.min_eq_left (hcap u hu t h), if_true, Nat.cast_mul]

/-- The effective count is the substitute exactly when the two means agree. -/
theorem effectiveTau_eq_iff (htotal : totalSamples updates ≠ 0)
    (hcap : ∀ u ∈ updates, ∀ t ∈ reportedSteps u, t ≤ maxPlausibleLocalSteps)
    (hsome : ∃ u ∈ updates, (reportedSteps u).isSome = true) {k : ClientDelta}
    (hk : reportedSteps k = none) :
    effectiveTau updates = (tau updates k : ℝ) ↔ SameMeans updates := by
  obtain ⟨u,hu,hreports⟩ := hsome
  have hcount : (0 : ℝ) < (reported updates).length := by
    obtain ⟨t,ht⟩ := Option.isSome_iff_exists.mp hreports
    exact Nat.cast_pos.mpr (List.length_pos_of_mem (List.mem_filterMap.mpr ⟨u,hu,ht⟩))
  have hge : (reported updates).length ≤ (reported updates).sum := by
    have hcard := (reported updates).card_nsmul_le_sum 1 fun t ht => by
      obtain ⟨v,-,hv⟩ := List.mem_filterMap.mp ht
      exact pos_of_reported hv
    rwa [nsmul_eq_mul, mul_one] at hcard
  have htau : (tau updates k : ℝ) = ((reported updates).sum : ℝ)/(reported updates).length := by
    rw [tau_missing hk, max_eq_left]
    exact (one_le_div hcount).mpr (Nat.cast_le.mpr hge)
  have hmean : ∀ v ∈ updates, reportedSteps v = none → (tau updates v : ℝ) = tau updates k :=
    fun v _ hv => by rw [tau_missing hv, tau_missing hk]
  have hsum := effectiveTau_sum htotal hcap hmean
  have htotal' : (totalSamples updates : ℝ) ≠ 0 := Nat.cast_ne_zero.mpr htotal
  have hsplit : effectiveTau updates = (tau updates k : ℝ) ↔
      (sampleSteps updates : ℝ) = reportedSamples updates*tau updates k := by
    constructor
    · intro h
      rw [h] at hsum
      linarith
    · intro h
      refine mul_left_cancel₀ htotal' ?_
      linarith
  rw [hsplit, htau, mul_div_assoc', eq_div_iff hcount.ne']
  exact_mod_cast Iff.rfl

theorem coefficient_eq_sampleShare_iff (htotal : totalSamples updates ≠ 0)
    (hcap : ∀ u ∈ updates, ∀ t ∈ reportedSteps u, t ≤ maxPlausibleLocalSteps)
    (hsome : ∃ u ∈ updates, (reportedSteps u).isSome = true) {k : ClientDelta}
    (hk : reportedSteps k = none) :
    coefficient updates k = sampleShare updates k ↔ k.numSamples = 0 ∨ SameMeans updates := by
  have htotal' : (totalSamples updates : ℝ) ≠ 0 := Nat.cast_ne_zero.mpr htotal
  have htau : (tau updates k : ℝ) ≠ 0 := (zero_lt_one.trans_le (one_le_tau updates k)).ne'
  have hshare : sampleShare updates k = 0 ↔ k.numSamples = 0 := by
    rw [sampleShare, div_eq_zero_iff, or_iff_left htotal', Nat.cast_eq_zero]
  rw [coefficient, share_real, if_neg htotal, div_eq_iff htau, mul_comm (sampleShare updates k),
    mul_eq_mul_right_iff, hshare, effectiveTau_eq_iff htotal hcap hsome hk, or_comm]

end Update

/-- A client that reports no count gets the coefficient it has in FedAvg exactly when it has no
samples, or when the reported counts have the same mean by samples and without. -/
theorem missing_coefficient_iff {updates : List ClientDelta} {decoded : List (List F32)}
    {global : List ℝ} (hd : decodeAndValidate updates = .ok decoded)
    (hlen : global.length = (decoded.headD []).length) (htotal : 0 < totalSamples updates)
    (hsome : ∃ u ∈ updates, (reportedSteps u).isSome = true)
    (hcap : ∀ u ∈ updates, ∀ t ∈ reportedSteps u, t ≤ maxPlausibleLocalSteps) :
    (optimizer (ν := ℝ)).aggregate (some global) updates =
        (.ok (moved global updates (coefficient updates)),
          some (moved global updates (coefficient updates))) ∧
      ∀ k ∈ updates, reportedSteps k = none →
        (coefficient updates k = sampleShare updates k ↔
          k.numSamples = 0 ∨ SameMeans updates) := by
  have hne := ne_nil_of_totalSamples htotal.ne'
  exact ⟨Optimizer.aggregate_step _ hd hne hlen (step_real hd hlen hsome),fun k _ hk =>
    coefficient_eq_sampleShare_iff htotal.ne' hcap hsome hk⟩

/-- The client with three quarters of the reporters' samples took one step, the other one three. -/
def unevenSteps : List ClientDelta :=
  [{ reportedWeight "a" F32.one 3 with localSteps := some 1 },
    { reportedWeight "b" F32.one 1 with localSteps := some 3 },reportedWeight "c" F32.one 1]

theorem missing_coefficient_iff_unevenSteps :
    (optimizer (ν := ℝ)).aggregate (some [0]) unevenSteps =
        (.ok (moved [0] unevenSteps (coefficient unevenSteps)),
          some (moved [0] unevenSteps (coefficient unevenSteps))) ∧
      ∀ k ∈ unevenSteps, reportedSteps k = none →
        (coefficient unevenSteps k = sampleShare unevenSteps k ↔
          k.numSamples = 0 ∨ SameMeans unevenSteps) := by
  have hd : decodeAndValidate unevenSteps = .ok [[F32.one],[F32.one],[F32.one]] := by decide +kernel
  exact missing_coefficient_iff hd rfl (by decide) ⟨_,List.mem_cons_self,rfl⟩ (by decide)

/-- The third client counts for less than its share of the samples. -/
theorem missing_coefficient_unevenSteps :
    (optimizer (ν := ℝ)).after [[reportedWeight "a" F32.zero 1]] = some [0] ∧
      (optimizer (ν := ℝ)).aggregate (some [0]) unevenSteps =
        (.ok (moved [0] unevenSteps (coefficient unevenSteps)),
          some (moved [0] unevenSteps (coefficient unevenSteps))) ∧
      reportedSteps (reportedWeight "c" F32.one 1) = none ∧
      coefficient unevenSteps (reportedWeight "c" F32.one 1) ≠
        sampleShare unevenSteps (reportedWeight "c" F32.one 1) := by
  have hd : decodeAndValidate unevenSteps = .ok [[F32.one],[F32.one],[F32.one]] := by decide +kernel
  have hsome : ∃ u ∈ unevenSteps, (reportedSteps u).isSome = true := ⟨_,List.mem_cons_self,rfl⟩
  refine ⟨?_,Optimizer.aggregate_step _ hd (List.cons_ne_nil _ _) rfl (step_real hd rfl hsome),rfl,?_⟩
  · have hzero : decodeAndValidate [reportedWeight "a" F32.zero 1] = .ok [[F32.zero]] := by
      decide +kernel
    have hseed := averageBySamples_real hzero
    rw [if_neg (by decide)] at hseed
    refine (congrArg Prod.snd (Optimizer.aggregate_seed _ hzero (List.cons_ne_nil _ _) nofun
      hseed)).trans (congrArg some ?_)
    refine Coordinates.ext_getD 0 rfl fun k hk => ?_
    obtain rfl : k = 0 := Nat.lt_one_iff.mp hk
    refine (getD_mixture hk).trans ?_
    simp [row_of_encoded (u := reportedWeight "a" F32.zero 1) rfl]
  · rw [Ne, coefficient_eq_sampleShare_iff (by decide) (by decide) hsome rfl]
    unfold SameMeans
    decide

end ConfluxFL.FedNova
