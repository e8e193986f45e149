import ConfluxFL.Core.StepCounts
import ConfluxFL.Lib.DoubleError

/-! FedNova's step counts in double precision. The counts that are reported are exact; the one that
stands in for a missing count is one rounding from a mean, and the effective count a few more from
the mean of all. -/
namespace ConfluxFL.FedNova

/-- From one to the ceiling. -/
def Within (z : F64) : Prop :=
  F64.one.le z = true ∧ z.le (F64.ofNat maxPlausibleLocalSteps) = true

instance : DecidablePred Within := fun _ => inferInstanceAs (Decidable (_ ∧ _))

/-- Every count that is divided by is at least one and not above the ceiling, and so is their
weighted mean. -/
structure StepCountsPlausible (updates : List ClientDelta) : Prop where
  each : ∀ u ∈ updates, Within (tau updates u)
  effective : Within (effectiveTau updates)

/-- Nobody needs the substitute, or the mean of what was reported is below the ceiling, too. -/
def MeanBelowCeiling (updates : List ClientDelta) : Prop :=
  (∀ u ∈ updates, (reportedSteps u).isSome = true) ∨
    (reported updates).sum ≤ maxPlausibleLocalSteps*(reported updates).length

/-- Few enough updates and counts for exact sums of counts. -/
def Countable (updates : List ClientDelta) : Prop :=
  updates.length < 2^40 ∧ (reported updates).sum < 2^52

/-- The roundings on the way to the effective count: those of the total, of a share, a substitute
and a product, and of the sum. -/
def roundings (updates : List ClientDelta) : ℕ := 2*updates.length+3

/-- The exact mean is further from both bounds than these can take it. -/
structure Apart (updates : List ClientDelta) : Prop where
  one_le : 1 ≤ (effectiveTau updates : ℝ)*(1-roundings updates*(1/2^52))
  le_ceiling : (effectiveTau updates : ℝ) ≤
    maxPlausibleLocalSteps*(1-roundings updates*(1/2^52))

/-- Nothing is rounded: the shares are binary fractions of at most 32 digits, and the counts whole
numbers. -/
structure Unrounded (updates : List ClientDelta) : Prop where
  total_lt : totalSamples updates < 2^53
  fractions : ∃ j ≤ 32, ∀ u ∈ updates,
    ∃ a t : ℕ, (share updates u : ℝ) = a/2^j ∧ (tau updates u : ℝ) = t

section Within
variable {z : F64}

theorem toReal_one : F64.one.isFinite = true ∧ F64.one.toReal = 1 := by
  have h := @F64.toReal_ofNat 1 (by decide)
  have hone : F64.ofNat 1 = F64.one := by decide +kernel
  rwa [hone, Nat.cast_one] at h

theorem within_iff (h : z.isFinite = true) :
    Within z ↔ 1 ≤ z.toReal ∧ z.toReal ≤ maxPlausibleLocalSteps := by
  have hmax := @F64.toReal_ofNat maxPlausibleLocalSteps (by decide)
  rw [Within, F64.le_eq_toReal toReal_one.1 h, F64.le_eq_toReal h hmax.1, toReal_one.2, hmax.2,
    decide_eq_true_iff, decide_eq_true_iff]

/-- The larger of a number and one. -/
theorem max_one (h : z.isFinite = true) : (Floating.max z 1).isFinite = true ∧
    (Floating.max z 1).toReal = max z.toReal 1 := by
  have hnan : z.isNaN = false := by
    rw [F64.isNaN_eq_false_iff]
    exact (F64.held h).finite.ne_nan
  have hlt := F64.lt_eq_toReal h toReal_one.1
  rw [toReal_one.2] at hlt
  have hmax : Floating.max z 1 = if z.lt F64.one = true then F64.one else z := by
    change (if z.isNaN = true then F64.one else _) = _
    rw [hnan, if_neg Bool.false_ne_true]
    rfl
  rw [hmax, hlt]
  by_cases hz : z.toReal < 1
  · rw [if_pos (decide_eq_true hz), toReal_one.2, max_eq_right hz.le]
    exact ⟨toReal_one.1,rfl⟩
  · rw [if_neg (by simpa using hz), max_eq_left (not_lt.mp hz)]
    exact ⟨h,rfl⟩

end Within

section Substitute
variable {updates : List ClientDelta}

theorem length_reported_le : (reported updates).length ≤ (reported updates).sum := by
  have hcard := (reported updates).card_nsmul_le_sum 1 fun t ht => by
    obtain ⟨u,-,hu⟩ := List.mem_filterMap.mp ht
    exact pos_of_reported hu
  rwa [nsmul_eq_mul, mul_one] at hcard

/-- The mean of the reported counts. -/
theorem one_le_mean (hsome : reported updates ≠ []) :
    1 ≤ ((reported updates).sum : ℝ)/(reported updates).length :=
  (one_le_div (Nat.cast_pos.mpr (List.length_pos_iff.mpr hsome))).mpr
    (Nat.cast_le.mpr length_reported_le)

theorem sum_reported (hsum : (reported updates).sum < 2^52) :
    (Floating.sum ((reported updates).map F64.ofNat)).isFinite = true ∧
      (Floating.sum ((reported updates).map F64.ofNat)).toReal = (reported updates).sum := by
  have hexact := @F64.exact_sum ℕ (reported updates) F64.ofNat id 0 (by decide) (fun t ht => by
    have ht' : t < 2^53 := (List.single_le_sum (fun _ _ => Nat.zero_le _) t ht).trans_lt
      (hsum.trans (by decide))
    rw [pow_zero, div_one]
    exact F64.toReal_ofNat ht') (by rw [List.map_id]; omega)
  rwa [List.map_id, pow_zero, div_one] at hexact

/-- The substitute, from the one quotient that is rounded. -/
theorem defaultTau_quotient (hsome : reported updates ≠ []) (hsum : (reported updates).sum < 2^52) :
    ∃ z : F64, z.Rounds (((reported updates).sum : ℝ)/(reported updates).length) ∧
      (defaultTau updates : F64).isFinite = true ∧
      (defaultTau updates : F64).toReal = max z.toReal 1 := by
  have hlen : 0 < (reported updates).length := List.length_pos_iff.mpr hsome
  have hlen' : (0 : ℝ) < (reported updates).length := Nat.cast_pos.mpr hlen
  obtain ⟨hfinite,hvalue⟩ := sum_reported hsum
  obtain ⟨hfinite',hvalue'⟩ := @F64.toReal_ofNat (reported updates).length
    (length_reported_le.trans_lt (hsum.trans (by decide)))
  have hone := one_le_mean hsome
  have hlt : ((reported updates).sum : ℝ)/(reported updates).length ≤ 2^1023 := by
    have hsum' : ((reported updates).sum : ℝ) ≤ 2^52 := by exact_mod_cast hsum.le
    refine (div_le_self (Nat.cast_nonneg _) (Nat.one_le_cast.mpr hlen)).trans (hsum'.trans ?_)
    exact pow_le_pow_right₀ (by norm_num) (by norm_num)
  have hrounds := F64.rounds_div hfinite hfinite' (by rw [hvalue']; exact hlen'.ne') (fun _ => by
      rw [hvalue, hvalue', abs_of_nonneg (zero_le_one.trans hone)]
      exact (zpow_le_one_of_nonpos₀ (by norm_num) (by norm_num)).trans hone)
    (by rwa [hvalue, hvalue', abs_of_nonneg (zero_le_one.trans hone)])
  rw [hvalue, hvalue'] at hrounds
  exact ⟨_,hrounds,max_one hrounds.isFinite⟩

theorem defaultTau_nil (hnone : reported updates = []) : (defaultTau updates : F64) = F64.one := by
  have hempty : updates.filterMap reportedSteps = [] := hnone
  unfold defaultTau
  rw [hempty]
  decide +kernel

/-- The substitute is at least one, and above the ceiling exactly if the exact mean is. -/
theorem within_defaultTau_iff (hsum : (reported updates).sum < 2^52) :
    Within (defaultTau updates) ↔
      (reported updates).sum ≤ maxPlausibleLocalSteps*(reported updates).length := by
  by_cases hsome : reported updates = []
  · rw [defaultTau_nil hsome, hsome]
    exact iff_of_true (by decide +kernel) (by decide)
  have hlen : (0 : ℝ) < (reported updates).length :=
    Nat.cast_pos.mpr (List.length_pos_iff.mpr hsome)
  obtain ⟨z,hz,hfinite,hvalue⟩ := defaultTau_quotient hsome hsum
  obtain ⟨mean,hmean⟩ : ∃ mean : ℝ, ((reported updates).sum : ℝ)/(reported updates).length = mean :=
    ⟨_,rfl⟩
  have hmul : mean*(reported updates).length = (reported updates).sum := by
    rw [← hmean, div_mul_cancel₀ _ hlen.ne']
  have hone := one_le_mean hsome
  rw [hmean] at hz hone
  have hnonneg : 0 ≤ mean := zero_le_one.trans hone
  rw [within_iff hfinite, hvalue, and_iff_right (le_max_right _ _), max_le_iff,
    and_iff_left (Nat.one_le_cast.mpr (by decide))]
  -- one count more or less is more than the rounding of the quotient
  have hleast : (2 : ℝ)^(-1022 : ℤ) ≤ 1 := zpow_le_one_of_nonpos₀ (by norm_num) (by norm_num)
  have herror := hz.relative (.inr (hleast.trans (hone.trans (le_abs_self mean))))
  have hsmall : mean*(reported updates).length < 2^52 := by
    rw [hmul]
    exact_mod_cast hsum
  rw [abs_of_nonneg hnonneg] at herror
  obtain ⟨hlow,hhigh⟩ := abs_le.mp herror
  constructor
  · intro h
    by_contra hlarge
    have hlarge' : (maxPlausibleLocalSteps : ℝ)*(reported updates).length+1 ≤
        mean*(reported updates).length := by
      rw [hmul]
      exact_mod_cast Nat.lt_of_not_le hlarge
    have := mul_le_mul_of_nonneg_right (hlow.trans (sub_le_sub_right h mean)) hlen.le
    linarith
  · intro h
    rcases h.eq_or_lt with heq | hlt
    · have hexact : mean = ((maxPlausibleLocalSteps : ℕ) : ℝ)/2^0 := by
        rw [pow_zero, div_one, ← hmean, heq, Nat.cast_mul, mul_div_cancel_right₀ _ hlen.ne']
      rw [hexact] at hz
      exact (hz.exact (by decide) (by decide)).le.trans_eq (by rw [pow_zero, div_one])
    · have hless : mean*(reported updates).length+1 ≤
          (maxPlausibleLocalSteps : ℝ)*(reported updates).length := by
        rw [hmul]
        exact_mod_cast hlt
      refine le_of_mul_le_mul_right (?_ : z.toReal*(reported updates).length ≤ _) hlen
      have := mul_le_mul_of_nonneg_right (sub_le_iff_le_add'.mp hhigh) hlen.le
      linarith

end Substitute

section Rounded
variable {updates : List ClientDelta} {decoded : List (List F32)}

theorem totalSamples_le (hd : decodeAndValidate updates = .ok decoded) :
    totalSamples updates ≤ updates.length*2^40 := by
  have hsum := List.sum_le_card_nsmul (updates.map ClientDelta.numSamples) (2^40) fun n hn => by
    obtain ⟨u,hu,rfl⟩ := List.mem_map.mp hn
    exact ((decodeAndValidate_ok hd).2 u hu).2.2.2
  rwa [List.length_map, smul_eq_mul] at hsum

theorem totalSamples_lt (hd : decodeAndValidate updates = .ok decoded)
    (hlen : updates.length < 2^40) : (totalSamples updates : ℝ) ≤ 2^80 := by
  have hmul : updates.length*2^40 ≤ 2^40*2^40 := Nat.mul_le_mul_right _ hlen.le
  have hle := (totalSamples_le hd).trans hmul
  exact_mod_cast hle.trans_eq (by norm_num)

theorem isNear_total (hd : decodeAndValidate updates = .ok decoded) (hlen : updates.length < 2^40) :
    (Floating.sum (updates.map fun u => F64.ofNat u.numSamples)).IsNear updates.length
      (totalSamples updates) := by
  have hsum := @F64.IsNear.sum 0 ClientDelta updates (fun u => F64.ofNat u.numSamples)
    (fun u => u.numSamples)
    (fun u hu => .ofNat (((decodeAndValidate_ok hd).2 u hu).2.2.2.trans_lt (by decide))) (by
      rw [sum_numSamples]
      exact (totalSamples_lt hd hlen).trans (pow_le_pow_right₀ (by norm_num) (by norm_num)))
    (by omega)
  rwa [sum_numSamples, Nat.zero_add] at hsum

theorem share_le_one {u : ClientDelta} (hu : u ∈ updates) : (share updates u : ℝ) ≤ 1 := by
  rw [← sum_share (List.ne_nil_of_mem hu)]
  exact List.single_le_sum (fun x hx => by
    obtain ⟨v,-,rfl⟩ := List.mem_map.mp hx
    exact share_nonneg v) _ (List.mem_map_of_mem hu)

/-- No share but zero is very small. -/
theorem least_share (hd : decodeAndValidate updates = .ok decoded) (hlen : updates.length < 2^40)
    {u : ClientDelta} (hu : u ∈ updates) :
    (share updates u : ℝ) = 0 ∨ 2^(-80 : ℤ) ≤ (share updates u : ℝ) := by
  have hone : (2 : ℝ)^(-80 : ℤ) = 1/2^80 := by norm_num
  rw [share_real, hone]
  split
  · have hlen' : (updates.length : ℝ) ≤ 2^80 := by
      exact_mod_cast hlen.le.trans (Nat.pow_le_pow_right (by decide) (by decide))
    have hpos : (0 : ℝ) < updates.length := Nat.cast_pos.mpr (List.length_pos_of_mem hu)
    exact .inr (one_div_le_one_div_of_le hpos hlen')
  · rename_i htotal
    have hpos : (0 : ℝ) < totalSamples updates := Nat.cast_pos.mpr (Nat.pos_of_ne_zero htotal)
    rw [sampleShare]
    by_cases hzero : u.numSamples = 0
    · exact .inl (by rw [hzero, Nat.cast_zero, zero_div])
    · right
      have hsamples : (1 : ℝ) ≤ u.numSamples := Nat.one_le_cast.mpr (Nat.pos_of_ne_zero hzero)
      exact div_le_div₀ (by linarith) hsamples hpos (totalSamples_lt hd hlen)

/-- The branch taken is the one of exact arithmetic. -/
theorem share_double (hd : decodeAndValidate updates = .ok decoded) (hlen : updates.length < 2^40)
    (u : ClientDelta) : (share updates u : F64) =
      if totalSamples updates = 0 then F64.one/F64.ofNat updates.length
      else F64.ofNat u.numSamples/Floating.sum (updates.map fun u => F64.ofNat u.numSamples) := by
  have htotal := isNear_total hd hlen
  obtain ⟨hlow,hhigh⟩ := htotal.le_two_mul (hlen.le.trans (by decide))
  have hzero : F64.zero.isFinite = true ∧ F64.zero.toReal = 0 :=
    ⟨by decide,(F64.toReal_eq _).trans Rat.cast_zero⟩
  have hlt := F64.lt_eq_toReal hzero.1 htotal.isFinite
  rw [hzero.2] at hlt
  have hshare : (share updates u : F64) = if F64.zero.lt (Floating.sum
      (updates.map fun u => F64.ofNat u.numSamples)) = true then F64.ofNat u.numSamples/
        Floating.sum (updates.map fun u => F64.ofNat u.numSamples)
      else F64.one/F64.ofNat updates.length := rfl
  rw [hshare, hlt]
  by_cases h : totalSamples updates = 0
  · rw [h, Nat.cast_zero, mul_zero] at hhigh
    rw [if_pos h, if_neg (by simpa using hhigh)]
  · have hpos : (0 : ℝ) < totalSamples updates := Nat.cast_pos.mpr (Nat.pos_of_ne_zero h)
    rw [if_neg h, if_pos (decide_eq_true (by linarith))]

theorem isNear_share (hd : decodeAndValidate updates = .ok decoded) (hlen : updates.length < 2^40)
    {u : ClientDelta} (hu : u ∈ updates) :
    (share updates u : F64).IsNear (updates.length+1) (share updates u) := by
  have hmoderate : F64.IsNear.Moderate (share updates u : ℝ) := by
    refine ⟨(share_le_one hu).trans (one_le_pow₀ (by norm_num)),
      (least_share hd hlen hu).imp_right ?_⟩
    exact (zpow_le_zpow_right₀ (by norm_num) (by norm_num)).trans
  rw [share_double hd hlen]
  rw [share_real] at hmoderate ⊢
  by_cases h : totalSamples updates = 0
  · rw [if_pos h] at hmoderate ⊢
    rw [if_pos h]
    have hpos : (0 : ℝ) < updates.length := Nat.cast_pos.mpr (List.length_pos_of_mem hu)
    have hone : F64.one.IsNear 0 1 := .of_exact toReal_one.1 toReal_one.2 zero_le_one
    exact (hone.div (.ofNat (hlen.trans (by decide))) hpos (by decide) hmoderate).mono (by omega)
  · rw [if_neg h] at hmoderate ⊢
    rw [if_neg h]
    have hpos : (0 : ℝ) < totalSamples updates := Nat.cast_pos.mpr (Nat.pos_of_ne_zero h)
    have hsamples : (F64.ofNat u.numSamples).IsNear 0 u.numSamples :=
      .ofNat (((decodeAndValidate_ok hd).2 u hu).2.2.2.trans_lt (by decide))
    have hdiv := hsamples.div (isNear_total hd hlen) hpos (by omega) hmoderate
    rwa [Nat.zero_add] at hdiv

theorem tau_le (hsum : (reported updates).sum < 2^52) (u : ClientDelta) :
    (tau updates u : ℝ) ≤ 2^52 := by
  have hsum' : ((reported updates).sum : ℝ) ≤ 2^52 := by exact_mod_cast hsum.le
  cases h : reportedSteps u with
  | some t =>
    have hmin : ((min t maxPlausibleLocalSteps : ℕ) : ℝ) ≤ maxPlausibleLocalSteps :=
      Nat.cast_le.mpr (min_le_right _ _)
    rw [tau_reported h]
    exact hmin.trans (by norm_num [maxPlausibleLocalSteps])
  | none =>
    rw [tau_missing h]
    refine max_le ?_ (one_le_pow₀ (by norm_num))
    by_cases hnil : reported updates = []
    · rw [hnil]
      norm_num
    · exact (div_le_self (Nat.cast_nonneg _)
        (Nat.one_le_cast.mpr (List.length_pos_iff.mpr hnil))).trans hsum'

theorem isNear_tau (hsum : (reported updates).sum < 2^52) (u : ClientDelta) :
    (tau updates u : F64).IsNear 1 (tau updates u) := by
  cases h : reportedSteps u with
  | some t =>
    have hvalue : (tau updates u : F64) = F64.ofNat (min t maxPlausibleLocalSteps) := by
      rw [tau, h]
      rfl
    rw [hvalue, tau_reported h]
    exact (F64.IsNear.ofNat ((min_le_right _ _).trans_lt (by decide))).mono (Nat.zero_le 1)
  | none =>
    have hvalue : (tau updates u : F64) = defaultTau updates := by
      rw [tau, h]
    rw [hvalue, tau_missing h]
    by_cases hnil : reported updates = []
    · rw [defaultTau_nil hnil, hnil]
      have hone : F64.one.IsNear 0 1 := .of_exact toReal_one.1 toReal_one.2 zero_le_one
      have hmax : max (((([] : List ℕ).sum : ℕ) : ℝ)/(([] : List ℕ).length : ℕ)) 1 = 1 := by
        norm_num
      rw [hmax]
      exact hone.mono (Nat.zero_le 1)
    · obtain ⟨z,hz,hfinite,hmax⟩ := defaultTau_quotient hnil hsum
      have hone := one_le_mean hnil
      have hleast : (2 : ℝ)^(-1022 : ℤ) ≤ 1 := zpow_le_one_of_nonpos₀ (by norm_num) (by norm_num)
      have herror := hz.relative (.inr (hleast.trans (hone.trans (le_abs_self _))))
      have hnonneg := zero_le_one.trans hone
      rw [abs_of_nonneg hnonneg] at herror
      rw [max_eq_left hone]
      refine F64.IsNear.of_relative hfinite hnonneg hnonneg ?_ (.refl _)
      rw [hmax]
      -- the exact mean is not below one either
      rcases max_cases z.toReal 1 with ⟨heq,-⟩ | ⟨heq,hlt⟩
      · rwa [heq]
      · rw [heq]
        obtain ⟨hlow,-⟩ := abs_le.mp herror
        rw [abs_le]
        constructor <;> linarith

/-- The effective count and the exact mean. -/
theorem isNear_effectiveTau (hd : decodeAndValidate updates = .ok decoded)
    (hlen : updates.length < 2^40) (hsum : (reported updates).sum < 2^52) :
    (effectiveTau updates : F64).IsNear (roundings updates) (effectiveTau updates) := by
  have hterm : ∀ u ∈ updates, ((share updates u : F64)*tau updates u).IsNear (updates.length+3)
      (share updates u*tau updates u) := by
    intro u hu
    have htau := one_le_tau updates u
    refine (isNear_share hd hlen hu).mul (isNear_tau hsum u) (by omega) ⟨?_,?_⟩
    · calc (share updates u : ℝ)*tau updates u ≤ 1*2^52 :=
          mul_le_mul (share_le_one hu) (tau_le hsum u) (by linarith) zero_le_one
        _ = 2^52 := one_mul _
        _ ≤ 2^1000 := pow_le_pow_right₀ (by norm_num) (by norm_num)
    · rcases least_share hd hlen hu with hzero | hleast
      · exact .inl (by rw [hzero, zero_mul])
      · right
        calc (2 : ℝ)^(-1000 : ℤ) ≤ 2^(-80 : ℤ) := zpow_le_zpow_right₀ (by norm_num) (by norm_num)
          _ ≤ share updates u := hleast
          _ ≤ share updates u*tau updates u := le_mul_of_one_le_right (share_nonneg u) htau
  have hne : updates = [] ∨ updates ≠ [] := eq_or_ne _ _
  have htotal : (updates.map fun u => (share updates u : ℝ)*tau updates u).sum ≤ 2^1000 := by
    rw [← effectiveTau_real]
    rcases hne with rfl | hne
    · rw [effectiveTau_real]
      exact (List.sum_nil).trans_le (by positivity)
    · exact (effectiveTau_le hne fun u _ => tau_le hsum u).trans
        (pow_le_pow_right₀ (by norm_num) (by norm_num))
  have hnear := F64.IsNear.sum hterm htotal (by omega)
  rw [← effectiveTau_real] at hnear
  exact hnear.mono (by unfold roundings; omega)

end Rounded

section Exact
variable {updates : List ClientDelta} {decoded : List (List F32)} {j : ℕ}

/-- A share that is a short binary fraction is not rounded. -/
theorem share_exact (hd : decodeAndValidate updates = .ok decoded) (hlen : updates.length < 2^40)
    (htotal : totalSamples updates < 2^53) (hj : j ≤ 32) {u : ClientDelta} (hu : u ∈ updates)
    {a : ℕ} (h : (share updates u : ℝ) = a/2^j) :
    (share updates u : F64).isFinite = true ∧ (share updates u : F64).toReal = a/2^j := by
  have hpow : (2 : ℝ)^j ≤ 2^32 := pow_le_pow_right₀ (by norm_num) hj
  have ha : a < 2^53 := by
    have hle := share_le_one hu
    rw [h, div_le_one (by positivity)] at hle
    have hcast : (a : ℝ) ≤ 2^32 := hle.trans hpow
    have : a ≤ 2^32 := by exact_mod_cast hcast
    omega
  have hsum := @F64.exact_sum ClientDelta updates (fun u => F64.ofNat u.numSamples)
    ClientDelta.numSamples 0 (by decide) (fun v hv => by
      rw [pow_zero, div_one]
      exact F64.toReal_ofNat (((decodeAndValidate_ok hd).2 v hv).2.2.2.trans_lt (by decide))) htotal
  rw [share_double hd hlen]
  rw [share_real] at h
  by_cases hzero : totalSamples updates = 0
  · rw [if_pos hzero] at h ⊢
    have hpos : (0 : ℝ) < updates.length := Nat.cast_pos.mpr (List.length_pos_of_mem hu)
    obtain ⟨hfinite,hvalue⟩ := @F64.toReal_ofNat updates.length (hlen.trans (by decide))
    exact F64.exact_div toReal_one.1 hfinite (by rw [hvalue]; exact hpos.ne') ha (by omega)
      (by rw [toReal_one.2, hvalue, h])
  · rw [if_neg hzero] at h ⊢
    have hpos : (0 : ℝ) < totalSamples updates := Nat.cast_pos.mpr (Nat.pos_of_ne_zero hzero)
    obtain ⟨hfinite,hvalue⟩ := @F64.toReal_ofNat u.numSamples
      (((decodeAndValidate_ok hd).2 u hu).2.2.2.trans_lt (by decide))
    have htotal' : (Floating.sum (updates.map fun u => F64.ofNat u.numSamples)).toReal =
        totalSamples updates := by
      rw [hsum.2, pow_zero, div_one]
      rfl
    exact F64.exact_div hfinite hsum.1 (by rw [htotal']; exact hpos.ne') ha (by omega)
      (by rw [hvalue, htotal', ← h, sampleShare])

/-- Neither is a count that is a whole number. -/
theorem tau_exact (hsum : (reported updates).sum < 2^52) {u : ClientDelta} {t : ℕ}
    (h : (tau updates u : ℝ) = t) (ht : t < 2^53) :
    (tau updates u : F64).isFinite = true ∧ (tau updates u : F64).toReal = t := by
  cases hsteps : reportedSteps u with
  | some n =>
    have hvalue : (tau updates u : F64) = F64.ofNat (min n maxPlausibleLocalSteps) := by
      rw [tau, hsteps]
      rfl
    rw [tau_reported hsteps] at h
    rw [hvalue, ← h]
    exact F64.toReal_ofNat ((min_le_right _ _).trans_lt (by decide))
  | none =>
    have hvalue : (tau updates u : F64) = defaultTau updates := by
      rw [tau, hsteps]
    rw [tau_missing hsteps] at h
    rw [hvalue]
    by_cases hnil : reported updates = []
    · rw [hnil] at h
      have hone : (1 : ℝ) = t := by
        rw [← h]
        norm_num
      rw [defaultTau_nil hnil, ← hone]
      exact toReal_one
    · obtain ⟨z,hz,hfinite,hmax⟩ := defaultTau_quotient hnil hsum
      rw [max_eq_left (one_le_mean hnil)] at h
      have hone : (1 : ℝ) ≤ t := h ▸ one_le_mean hnil
      have hexact : ((reported updates).sum : ℝ)/(reported updates).length = (t : ℝ)/2^0 := by
        rw [h, pow_zero, div_one]
      rw [hexact] at hz
      refine ⟨hfinite,?_⟩
      rw [hmax, hz.exact ht (by decide), pow_zero, div_one, max_eq_left hone]

/-- Nor is their product. -/
theorem term_exact (hd : decodeAndValidate updates = .ok decoded) (hlen : updates.length < 2^40)
    (hsum : (reported updates).sum < 2^52) (htotal : totalSamples updates < 2^53) (hj : j ≤ 32)
    {u : ClientDelta} (hu : u ∈ updates) {a t : ℕ} (ha : (share updates u : ℝ) = a/2^j)
    (ht : (tau updates u : ℝ) = t) (hcap : t ≤ 2^20) :
    ((share updates u : F64)*tau updates u).isFinite = true ∧
      ((share updates u : F64)*tau updates u).toReal = (a*t : ℕ)/2^j := by
  have hle : a*t ≤ 2^32*2^20 := by
    have hshare := share_le_one hu
    rw [ha, div_le_one (by positivity)] at hshare
    have hpow : (2 : ℝ)^j ≤ 2^32 := pow_le_pow_right₀ (by norm_num) hj
    have ha32 : a ≤ 2^32 := by exact_mod_cast hshare.trans hpow
    exact Nat.mul_le_mul ha32 hcap
  obtain ⟨hfinite,hvalue⟩ := share_exact hd hlen htotal hj hu ha
  obtain ⟨hfinite',hvalue'⟩ := tau_exact hsum ht (by omega)
  refine F64.exact_mul hfinite hfinite' (by omega) (by omega) ?_
  rw [hvalue, hvalue']
  push_cast
  ring

/-- And then the effective count is the exact mean. -/
theorem effectiveTau_exact (hd : decodeAndValidate updates = .ok decoded) (hne : updates ≠ [])
    (hlen : updates.length < 2^40) (hsum : (reported updates).sum < 2^52)
    (hcap : ∀ u ∈ updates, (tau updates u : ℝ) ≤ maxPlausibleLocalSteps) (h : Unrounded updates) :
    (effectiveTau updates : F64).isFinite = true ∧
      (effectiveTau updates : F64).toReal = (effectiveTau updates : ℝ) := by
  obtain ⟨htotal,j,hj,hall⟩ := h
  have hpos : (0 : ℝ) < 2^j := by positivity
  have hterm : ∀ u ∈ updates, ((share updates u : F64)*tau updates u).isFinite = true ∧
      ((share updates u : F64)*tau updates u).toReal =
        (⌊(share updates u : ℝ)*tau updates u*2^j⌋₊ : ℕ)/2^j ∧
      (⌊(share updates u : ℝ)*tau updates u*2^j⌋₊ : ℝ) = share updates u*tau updates u*2^j := by
    intro u hu
    obtain ⟨a,t,ha,ht⟩ := hall u hu
    have htcap : t ≤ 2^20 := by
      have hle := hcap u hu
      rw [ht] at hle
      exact_mod_cast hle
    have hproduct : (share updates u : ℝ)*tau updates u*2^j = (a*t : ℕ) := by
      rw [ha, ht]
      push_cast
      field_simp
    obtain ⟨hfinite,hvalue⟩ := term_exact hd hlen hsum htotal hj hu ha ht htcap
    rw [hproduct, Nat.floor_natCast]
    exact ⟨hfinite,hvalue,rfl⟩
  have hvalue : (((updates.map fun u => ⌊(share updates u : ℝ)*tau updates u*2^j⌋₊).sum : ℕ) : ℝ) =
      effectiveTau updates*2^j := by
    rw [Nat.cast_list_sum, List.map_map, effectiveTau_real, ← List.sum_map_mul_right]
    exact congrArg List.sum (List.map_congr_left fun u hu => (hterm u hu).2.2)
  have hlt : (updates.map fun u => ⌊(share updates u : ℝ)*tau updates u*2^j⌋₊).sum < 2^53 := by
    have hcap' : (effectiveTau updates : ℝ) ≤ 2^20 :=
      (effectiveTau_le hne hcap).trans (by norm_num [maxPlausibleLocalSteps])
    have hpow : (2 : ℝ)^j ≤ 2^32 := pow_le_pow_right₀ (by norm_num) hj
    have hle : (effectiveTau updates : ℝ)*2^j ≤ 2^20*2^32 :=
      mul_le_mul hcap' hpow hpos.le (by positivity)
    rw [← hvalue] at hle
    have : (updates.map fun u => ⌊(share updates u : ℝ)*tau updates u*2^j⌋₊).sum ≤ 2^20*2^32 := by
      exact_mod_cast hle
    omega
  obtain ⟨hfinite,hexact⟩ := F64.exact_sum (j := j) (by omega)
    (fun u hu => ⟨(hterm u hu).1,(hterm u hu).2.1⟩) hlt
  rw [hvalue, mul_div_cancel_right₀ _ hpos.ne'] at hexact
  exact ⟨hfinite,hexact⟩

end Exact

/-- The counts lie within the bounds exactly if the substitute does, where it is needed. -/
theorem within_tau_iff {updates : List ClientDelta} (hsum : (reported updates).sum < 2^52) :
    (∀ u ∈ updates, Within (tau updates u)) ↔ MeanBelowCeiling updates := by
  have hmissing {u : ClientDelta} (h : reportedSteps u = none) :
      Within (tau updates u) ↔
        (reported updates).sum ≤ maxPlausibleLocalSteps*(reported updates).length := by
    have hvalue : (tau updates u : F64) = defaultTau updates := by
      rw [tau, h]
    rw [hvalue]
    exact within_defaultTau_iff hsum
  constructor
  · intro h
    by_cases hall : ∀ u ∈ updates, (reportedSteps u).isSome = true
    · exact .inl hall
    · push Not at hall
      obtain ⟨u,hu,hnone⟩ := hall
      exact .inr ((hmissing (Option.not_isSome_iff_eq_none.mp hnone)).mp (h u hu))
  · intro h u hu
    cases hsteps : reportedSteps u with
    | some t =>
      obtain ⟨hfinite,hvalue⟩ := tau_exact hsum (tau_reported hsteps)
        ((min_le_right _ _).trans_lt (by decide))
      rw [within_iff hfinite, hvalue, Nat.one_le_cast, Nat.cast_le]
      exact ⟨le_min (pos_of_reported hsteps) (by decide),min_le_right _ _⟩
    | none =>
      refine (hmissing hsteps).mpr (h.resolve_left fun hall => ?_)
      have := hall u hu
      rw [hsteps] at this
      cases this

theorem tau_le_ceiling {updates : List ClientDelta} (h : MeanBelowCeiling updates) :
    ∀ u ∈ updates, (tau updates u : ℝ) ≤ maxPlausibleLocalSteps := by
  intro u hu
  cases hsteps : reportedSteps u with
  | some t =>
    rw [tau_reported hsteps, Nat.cast_le]
    exact min_le_right _ _
  | none =>
    have hmean := h.resolve_left fun hall => by
      have := hall u hu
      rw [hsteps] at this
      cases this
    rw [tau_missing hsteps]
    refine max_le (div_le_of_le_mul₀ (Nat.cast_nonneg _) (Nat.cast_nonneg _) ?_)
      (Nat.one_le_cast.mpr (by decide))
    exact_mod_cast hmean

/-- An absurd count is capped where nobody needs a substitute. -/
def cappedSteps : List ClientDelta :=
  [{ reportedWeight "a" F32.one 3 with localSteps := some (2^32-1) },
    { reportedWeight "b" F32.one 1 with localSteps := some 1 }]

/-- One client claims an absurd count, the other reports none. -/
def absurdSteps : List ClientDelta :=
  [{ reportedWeight "a" F32.one 1 with localSteps := some (2^32-1) },reportedWeight "b" F32.one 1]

/-- Six equal shares do not add up to one. -/
example : ¬Within (effectiveTau (List.replicate 6
    { reportedWeight "a" F32.one 1 with localSteps := some 1 })) := by decide +kernel

end ConfluxFL.FedNova
