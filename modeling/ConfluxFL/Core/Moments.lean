import ConfluxFL.Core.KrumCounts
import ConfluxFL.Core.OptimizerRuns

/-! The adaptive optimizers in exact arithmetic: the floor of the second moment is kept by all
three rules, so a step is never longer than the first moment over twice the floor's root. -/
namespace ConfluxFL.FedOpt

/-- What holds at a coordinate between two calls: the second moment is at its floor or above, and
no pseudo-gradient takes Yogi's below zero. -/
structure Floored (p : FedOptParams) (c : Moments ℝ ℝ) : Prop where
  floor : p.tau.toReal^2 ≤ c.v
  yogi : ∀ delta : ℝ, 0 ≤ secondMoment .yogi p.beta2.toReal c.v (delta*delta)
  denominator : 2*p.tau.toReal ≤ Real.sqrt c.v+p.tau.toReal

/-- What a call does at a coordinate it steps from. -/
structure Stepped (variant : FedOptVariant) (p : FedOptParams) (c c' : Moments ℝ ℝ) : Prop where
  adagrad : variant = .adagrad → c.v ≤ c'.v
  bounded : |c'.global-c.global| ≤ p.serverLearningRate.toReal*|c'.m|/(2*p.tau.toReal)

/-- A call of an adaptive optimizer. A state of another length was seeded anew. -/
structure CallKeeps (variant : FedOptVariant) (p : FedOptParams)
    (state state' : Option (List (Moments ℝ ℝ))) : Prop where
  floored : ∀ s ∈ state', ∀ c ∈ s, Floored p c
  stepped : ∀ s ∈ state, ∀ s' ∈ state', s'.length = s.length → List.Forall₂ (Stepped variant p) s s'

section Coordinate
variable {variant : FedOptVariant} {p : FedOptParams} {c : Moments ℝ ℝ}

theorem secondMoment_yogi (beta2 v d2 : ℝ) : secondMoment .yogi beta2 v d2 =
    v-(1-beta2)*d2*(if 0 < v-d2 then 1 else if v-d2 < 0 then 0-1 else 0) := by
  unfold secondMoment
  simp only [Floating.lt_real, decide_eq_true_eq]

/-- Yogi shrinks the second moment only while it is larger than the square that is taken off. -/
theorem secondMoment_yogi_nonneg {beta2 v d2 : ℝ} (h0 : 0 ≤ beta2) (h1 : beta2 < 1) (hv : 0 ≤ v)
    (hd : 0 ≤ d2) : 0 ≤ secondMoment .yogi beta2 v d2 := by
  rw [secondMoment_yogi]
  have hpart : 0 ≤ (1-beta2)*d2 := mul_nonneg (by linarith) hd
  have hle : (1-beta2)*d2 ≤ d2 := mul_le_of_le_one_left hd (by linarith)
  split_ifs with hgt hlt
  · linarith
  · linarith
  · linarith

theorem floored_of_floor (h0 : 0 ≤ p.beta2.toReal) (h1 : p.beta2.toReal < 1)
    (h : p.tau.toReal^2 ≤ c.v) : Floored p c := by
  have hv : 0 ≤ c.v := (sq_nonneg _).trans h
  refine ⟨h,fun delta => secondMoment_yogi_nonneg h0 h1 hv (mul_self_nonneg delta),?_⟩
  have hroot : p.tau.toReal ≤ Real.sqrt c.v := Real.le_sqrt_of_sq_le h
  linarith

theorem floor_le_coordinateStep (variant : FedOptVariant) (p : FedOptParams) (c : Moments ℝ ℝ)
    (target : ℝ) : p.tau.toReal^2 ≤ (coordinateStep variant p c target).v := by
  unfold coordinateStep
  dsimp only
  rw [Floating.max_real, sq]
  exact le_max_right _ _

/-- A coordinate that does not move. -/
theorem stepped_refl (hτ : 0 < p.tau.toReal) (hη : 0 < p.serverLearningRate.toReal) :
    Stepped variant p c c := by
  refine ⟨fun _ => le_rfl,?_⟩
  rw [sub_self, abs_zero]
  positivity

theorem stepped_coordinateStep (hτ : 0 < p.tau.toReal) (hη : 0 < p.serverLearningRate.toReal)
    (target : ℝ) : Stepped variant p c (coordinateStep variant p c target) := by
  constructor
  · rintro rfl
    unfold coordinateStep
    dsimp only
    rw [Floating.max_real]
    refine le_trans ?_ (le_max_left _ _)
    exact le_add_of_nonneg_right (mul_self_nonneg (target-c.global))
  · have hfloor := floor_le_coordinateStep variant p c target
    generalize hc' : coordinateStep variant p c target = c' at hfloor
    have hroot : p.tau.toReal ≤ Real.sqrt c'.v := Real.le_sqrt_of_sq_le hfloor
    have hmove : c'.global-c.global =
        p.serverLearningRate.toReal*c'.m/(Real.sqrt c'.v+p.tau.toReal) := by
      rw [← hc']
      exact add_sub_cancel_left c.global _
    have hpos : 0 < Real.sqrt c'.v+p.tau.toReal := by linarith
    rw [hmove, abs_div, abs_mul, abs_of_pos hη, abs_of_pos hpos]
    exact div_le_div_of_nonneg_left (mul_nonneg hη.le (abs_nonneg _)) (by linarith) (by linarith)

end Coordinate

section Runs
variable {variant : FedOptVariant} {p : FedOptParams}

theorem forall₂_zipWith {α β : Type} {R : α → α → Prop} {f : α → β → α} {xs : List α} {ys : List β}
    (hlen : xs.length ≤ ys.length) (h : ∀ x ∈ xs, ∀ y, R x (f x y)) :
    List.Forall₂ R xs (xs.zipWith f ys) := by
  induction xs generalizing ys with
  | nil => exact .nil
  | cons x xs ih =>
    cases ys with
    | nil => cases hlen
    | cons y ys =>
      exact .cons (h x List.mem_cons_self y) (ih (Nat.le_of_succ_le_succ hlen)
        fun x' hx' => h x' (List.mem_cons_of_mem x hx'))

/-- The model that a step starts from has the length of the mean it moves towards. -/
theorem step_real (variant : FedOptVariant) (p : FedOptParams) (updates : List ClientDelta)
    (decoded : List (List ℝ)) (s : List (Moments ℝ ℝ)) :
    (optimizer variant p).step updates decoded s = .ok (s.zipWith (coordinateStep variant p)
      (sharedMean (decoded.headD []).length decoded)) :=
  keepFinite_real _ _ _

/-- Between calls the floor is kept, whatever the batches were. -/
theorem floor_after (batches : List (List ClientDelta)) :
    ∀ s ∈ (optimizer (ν := ℝ) variant p).after batches, ∀ c ∈ s, p.tau.toReal^2 ≤ c.v := by
  refine (optimizer (ν := ℝ) variant p).after_of_invariant
    (fun s => ∀ c ∈ s, p.tau.toReal^2 ≤ c.v) batches (fun w c hc => ?_)
    fun updates decoded s s' _ hstep c hc => ?_
  · obtain ⟨x,-,rfl⟩ := List.mem_map.mp hc
    exact (sq p.tau.toReal).le
  · rw [step_real] at hstep
    cases hstep
    obtain ⟨c₀,-,target,-,rfl⟩ := mem_zipWith hc
    exact floor_le_coordinateStep variant p c₀ target

end Runs

/-- After every call of every run the second moments are at their floor or above, a step is no
longer than the floor lets it be, and the stored model is the one last returned. -/
theorem moments_kept (variant : FedOptVariant) (p : FedOptParams) (hτ : 0 < p.tau.toReal)
    (h0 : 0 ≤ p.beta2.toReal) (h1 : p.beta2.toReal < 1) (hη : 0 < p.serverLearningRate.toReal)
    (batches : List (List ClientDelta)) (updates : List ClientDelta) :
    CallKeeps variant p ((optimizer variant p).after batches)
        ((optimizer variant p).after (batches++[updates])) ∧
      ((optimizer variant p).after (batches++[updates])).map (fun s => s.map Moments.global) =
        (optimizer (ν := ℝ) variant p).lastReturned (batches++[updates]) := by
  refine ⟨⟨fun s' hs' c hc => ?_,fun s hs s' hs' hlen => ?_⟩,Optimizer.map_global_after _ _⟩
  · exact floored_of_floor h0 h1 (floor_after _ s' hs' c hc)
  · rw [Optimizer.after_concat] at hs'
    rcases (optimizer (ν := ℝ) variant p).aggregate_cases _ updates with
      ⟨e,he⟩ | ⟨decoded,s'',hd,-,heq,hcase⟩
    -- a refused call leaves every coordinate where it is
    · rw [he, hs] at hs'
      cases hs'
      exact List.forall₂_same.mpr fun c _ => stepped_refl hτ hη
    · rw [heq] at hs'
      cases hs'
      have hhead := length_headD_embed (ν := ℝ) decoded
      have hrows := length_of_mem_embed (ν := ℝ) hd
      rcases hcase with ⟨hother,w,hw,rfl⟩ | ⟨s₀,hs₀,hdim,hstep⟩
      -- a seeded state has the dimension of the batch, and the one before had another
      · have hseeded := (lawful (ν := ℝ) variant p).seed hhead hrows hw
        refine absurd ?_ (hother s hs)
        simp only [optimizer, List.length_map] at hseeded hlen ⊢
        rw [← hlen, hseeded]
      · obtain rfl : s = s₀ := Option.some_inj.mp (hs.symm.trans hs₀)
        rw [step_real] at hstep
        cases hstep
        refine forall₂_zipWith ?_ fun c _ target => stepped_coordinateStep hτ hη target
        simp only [optimizer, List.length_map] at hdim
        rw [hhead, length_sharedMean hrows, hdim]

/-- Two rounds with the paper's parameters. -/
theorem moments_kept_adagrad :
    CallKeeps .adagrad FedOptVariant.adagrad.params
        ((optimizer .adagrad FedOptVariant.adagrad.params).after [threeWeights 1])
        ((optimizer .adagrad FedOptVariant.adagrad.params).after [threeWeights 1,threeWeights 5]) ∧
      ((optimizer .adagrad FedOptVariant.adagrad.params).after [threeWeights 1,threeWeights 5]).map
          (fun s => s.map Moments.global) =
        (optimizer (ν := ℝ) .adagrad FedOptVariant.adagrad.params).lastReturned
          [threeWeights 1,threeWeights 5] := by
  have hτ : 0 < FedOptVariant.adagrad.params.tau.toReal := by
    have hunpack : (⟨0x3a83126f⟩ : F32).value.toModel.unpack =
        .finite .positive 8589935 (-33) (by decide) := rfl
    change 0 < F32.toReal ⟨0x3a83126f⟩
    rw [F32.toReal_of_unpack hunpack]
    positivity
  exact moments_kept .adagrad _ hτ F32.toReal_zero.ge (F32.toReal_zero.trans_lt zero_lt_one)
    (zero_lt_one.trans_eq F32.toReal_one.symm) [threeWeights 1] (threeWeights 5)

end ConfluxFL.FedOpt
