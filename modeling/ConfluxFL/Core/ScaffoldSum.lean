import ConfluxFL.Core.KrumCounts
import ConfluxFL.Core.OptimizerRuns
import ConfluxFL.Core.Scaffold

/-! SCAFFOLD's two halves over whole runs. The models are those of an optimizer that never sees a
control variate; the control variate is, in exact arithmetic, the damped sum of the usable ones. -/
namespace ConfluxFL

/-- The update without its control variate. -/
def withoutVariate (u : ClientDelta) : ClientDelta := { u with controlVariate := none }

/-- Decoding does not see what is beside the weights. -/
theorem decodeAndValidate_withoutVariate (updates : List ClientDelta) :
    decodeAndValidate (updates.map withoutVariate) = decodeAndValidate updates := by
  have hall : decodeAll (updates.map withoutVariate) = decodeAll updates := List.mapM_map
  have hrejection (dim : ℕ) (decoded : List (List F32)) :
      firstRejection dim ((updates.map withoutVariate).zip decoded) =
        firstRejection dim (updates.zip decoded) := by
    rw [List.zip_map_left, firstRejection, List.findSome?_map, List.findSome?_map]
    rfl
  unfold decodeAndValidate
  rw [hall]
  refine congrArg (Except.bind (decodeAll updates)) (funext fun decoded => ?_)
  rw [hrejection]

namespace Scaffold
variable {ν ω : Type} [Floating ν] [Floating ω] [Precision ν ω]

/-- The half that moves the model, an optimizer like the others. -/
def modelOptimizer (serverLearningRate : F32) : Optimizer ν (List ν) where
  global := id
  start := id
  seed := averageBySamples
  step _ decoded model := keepFinite "scaffold" id (nextModel serverLearningRate decoded model)

variable (serverLearningRate : F32) (numClients : ℕ)

variable (ν) in
/-- A round answers, and leaves as its model, what this half does. -/
theorem aggregate_model (state : Option (ScaffoldState ν)) (updates : List ClientDelta) :
    ((aggregate serverLearningRate numClients state updates).1,
        (aggregate serverLearningRate numClients state updates).2.map ScaffoldState.model) =
      (modelOptimizer serverLearningRate).aggregate (state.map ScaffoldState.model) updates := by
  unfold aggregate
  split_ifs with hne
  · rw [hne]
    rfl
  · split
    · next e hd =>
      unfold Optimizer.aggregate onBatch
      rw [if_neg hne, hd]
    · next decoded hd =>
      have hseed : fedAvgIn updates = averageBySamples updates (embed decoded : List (List ν)) := by
        unfold fedAvgIn onBatch
        rw [if_neg hne, hd]
      split
      · next hnone =>
        rw [Option.filter_eq_none_iff] at hnone
        have hother : ∀ x ∈ state.map ScaffoldState.model, x.length ≠ (decoded.headD []).length := by
          intro x hx hlen
          obtain ⟨s,hs,rfl⟩ := Option.mem_map.mp hx
          exact hnone s hs (decide_eq_true hlen)
        rw [Optimizer.aggregate_decoded _ hd hne (.inl ⟨hother,congrArg (Except.map id) hseed.symm⟩)]
        cases (fedAvgIn updates : Except AggregatorError (List ν)) with
        | error e => rfl
        | ok seed =>
          dsimp only [Except.map, Option.map_some]
          unfold seedState
          dsimp only
          split <;> rfl
      · next s hs =>
        obtain ⟨hstate,hlen⟩ := Option.filter_eq_some_iff.mp hs
        rw [Optimizer.aggregate_decoded _ hd hne
          (.inr ⟨_,Option.mem_map_of_mem _ hstate,of_decide_eq_true hlen,rfl⟩)]
        dsimp only [modelOptimizer, keepFinite, id]
        cases refuseNonFinite "scaffold" (nextModel serverLearningRate (embed decoded) s.model) with
        | some e => rfl
        | none => rfl

theorem averageBySamples_withoutVariate (updates : List ClientDelta) (decoded : List (List ν)) :
    averageBySamples (updates.map withoutVariate) decoded = averageBySamples updates decoded := by
  unfold averageBySamples
  rw [List.map_map]
  rfl

/-- This half does not see a control variate. -/
theorem modelOptimizer_withoutVariate (state : Option (List ν)) (updates : List ClientDelta) :
    (modelOptimizer serverLearningRate).aggregate state (updates.map withoutVariate) =
      (modelOptimizer serverLearningRate).aggregate state updates := by
  unfold Optimizer.aggregate onBatch
  simp only [decodeAndValidate_withoutVariate, List.map_eq_nil_iff, modelOptimizer,
    averageBySamples_withoutVariate]

/-- The answers are the same as if nobody had sent one. -/
theorem answers_withoutVariate (batches : List (List ClientDelta)) :
    Calls.answers (aggregate (ν := ν) serverLearningRate numClients) none
        (batches.map fun updates => updates.map withoutVariate) =
      Calls.answers (aggregate serverLearningRate numClients) none batches := by
  refine Calls.answers_map _ _ _ (fun s t => s.map ScaffoldState.model = t.map ScaffoldState.model)
    (fun s t updates h => ?_) rfl batches
  have hs := aggregate_model ν serverLearningRate numClients s updates
  have ht := aggregate_model ν serverLearningRate numClients t (updates.map withoutVariate)
  rw [modelOptimizer_withoutVariate, ← h, ← hs] at ht
  exact ⟨(Prod.mk.inj ht).1,(Prod.mk.inj ht).2.symm⟩

section Control
variable {dim : ℕ} {updates : List ClientDelta} {batches : List (List ClientDelta)}

/-- The usable control variates of some batches, added up at a coordinate. -/
noncomputable def usableSum (dim : ℕ) (batches : List (List ClientDelta)) (k : ℕ) : ℝ :=
  ((batches.flatten.filterMap (usableVariate dim)).map fun dc => (dc.getD k F32.zero).toReal).sum

/-- Their sum, damped by the population. -/
noncomputable def dampedSum (numClients dim : ℕ) (batches : List (List ClientDelta)) : List ℝ :=
  (List.range dim).map fun k => 1/numClients*usableSum dim batches k

variable {numClients}

theorem variateStep_real (hN : 1 ≤ numClients) (updates : List ClientDelta) (dim : ℕ) :
    variateStep ℝ numClients updates dim = dampedSum numClients dim [updates] := by
  have hpopulation : population numClients = numClients := max_eq_left hN
  obtain ⟨hlen,hget⟩ := @Coordinates.foldl_spec ℝ (List F32) _
    (fun acc dc => acc.zipWith (fun a v => a+1/(population numClients : ℝ)*v.toReal) dc)
    (fun dc k => 1/(numClients : ℝ)*(dc.getD k F32.zero).toReal) dim
    (updates.filterMap (usableVariate dim))
    (fun acc dc hdc hacc => by
      obtain ⟨u,-,hu⟩ := List.mem_filterMap.mp hdc
      have hdim := length_of_usableVariate hu
      refine ⟨by rw [List.length_zipWith, hacc, hdim, Nat.min_self],fun k hk => ?_⟩
      rw [Coordinates.getD_zipWith 0 F32.zero 0 (hacc.symm ▸ hk) (hdim.symm ▸ hk), hpopulation])
    (zeros _) (length_zeros _)
  refine Coordinates.ext_getD 0 ?_ fun k hk => ?_
  · rw [length_variateStep, dampedSum, List.length_map, List.length_range]
  · rw [length_variateStep] at hk
    refine (hget k hk).trans ?_
    rw [dampedSum, Coordinates.getD_map_range hk, zeros, List.getD_replicate _ hk, zero_add,
      usableSum, List.flatten_singleton, List.sum_map_mul_left]

theorem dampedSum_append : (dampedSum numClients dim batches).zipWith (·+·)
      (dampedSum numClients dim [updates]) = dampedSum numClients dim (batches++[updates]) := by
  unfold dampedSum
  rw [List.zipWith_map, List.zipWith_self]
  refine List.map_congr_left fun k _ => ?_
  unfold usableSum
  rw [List.flatten_append, List.filterMap_append, List.map_append, List.sum_append, mul_add]

theorem all_isFinite (xs : List ℝ) : xs.all Floating.isFinite = true :=
  List.all_eq_true.mpr fun _ _ => rfl

/-- A first round keeps what its variates come to. -/
theorem control_seedState (hN : 1 ≤ numClients) (seed : List ℝ) :
    (seedState numClients updates seed).control = dampedSum numClients seed.length [updates] := by
  unfold seedState
  dsimp only
  rw [if_pos (all_isFinite _)]
  exact (List.map_id _).trans (variateStep_real hN updates seed.length)

/-- Every later round adds what its own come to, also when that is nothing. -/
theorem nextControl_real (hN : 1 ≤ numClients) (s : ScaffoldState ℝ) :
    nextControl numClients updates s =
      s.control.zipWith (·+·) (dampedSum numClients s.model.length [updates]) := by
  rw [← variateStep_real hN]
  unfold nextControl
  dsimp only
  rw [all_isFinite, Bool.and_true]
  split
  · rfl
  · next hnone =>
    have hlen : s.control.length = (variateStep ℝ numClients updates s.model.length : List ℝ).length := by
      rw [length_variateStep, s.agree]
    refine List.ext_getElem (by rw [List.length_zipWith, ← hlen, Nat.min_self]) fun k hk _ => ?_
    have hzero : (variateStep ℝ numClients updates s.model.length : List ℝ)[k] = 0 := by
      by_contra hne
      refine hnone (List.any_eq_true.mpr ⟨_,List.getElem_mem (hlen ▸ hk),?_⟩)
      exact Bool.not_eq_true' _ ▸ decide_eq_false hne
    rw [List.getElem_zipWith, hzero, add_zero]

/-- After successful rounds of one dimension the control variate is the damped sum. -/
theorem control_after (hN : 1 ≤ numClients) (hdim : ∀ updates ∈ batches, HasDimension updates dim)
    (hok : ∀ r ∈ Calls.answers (aggregate (ν := ℝ) serverLearningRate numClients) none batches,
      ∃ w, r = .ok w) (hne : batches ≠ []) :
    ∃ s, Calls.after (aggregate (ν := ℝ) serverLearningRate numClients) none batches = some s ∧
      s.model.length = dim ∧ s.control = dampedSum numClients dim batches := by
  induction batches using List.reverseRecOn with
  | nil => exact absurd rfl hne
  | append_singleton batches updates ih =>
    rw [Calls.answers_append] at hok
    obtain ⟨w,hw⟩ := hok _ (List.mem_append_right _ List.mem_cons_self)
    rw [Calls.after_append, Calls.after_cons]
    change ∃ s, (aggregate serverLearningRate numClients _ updates).2 = some s ∧ _
    rcases aggregate_cases serverLearningRate numClients
      (Calls.after (aggregate (ν := ℝ) serverLearningRate numClients) none batches) updates with
      ⟨e,he⟩ | ⟨v,s',heq,hv,hmodel,hstate⟩
    · rw [he] at hw
      cases hw
    · have hlen : v.length = dim :=
        (hdim updates (List.mem_append_right _ List.mem_cons_self)).subset hv (List.Subset.refl _)
      refine ⟨s',congrArg Prod.snd heq,hmodel ▸ hlen,?_⟩
      by_cases hfirst : batches = []
      · subst hfirst
        rcases hstate with ⟨-,rfl⟩ | ⟨s,hs,-⟩
        · rw [control_seedState hN, hlen]
          rfl
        · cases hs
      · obtain ⟨s,hs,hsdim,hcontrol⟩ := ih (fun us hus => hdim us (List.mem_append_left _ hus))
          (fun r hr => hok r (List.mem_append_left _ hr)) hfirst
        rw [hs] at hstate
        rcases hstate with ⟨hother,-⟩ | ⟨s₀,hs₀,-,hnext⟩
        · exact absurd (hsdim.trans hlen.symm) (hother s rfl)
        · cases hs₀
          rw [hnext, nextControl_real hN, hcontrol, hsdim, dampedSum_append]

/-- A valid batch with a sample is accepted in any state. -/
theorem accepts {decoded : List (List F32)} (hd : decodeAndValidate updates = .ok decoded)
    (htotal : totalSamples updates ≠ 0) (state : Option (ScaffoldState ℝ)) :
    ∃ w, (aggregate serverLearningRate numClients state updates).1 = .ok w := by
  have hne := ne_nil_of_totalSamples htotal
  have hmodel := congrArg Prod.fst (aggregate_model ℝ serverLearningRate numClients state updates)
  by_cases hother : ∀ x ∈ state.map ScaffoldState.model, x.length ≠ (decoded.headD []).length
  · have hseed := averageBySamples_real hd
    rw [if_neg htotal] at hseed
    exact ⟨_,hmodel.trans (congrArg Prod.fst (Optimizer.aggregate_seed _ hd hne hother hseed))⟩
  · push Not at hother
    obtain ⟨x,hx,hlen⟩ := hother
    rw [Option.mem_def] at hx
    rw [hx] at hmodel
    exact ⟨_,hmodel.trans (congrArg Prod.fst (Optimizer.aggregate_step _ hd hne hlen
      (keepFinite_real _ _ _)))⟩

end Control

/-- After successful rounds of one dimension the control variate is `1/N` times the sum of the
usable ones; the models are those without any. -/
theorem control_sum (serverLearningRate : F32) {numClients dim : ℕ} (hN : 1 ≤ numClients)
    {batches : List (List ClientDelta)} (hdim : ∀ updates ∈ batches, HasDimension updates dim)
    (hok : ∀ r ∈ Calls.answers (aggregate (ν := ℝ) serverLearningRate numClients) none batches,
      ∃ w, r = .ok w) :
    (Calls.after (aggregate (ν := ℝ) serverLearningRate numClients) none batches).map
        ScaffoldState.control =
          (if batches = [] then none else some (dampedSum numClients dim batches)) ∧
      Calls.answers (aggregate (ν := ℝ) serverLearningRate numClients) none
          (batches.map fun updates => updates.map withoutVariate) =
        Calls.answers (aggregate serverLearningRate numClients) none batches := by
  refine ⟨?_,answers_withoutVariate serverLearningRate numClients batches⟩
  split_ifs with hne
  · rw [hne]
    rfl
  · obtain ⟨s,hs,-,hcontrol⟩ := control_after serverLearningRate hN hdim hok hne
    rw [hs, Option.map_some, hcontrol]

/-- Two clients, one of whose control variates is too long. -/
def twoVariates : List ClientDelta :=
  [{ reportedWeight "a" F32.one 1 with controlVariate := some (encodeWeights [F32.one]) },
    { reportedWeight "b" F32.zero 1 with
      controlVariate := some (encodeWeights [F32.one,F32.one]) }]

theorem control_sum_twoVariates :
    (Calls.after (aggregate (ν := ℝ) F32.one 2) none [twoVariates,twoVariates]).map
        ScaffoldState.control =
          (if [twoVariates,twoVariates] = [] then none
            else some (dampedSum 2 1 [twoVariates,twoVariates])) ∧
      Calls.answers (aggregate (ν := ℝ) F32.one 2) none
          ([twoVariates,twoVariates].map fun updates => updates.map withoutVariate) =
        Calls.answers (aggregate F32.one 2) none [twoVariates,twoVariates] := by
  have hd : decodeAndValidate twoVariates = .ok [[F32.one],[F32.zero]] := by decide +kernel
  have heach : ∀ updates ∈ [twoVariates,twoVariates], updates = twoVariates := by simp
  refine control_sum F32.one (by decide) (fun updates hupdates => ?_)
    (Calls.forall_mem_answers _ none _ fun state updates hupdates => ?_)
  · rw [heach updates hupdates]
    exact hasDimension_of_ok hd (List.cons_ne_nil _ _)
  · rw [heach updates hupdates]
    exact accepts F32.one hd (by decide) state

end Scaffold
end ConfluxFL
