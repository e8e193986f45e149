import ConfluxFL.Core.Build
import ConfluxFL.Core.CoordinateRobust
import ConfluxFL.Core.OptimizerRuns

/-! The methods that add their updates up, or sort them by value, do not know who came first: over
whole runs, batches in other orders are answered alike. In exact arithmetic. -/
namespace ConfluxFL

section Folds
variable {R α β : Type*} [AddCommSemigroup R]

/-- Adding one list to an accumulator and then another, in either order. -/
theorem zipWith_add_right_comm (g : α → R) (h : β → R) (acc : List R) (r : List α) (s : List β) :
    (acc.zipWith (fun a x => a+g x) r).zipWith (fun a y => a+h y) s =
      (acc.zipWith (fun a y => a+h y) s).zipWith (fun a x => a+g x) r := by
  induction acc generalizing r s with
  | nil => rfl
  | cons a acc ih =>
    cases r with
    | nil => cases s <;> rfl
    | cons x r =>
      cases s with
      | nil => rfl
      | cons y s => exact congrArg₂ List.cons (add_right_comm a (g x) (h y)) (ih r s)

end Folds

section Batches
variable {us us' : List ClientDelta} {decoded decoded' : List (List F32)}

/-- What is accepted is accepted in any order. -/
theorem decodeAndValidate_perm (h : us.Perm us') (hd : decodeAndValidate us = .ok decoded) :
    decodeAndValidate us' = .ok (us'.map fun u => words u.weights) :=
  decodeAndValidate_of fun u hu => (decodeAndValidate_ok hd).2 u (h.mem_iff.mpr hu)

/-- Two results of a batch in two orders: what is refused may be refused for another update. -/
theorem onBatch_perm {ρ τ : Type} (view : ρ → τ) {refuse : AggregatorError → ρ}
    {f f' : List (List F32) → ρ} (h : us.Perm us')
    (hrefuse : ∀ e e', view (refuse e) = view (refuse e'))
    (hf : ∀ decoded decoded', decodeAndValidate us = .ok decoded →
      decodeAndValidate us' = .ok decoded' → us ≠ [] → view (f' decoded') = view (f decoded)) :
    view (onBatch refuse us' f') = view (onBatch refuse us f) := by
  unfold onBatch
  by_cases hne : us = []
  · subst hne
    rw [h.nil_eq.symm, if_pos rfl, if_pos rfl]
  · rw [if_neg hne, if_neg fun hnil => hne (hnil ▸ h).eq_nil]
    cases hd : decodeAndValidate us with
    | error e =>
      cases hd' : decodeAndValidate us' with
      | error e' => exact hrefuse e' e
      | ok decoded' =>
        rw [decodeAndValidate_perm h.symm hd'] at hd
        cases hd
    | ok decoded =>
      rw [decodeAndValidate_perm h hd]
      exact hf decoded _ hd (decodeAndValidate_perm h hd) hne

variable (h : us.Perm us') (hd : decodeAndValidate us = .ok decoded)
  (hd' : decodeAndValidate us' = .ok decoded')
include h hd hd'

theorem rows_perm : (embed decoded : List (List ℝ)).Perm (embed decoded') := by
  rw [embed_of_ok hd, embed_of_ok hd']
  exact h.map row

theorem pairs_perm : (us.zip (embed decoded : List (List ℝ))).Perm (us'.zip (embed decoded')) := by
  rw [zip_rows hd, zip_rows hd']
  exact h.map fun u => (u,row u)

theorem length_headD_perm (hne : us ≠ []) :
    (decoded'.headD []).length = (decoded.headD []).length := by
  obtain ⟨u,us,rfl⟩ := List.exists_cons_of_ne_nil hne
  have hu := h.mem_iff.mp (List.mem_cons_self (a := u) (l := us))
  rw [← length_row hd List.mem_cons_self, ← length_row hd' hu]

omit hd hd' in
theorem sum_map_perm (f : ClientDelta → ℝ) : (us'.map f).sum = (us.map f).sum :=
  (h.map f).sum_eq.symm

theorem averageBySamples_perm (hne : us ≠ []) :
    averageBySamples us' (embed decoded' : List (List ℝ)) = averageBySamples us (embed decoded) := by
  have htotal : totalSamples us' = totalSamples us := (h.map ClientDelta.numSamples).sum_eq.symm
  rw [averageBySamples_real hd, averageBySamples_real hd', htotal, length_headD_perm h hd hd' hne]
  have hshare : sampleShare us' = sampleShare us := by
    funext u
    rw [sampleShare, sampleShare, htotal]
  have hmixture (dim : ℕ) : mixture dim us' (sampleShare us') = mixture dim us (sampleShare us) := by
    rw [hshare]
    exact List.map_congr_left fun k _ => sum_map_perm h fun u => sampleShare us u*(row u).getD k 0
  rw [hmixture]

theorem sharedMean_perm (dim : ℕ) : sharedMean dim (embed decoded' : List (List ℝ)) =
    sharedMean dim (embed decoded) := by
  have hrows := rows_perm h hd hd'
  unfold sharedMean
  rw [← hrows.length_eq]
  exact (hrows.foldl_eq' (fun x _ y _ acc => zipWith_add_right_comm _ _ acc x y) _).symm

end Batches

section Statistics
variable {xs ys : List ℝ}

theorem sortBy_eq_of_perm (h : xs.Perm ys) : Floating.sortBy id ys = Floating.sortBy id xs :=
  ((Floating.sortBy_perm ys).trans (h.symm.trans (Floating.sortBy_perm xs).symm)).eq_of_pairwise
    (fun _ _ _ _ => le_antisymm) (Floating.sortBy_id_sorted ys) (Floating.sortBy_id_sorted xs)

theorem trimmedMean_perm (f : F32) (h : xs.Perm ys) :
    Robust.trimmedMean f ys = Robust.trimmedMean f xs := by
  unfold Robust.trimmedMean
  rw [sortBy_eq_of_perm h, h.length_eq]

theorem median_perm (h : xs.Perm ys) : Robust.median ys = Robust.median xs := by
  unfold Robust.median
  rw [sortBy_eq_of_perm h, h.length_eq]

end Statistics

section GeometricMedian
variable {weighted weighted' : List (ℝ × List ℝ)}

theorem normalizedSum_perm (h : weighted.Perm weighted') (dim : ℕ) (total : ℝ) :
    Robust.normalizedSum dim weighted' total = Robust.normalizedSum dim weighted total :=
  (h.foldl_eq' (fun p _ q _ acc => zipWith_add_right_comm _ _ acc p.2 q.2) _).symm

theorem weiszfeldStep_perm (h : weighted.Perm weighted') :
    Robust.weiszfeldStep weighted' = Robust.weiszfeldStep weighted := by
  funext estimate
  have hzip (weighted : List (ℝ × List ℝ)) : (weighted.map fun p =>
      p.1/Floating.max (Robust.l2Distance p.2 estimate) 1e-6).zip (weighted.map Prod.snd) =
      weighted.map fun p => (p.1/Floating.max (Robust.l2Distance p.2 estimate) 1e-6,p.2) :=
    List.zip_map' ..
  unfold Robust.weiszfeldStep
  dsimp only
  rw [hzip, hzip, Floating.sum_real, Floating.sum_real, ← (h.map _).sum_eq,
    normalizedSum_perm (h.map _)]

theorem geometricMedian_perm (h : weighted.Perm weighted')
    (hhead : ((weighted'.map Prod.snd).headD []).length = ((weighted.map Prod.snd).headD []).length) :
    Robust.geometricMedian weighted' = Robust.geometricMedian weighted := by
  unfold Robust.geometricMedian
  dsimp only
  rw [hhead, Floating.sum_real, Floating.sum_real, ← (h.map Prod.fst).sum_eq,
    normalizedSum_perm h, weiszfeldStep_perm h]

end GeometricMedian
section Optimizers
variable {us us' : List ClientDelta} {decoded decoded' : List (List F32)}

/-- Neither its seed nor its steps know the order of a batch. -/
def Optimizer.OrderFree {σ : Type} (o : Optimizer ℝ σ) : Prop :=
  ∀ {us us' : List ClientDelta} {decoded decoded' : List (List F32)}, us.Perm us' →
    decodeAndValidate us = .ok decoded → decodeAndValidate us' = .ok decoded' → us ≠ [] →
    o.seed us' (embed decoded') = o.seed us (embed decoded) ∧
      ∀ s, o.step us' (embed decoded') s = o.step us (embed decoded) s

theorem orderFree_fedOpt (variant : FedOptVariant) (p : FedOptParams) :
    (FedOpt.optimizer (ν := ℝ) variant p).OrderFree := by
  intro us us' decoded decoded' h hd hd' hne
  have hhead : ((embed decoded' : List (List ℝ)).headD []).length =
      ((embed decoded : List (List ℝ)).headD []).length := by
    rw [length_headD_embed, length_headD_embed, length_headD_perm h hd hd' hne]
  unfold FedOpt.optimizer
  dsimp only
  rw [hhead, sharedMean_perm h hd hd']
  exact ⟨rfl,fun _ => rfl⟩

theorem orderFree_fedAvgM (beta serverLearningRate : F32) :
    (FedAvgM.optimizer (ν := ℝ) beta serverLearningRate).OrderFree := by
  intro us us' decoded decoded' h hd hd' hne
  have haverage := averageBySamples_perm h hd hd' hne
  refine ⟨haverage,fun s => ?_⟩
  unfold FedAvgM.optimizer
  dsimp only
  rw [haverage]

section FedNova
open FedNova

theorem defaultTau_perm (h : us.Perm us') : (defaultTau us' : ℝ) = defaultTau us := by
  have hreported := h.filterMap reportedSteps
  unfold defaultTau
  dsimp only
  rw [Floating.sum_real, Floating.sum_real, (hreported.map _).sum_eq, hreported.length_eq]

theorem share_perm (h : us.Perm us') : (FedNova.share us' : ClientDelta → ℝ) = FedNova.share us := by
  funext u
  unfold FedNova.share
  dsimp only
  rw [Floating.sum_real, Floating.sum_real, (h.map _).sum_eq, h.length_eq]

theorem tau_perm (h : us.Perm us') : (FedNova.tau us' : ClientDelta → ℝ) = FedNova.tau us := by
  funext u
  unfold FedNova.tau
  rw [defaultTau_perm h]

theorem effectiveTau_perm (h : us.Perm us') : (effectiveTau us' : ℝ) = effectiveTau us := by
  unfold effectiveTau
  rw [share_perm h, tau_perm h, Floating.sum_real, Floating.sum_real, (h.map _).sum_eq]

theorem normalizedStep_perm (h : us.Perm us') (hd : decodeAndValidate us = .ok decoded)
    (hd' : decodeAndValidate us' = .ok decoded') (global : List ℝ) :
    (normalizedStep us' (embed decoded') global : List ℝ) =
      normalizedStep us (embed decoded) global := by
  unfold normalizedStep
  rw [share_perm h, tau_perm h, effectiveTau_perm h]
  refine ((pairs_perm h hd hd').foldl_eq' (fun p _ q _ acc => ?_) _).symm
  dsimp only
  split_ifs
  · rfl
  · rfl
  · rfl
  · exact zipWith_add_right_comm _ _ acc (p.2.zip global) (q.2.zip global)

theorem orderFree_fedNova : (FedNova.optimizer (ν := ℝ)).OrderFree := by
  intro us us' decoded decoded' h hd hd' hne
  have haverage := averageBySamples_perm h hd hd' hne
  have hall : (us'.all fun u => (reportedSteps u).isNone) =
      us.all fun u => (reportedSteps u).isNone := by
    rw [Bool.eq_iff_iff, List.all_eq_true, List.all_eq_true]
    exact forall_congr' fun u => by rw [h.mem_iff]
  refine ⟨haverage,fun s => ?_⟩
  unfold FedNova.optimizer
  dsimp only
  rw [haverage, hall, effectiveTau_perm h, normalizedStep_perm h hd hd']

end FedNova

theorem clientStep_right_comm (q l : ℝ) (global : List ℝ) (acc : ℝ × List ℝ)
    (c c' : ClientDelta × List ℝ) :
    QFedAvg.clientStep q l global (QFedAvg.clientStep q l global acc c) c' =
      QFedAvg.clientStep q l global (QFedAvg.clientStep q l global acc c') c := by
  unfold QFedAvg.clientStep
  dsimp only
  split_ifs
  · rfl
  · rfl
  · rfl
  · exact congrArg₂ Prod.mk (add_right_comm _ _ _)
      (zipWith_add_right_comm _ _ acc.2 (c.2.zip global) (c'.2.zip global))

theorem orderFree_qFedAvg (q lipschitz : F32) :
    (QFedAvg.optimizer (ν := ℝ) q lipschitz).OrderFree := by
  intro us us' decoded decoded' h hd hd' hne
  have haverage := averageBySamples_perm h hd hd' hne
  have hany : (us'.any fun u => u.localLoss.isSome) = us.any fun u => u.localLoss.isSome := by
    rw [Bool.eq_iff_iff, List.any_eq_true, List.any_eq_true]
    exact exists_congr fun u => by rw [h.mem_iff]
  have hsums (global : List ℝ) (init : ℝ × List ℝ) : (us'.zip (embed decoded')).foldl
      (QFedAvg.clientStep (Floating.ofF32 q) (Floating.ofF32 lipschitz) global) init =
      (us.zip (embed decoded)).foldl
        (QFedAvg.clientStep (Floating.ofF32 q) (Floating.ofF32 lipschitz) global) init :=
    ((pairs_perm h hd hd').foldl_eq'
      (fun c _ c' _ acc => clientStep_right_comm _ _ global acc c c') init).symm
  refine ⟨haverage,fun s => ?_⟩
  unfold QFedAvg.optimizer
  dsimp only
  rw [haverage, hany, hsums]

theorem clippedStep_perm (clipRadius : F32) {rows rows' : List (List ℝ)} (h : rows.Perm rows')
    (v : List ℝ) : Temporal.clippedStep clipRadius rows' v = Temporal.clippedStep clipRadius rows v := by
  unfold Temporal.clippedStep
  dsimp only
  rw [h.length_eq]
  have hsum := h.foldl_eq' (f := fun acc w => addScaledDifference acc w v
      (Temporal.clipScale clipRadius (Temporal.wideDistance w v)))
    (fun w _ w' _ acc => zipWith_add_right_comm _ _ acc (w.zip v) (w'.zip v)) (zeros v.length)
  rw [hsum]

end Optimizers

/-- A method with whatever it keeps between rounds. -/
structure RoundMethod (ν : Type) where
  σ : Type
  init : σ
  call : σ → List ClientDelta → Except AggregatorError (List ν) × σ

namespace RoundMethod
variable {ν : Type}

def stateless (f : List ClientDelta → Except AggregatorError (List ν)) : RoundMethod ν :=
  ⟨Unit,(),fun _ us => (f us,())⟩

def ofOptimizer [Floating ν] {σ : Type} (o : Optimizer ν σ) : RoundMethod ν :=
  ⟨Option σ,none,o.aggregate⟩

/-- A call's result and what it leaves behind, a refusal being a refusal whatever it names. -/
def view {σ : Type} (r : Except AggregatorError (List ν) × σ) : Option (List ν) × σ :=
  (r.1.toOption,r.2)

/-- The rounds' results. -/
def results (m : RoundMethod ν) (batches : List (List ClientDelta)) : List (Option (List ν)) :=
  (Calls.answers m.call m.init batches).map Except.toOption

/-- A call is answered alike, and leaves the same behind, in whatever order its batch is. -/
def OrderFree (m : RoundMethod ν) : Prop :=
  ∀ {us us' : List ClientDelta}, us.Perm us' → ∀ s, view (m.call s us') = view (m.call s us)

/-- And so are runs. -/
theorem OrderFree.results {m : RoundMethod ν} (hm : m.OrderFree)
    {batches batches' : List (List ClientDelta)} (h : List.Forall₂ List.Perm batches batches') :
    m.results batches' = m.results batches := by
  unfold RoundMethod.results
  generalize m.init = s
  induction h generalizing s with
  | nil => rfl
  | cons hperm _ ih =>
    obtain ⟨hanswer,hstate⟩ := Prod.mk.inj (hm hperm s)
    rw [Calls.answers, Calls.answers, List.map_cons, List.map_cons, hanswer, hstate, ih]

end RoundMethod

section Catalog

/-- The methods of the catalog that add updates up, or sort them by value, in any arithmetic. -/
def foldedMethod (ν : Type) {ω : Type} [Floating ν] [Floating ω] [Precision ν ω]
    (params : AggregatorParams) : String → Option (RoundMethod ν)
  | "fedavg" => some (.stateless fedAvgIn)
  | "trimmed_mean" => some (.stateless (Robust.coordinateWise
      (Robust.trimmedMean params.byzantineFraction)))
  | "median" => some (.stateless (Robust.coordinateWise Robust.median))
  | "geometric_median" => some (.stateless Robust.geometricMedianAggregate)
  | "centered_clipping" => some ⟨_,none,Temporal.centeredClipping params.clipRadius⟩
  | "qfedavg" => some (.ofOptimizer (QFedAvg.optimizer (params.fairnessQ.getD F32.zero)
      (params.serverLipschitz.getD F32.one)))
  | "fednova" => some (.ofOptimizer FedNova.optimizer)
  | "fedavgm" => some (.ofOptimizer (FedAvgM.optimizer (params.serverMomentum.getD ⟨0x3f666666⟩)
      (params.serverLearningRate.getD F32.one)))
  | "fedadagrad" => some (.ofOptimizer (FedOpt.optimizer .adagrad (fedOptParams .adagrad params)))
  | "fedadam" => some (.ofOptimizer (FedOpt.optimizer .adam (fedOptParams .adam params)))
  | "fedyogi" => some (.ofOptimizer (FedOpt.optimizer .yogi (fedOptParams .yogi params)))
  | _ => none

/-- In machine arithmetic these are the ones the catalog builds. -/
theorem buildAggregator_foldedMethod {params : AggregatorParams} {name : String}
    {m : RoundMethod F32} (h : foldedMethod F32 params name = some m) :
    buildAggregator name params = .ok ⟨m.σ,.stateful m.init m.call⟩ := by
  have hcombine : (fedAvgIn : _ → Except AggregatorError (List F32)) = fedAvgAggregate :=
    funext fedAvgIn_f32
  unfold foldedMethod at h
  split at h <;> cases h
  case h_1 =>
    rw [hcombine]
    rfl
  all_goals rfl

theorem orderFree_stateless {f : List ClientDelta → Except AggregatorError (List ℝ)}
    (hf : ∀ {us us' : List ClientDelta}, us.Perm us' → (f us').toOption = (f us).toOption) :
    (RoundMethod.stateless f).OrderFree :=
  fun h _ => congrArg (·,()) (hf h)

theorem orderFree_fedAvg : (RoundMethod.stateless (ν := ℝ) fedAvgIn).OrderFree :=
  orderFree_stateless fun h => onBatch_perm Except.toOption h (fun _ _ => rfl)
    fun decoded decoded' hd hd' hne => by rw [averageBySamples_perm h hd hd' hne]

theorem orderFree_coordinateWise {combine : List ℝ → ℝ}
    (hcombine : ∀ {xs ys : List ℝ}, xs.Perm ys → combine ys = combine xs) :
    (RoundMethod.stateless (Robust.coordinateWise combine)).OrderFree :=
  orderFree_stateless fun h => onBatch_perm Except.toOption h (fun _ _ => rfl)
    fun decoded decoded' hd hd' hne => by
      rw [length_headD_perm h hd hd' hne]
      refine congrArg some (List.map_congr_left fun k _ => ?_)
      exact hcombine ((rows_perm h hd hd').map fun w => w.getD k 0)

theorem orderFree_geometricMedian :
    (RoundMethod.stateless (ν := ℝ) Robust.geometricMedianAggregate).OrderFree :=
  orderFree_stateless fun {us us'} h => onBatch_perm Except.toOption h (fun _ _ => rfl)
    fun decoded decoded' hd hd' hne => by
      have hweighted : ((us.map fun u => (Floating.ofNat u.numSamples : ℝ)).zip
          (embed decoded : List (List ℝ))).Perm
            ((us'.map fun u => (Floating.ofNat u.numSamples : ℝ)).zip (embed decoded')) := by
        rw [zip_embed hd, zip_embed hd']
        exact h.map _
      have hlen {us : List ClientDelta} {decoded : List (List F32)}
          (hd : decodeAndValidate us = .ok decoded) :
          ((us.map fun u => (Floating.ofNat u.numSamples : ℝ)).zip
            (embed decoded : List (List ℝ))).map Prod.snd = embed decoded := by
        refine List.map_snd_zip ?_
        rw [List.length_map, embed, List.length_map, (decodeAndValidate_ok hd).1, List.length_map]
      refine congrArg some (geometricMedian_perm hweighted ?_)
      rw [hlen hd, hlen hd', length_headD_embed, length_headD_embed, length_headD_perm h hd hd' hne]

theorem orderFree_centeredClipping (clipRadius : F32) :
    (RoundMethod.OrderFree ⟨_,none,Temporal.centeredClipping (ν := ℝ) clipRadius⟩) :=
  fun h s => onBatch_perm RoundMethod.view h (fun _ _ => rfl)
    fun decoded decoded' hd hd' hne => by
      have hreference : Temporal.clippingReference s (embed decoded' : List (List ℝ)) =
          Temporal.clippingReference s (embed decoded) := by
        unfold Temporal.clippingReference
        dsimp only
        rw [length_headD_embed, length_headD_embed, length_headD_perm h hd hd' hne,
          sharedMean_perm h hd hd']
      dsimp only
      rw [hreference, clippedStep_perm clipRadius (rows_perm h hd hd')]

theorem orderFree_ofOptimizer {σ : Type} {o : Optimizer ℝ σ} (ho : o.OrderFree) :
    (RoundMethod.ofOptimizer o).OrderFree :=
  fun h s => onBatch_perm RoundMethod.view h (fun _ _ => rfl)
    fun decoded decoded' hd hd' hne => by
      obtain ⟨hseed,hstep⟩ := ho h hd hd' hne
      dsimp only
      rw [hseed, length_headD_perm h hd hd' hne]
      simp only [hstep]

/-- For each of these methods, and whatever came before: two runs whose batches hold the same
updates in other orders have the same results, and refuse in the same rounds. -/
theorem orderFree_foldedMethod (params : AggregatorParams) (name : String) (m : RoundMethod ℝ)
    (h : foldedMethod ℝ params name = some m) :
    (∃ machine, foldedMethod F32 params name = some machine ∧
      buildAggregator name params = .ok ⟨machine.σ,.stateful machine.init machine.call⟩) ∧
    ∀ batches batches', List.Forall₂ List.Perm batches batches' →
      m.results batches' = m.results batches := by
  constructor
  · have hmachine : ∃ machine, foldedMethod F32 params name = some machine := by
      unfold foldedMethod at h ⊢
      split at h <;> cases h <;> exact ⟨_,rfl⟩
    obtain ⟨machine,hm⟩ := hmachine
    exact ⟨machine,hm,buildAggregator_foldedMethod hm⟩
  · intro batches batches' hperm
    refine RoundMethod.OrderFree.results ?_ hperm
    unfold foldedMethod at h
    split at h <;> cases h
    case h_1 => exact orderFree_fedAvg
    case h_2 => exact orderFree_coordinateWise (trimmedMean_perm _)
    case h_3 => exact orderFree_coordinateWise median_perm
    case h_4 => exact orderFree_geometricMedian
    case h_5 => exact orderFree_centeredClipping _
    case h_6 => exact orderFree_ofOptimizer (orderFree_qFedAvg _ _)
    case h_7 => exact orderFree_ofOptimizer orderFree_fedNova
    case h_8 => exact orderFree_ofOptimizer (orderFree_fedAvgM _ _)
    case h_9 => exact orderFree_ofOptimizer (orderFree_fedOpt _ _)
    case h_10 => exact orderFree_ofOptimizer (orderFree_fedOpt _ _)
    case h_11 => exact orderFree_ofOptimizer (orderFree_fedOpt _ _)

/-- Two rounds of FedAdam, the second in two orders. -/
theorem orderFree_foldedMethod_fedAdam :
    let params : AggregatorParams := ⟨F32.zero,F32.one,none,none,none,none,none,none,none⟩
    let a := sent "a" [F32.zero]
    let b := sent "b" [F32.one]
    (RoundMethod.ofOptimizer (FedOpt.optimizer .adam (fedOptParams .adam params)) :
        RoundMethod ℝ).results [[a,b],[b,a]] =
      (RoundMethod.ofOptimizer (FedOpt.optimizer .adam (fedOptParams .adam params)) :
        RoundMethod ℝ).results [[a,b],[a,b]] := by
  intro params a b
  exact (orderFree_foldedMethod params "fedadam" _ rfl).2 _ _
    (.cons (.refl _) (.cons (.swap b a []) .nil))

end Catalog
end ConfluxFL
