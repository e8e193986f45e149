import ConfluxFL.Core.Euclid
import ConfluxFL.Core.ScaffoldRounding
import ConfluxFL.Server.RoundSpec

/-! How far one round can move the control variate the server hands out. The weights of a
submission go through the clipping mechanism; its control variate is kept as metadata and
reaches the accumulator as it was sent, so what bounds the released value is the sum of the raw
control variates and not the clip norm. -/
namespace ConfluxFL
open Fallible

section Exact

/-- The usable control variates of a batch, added up. -/
noncomputable def variateSum (dim : ℕ) (updates : List ClientDelta) :
    EuclideanSpace ℝ (Fin dim) :=
  ((updates.filterMap (Scaffold.usableVariate dim)).map fun dc =>
    euclid dim (dc.map F32.toReal)).sum

theorem variateSum_cons (dim : ℕ) (u : ClientDelta) (updates : List ClientDelta) :
    variateSum dim (u::updates) = variateSum dim [u]+variateSum dim updates := by
  rw [← List.singleton_append, variateSum, List.filterMap_append, List.map_append, List.sum_append]
  rfl

theorem euclid_foldl {dim : ℕ} (k : ℝ) {variates : List (List F32)}
    (h : ∀ dc ∈ variates, dc.length = dim) {acc : List ℝ} (hacc : acc.length = dim) :
    euclid dim (variates.foldl (fun acc dc => acc.zipWith (fun a v => a+k*F32.toReal v) dc) acc) =
      euclid dim acc+k • (variates.map fun dc => euclid dim (dc.map F32.toReal)).sum := by
  induction variates generalizing acc with
  | nil => simp
  | cons dc variates ih =>
    have hdc := h dc List.mem_cons_self
    have hstep : (acc.zipWith (fun a v => a+k*F32.toReal v) dc).length = dim := by
      rw [List.length_zipWith, hacc, hdc, Nat.min_self]
    rw [List.foldl_cons, ih (fun dc' hdc' => h dc' (List.mem_cons_of_mem dc hdc')) hstep,
      euclid_zipWith dim F32.toReal k hacc hdc, List.map_cons, List.sum_cons, smul_add, add_assoc]

/-- The damped sum is the plain sum over the population. -/
theorem euclid_variateStep (numClients : ℕ) (updates : List ClientDelta) (dim : ℕ) :
    euclid dim (Scaffold.variateStep ℝ numClients updates dim) =
      (1/(Scaffold.population numClients : ℝ)) • variateSum dim updates := by
  have hlen : ∀ dc ∈ updates.filterMap (Scaffold.usableVariate dim), dc.length = dim := by
    intro dc hdc
    obtain ⟨u,_,hu⟩ := List.mem_filterMap.mp hdc
    exact Scaffold.length_of_usableVariate hu
  have h := euclid_foldl (1/(Scaffold.population numClients : ℝ)) hlen (length_zeros dim)
  rw [euclid_zeros, zero_add] at h
  exact h

theorem control_seedState (numClients : ℕ) (updates : List ClientDelta) (seed : List ℝ) :
    (Scaffold.seedState numClients updates seed).control =
      Scaffold.variateStep ℝ numClients updates seed.length := by
  have hall : ((Scaffold.variateStep ℝ numClients updates seed.length).map
      (Precision.narrow : ℝ → ℝ)).all Floating.isFinite = true :=
    List.all_eq_true.mpr fun _ _ => rfl
  rw [Scaffold.seedState, if_pos hall]
  exact List.map_id _

theorem euclid_nextControl (numClients : ℕ) (updates : List ClientDelta)
    (s : ScaffoldState ℝ) :
    euclid s.model.length (Scaffold.nextControl numClients updates s) =
      euclid s.model.length s.control+
        (1/(Scaffold.population numClients : ℝ)) • variateSum s.model.length updates := by
  have hstep := euclid_variateStep numClients updates s.model.length
  rw [← hstep]
  unfold Scaffold.nextControl
  dsimp only
  split
  · have h := euclid_zipWith s.model.length id 1 s.agree
      (Scaffold.length_variateStep (ν := ℝ) numClients updates s.model.length)
    simpa [Precision.narrow, Precision.widen] using h
  · rename_i hnone
    -- nothing is not finite here, so it is the step that is zero
    have hzero : ∀ d ∈ Scaffold.variateStep ℝ numClients updates s.model.length, d = 0 := by
      intro d hd
      by_contra hne
      refine hnone (Bool.and_eq_true_iff.mpr ⟨?_,List.all_eq_true.mpr fun _ _ => rfl⟩)
      exact List.any_eq_true.mpr ⟨d,hd,by simpa [Floating.beq] using hne⟩
    have hlist := List.eq_replicate_of_mem hzero
    rw [Scaffold.length_variateStep] at hlist
    rw [hlist]
    exact (add_zero _).symm.trans (congrArg _ (euclid_zeros s.model.length).symm)

end Exact

section Path
variable (config : ResolvedConfig) (exhausted : List RoundCost → Bool)
  (accountant : RdpAccountant)

/-- SCAFFOLD's state after a round over these submissions, in any arithmetic. A round that is
refused leaves it alone. -/
def scaffoldAfter {ν ω : Type} [Floating ν] [Floating ω] [Precision ν ω]
    (state : Option (ScaffoldState ν)) (flushed : List Submission) :
    Option (ScaffoldState ν) :=
  match aggregationBatch config exhausted accountant flushed with
  | .error _ => state
  | .ok batch => (Scaffold.aggregate config.serverLearningRate.value
      config.scaffoldNumClients.value state batch).2

/-- The control variate the next task carries. -/
def handedOut {ν ω : Type} [Floating ν] [Floating ω] [Precision ν ω]
    (state : Option (ScaffoldState ν)) (flushed : List Submission) : Option (List ν) :=
  (scaffoldAfter config exhausted accountant state flushed).map ScaffoldState.control

/-- The control variates a round takes in, as they were sent; none when it is refused. -/
def rawVariates (state : Option (ScaffoldState F32)) (flushed : List Submission) (dim : ℕ) :
    List (List F32) :=
  match aggregationBatch config exhausted accountant flushed with
  | .error _ => []
  | .ok batch =>
    match (Scaffold.aggregate config.serverLearningRate.value config.scaffoldNumClients.value
      state batch).1 with
    | .error _ => []
    | .ok _ => batch.filterMap (Scaffold.usableVariate dim)

/-- Their sum. -/
noncomputable def takenIn (state : Option (ScaffoldState F32)) (flushed : List Submission)
    (dim : ℕ) : EuclideanSpace ℝ (Fin dim) :=
  ((rawVariates config exhausted accountant state flushed dim).map fun dc =>
    euclid dim (dc.map F32.toReal)).sum

/-- The round is accepted, with this batch. -/
def Takes (state : Option (ScaffoldState F32)) (flushed : List Submission)
    (batch : List ClientDelta) : Prop :=
  aggregationBatch config exhausted accountant flushed = .ok batch ∧
    ∃ w, (Scaffold.aggregate config.serverLearningRate.value config.scaffoldNumClients.value
      state batch).1 = .ok w

/-- The control variate of a state of this dimension. -/
def carriedControl (state : Option (ScaffoldState F32)) (dim : ℕ) : Option (List F32) :=
  (state.filter fun s => s.model.length = dim).map ScaffoldState.control

/-- What an attempt adds its control variates to: nothing in a first round. -/
noncomputable def controlBase (state : Option (ScaffoldState F32)) (dim : ℕ) :
    EuclideanSpace ℝ (Fin dim) :=
  euclid dim (((carriedControl state dim).getD (zeros dim)).map F32.toReal)

/-- How long the terms are that the released value is added up from. -/
noncomputable def termLength (state : Option (ScaffoldState F32)) (flushed : List Submission)
    (dim : ℕ) : ℝ :=
  ‖controlBase state dim‖+1/(Scaffold.population config.scaffoldNumClients.value : ℝ)*
    ((rawVariates config exhausted accountant state flushed dim).map fun dc =>
      ‖euclid dim (dc.map F32.toReal)‖).sum

/-- How far the roundings can move the released value. -/
noncomputable def roundingSlack (state : Option (ScaffoldState F32)) (flushed : List Submission)
    (dim : ℕ) : ℝ :=
  1/((2^22 : ℕ) : ℝ)*termLength config exhausted accountant state flushed dim+
    1/((2^149 : ℕ) : ℝ)*√(dim : ℝ)

/-- Nothing the round adds up comes near the largest number, and the population is a `u32`. -/
structure Roomy (state : Option (ScaffoldState F32)) (flushed : List Submission) (dim : ℕ) :
    Prop where
  population_lt : config.scaffoldNumClients.value < 2^32
  finite : ∀ s ∈ state, ∀ c ∈ s.control, c.isFinite = true
  few : (rawVariates config exhausted accountant state flushed dim).length ≤ 2^24
  small : termLength config exhausted accountant state flushed dim ≤ ((2^126 : ℕ) : ℝ)

/-- What a process running SCAFFOLD puts into the tasks after an attempt: the control variate
the attempt started with if it did not reach the aggregator, and otherwise the one its flushed
submissions lead to. -/
theorem roundTask_runRound (d : Deployment (Option (ScaffoldState F32)))
    (hd : d.aggregator =
      scaffold d.config.serverLearningRate.value d.config.scaffoldNumClients.value)
    (env : RoundEnv) (s : Server (Option (ScaffoldState F32))) (round : ℕ) (weights : List F32) :
    (roundTask d (stateOf (runRound d env s)).aggregatorState round weights).controlVariate =
        (s.aggregatorState.map ScaffoldState.control).map encodeWeights ∨
      (roundTask d (stateOf (runRound d env s)).aggregatorState round weights).controlVariate =
        (handedOut d.config d.budgetExhausted s.accountant s.aggregatorState
          (env.flushed s.round)).map encodeWeights := by
  simp only [roundTask, hd]
  rcases runRound_aggregator d env s with core | ⟨p,s₁,hcall⟩
  · left
    have hstate : (stateOf (runRound d env s)).aggregatorState = s.aggregatorState :=
      congrArg Core.aggregatorState core
    rw [hstate]
    rfl
  · right
    rw [hcall.state, handedOut, scaffoldAfter, (prepareBatch_ok hcall.ready).batch, hd]
    rfl

variable {config exhausted accountant} {state : Option (ScaffoldState F32)}
  {flushed : List Submission} {dim : ℕ}

theorem usable_rawVariates :
    Scaffold.Usable dim (rawVariates config exhausted accountant state flushed dim) := by
  unfold rawVariates
  split
  · exact fun _ h => absurd h List.not_mem_nil
  · split
    · exact fun _ h => absurd h List.not_mem_nil
    · intro dc hdc
      obtain ⟨u,_,hu⟩ := List.mem_filterMap.mp hdc
      exact ⟨Scaffold.length_of_usableVariate hu,Scaffold.isFinite_of_usableVariate hu⟩

/-- The released control variate depends on what the clients sent through their raw control
variates only. -/
theorem handedOut_eq_released {v : List F32}
    (h : handedOut config exhausted accountant state flushed = some v) (hdim : v.length = dim) :
    v = Scaffold.released (carriedControl state dim) config.scaffoldNumClients.value
      (rawVariates config exhausted accountant state flushed dim) dim := by
  obtain ⟨s',hs',rfl⟩ := Option.map_eq_some_iff.mp h
  have hcarried {s : ScaffoldState F32} (hs : state = some s) (hlen : s.model.length = dim) :
      carriedControl state dim = some s.control := by
    simp [carriedControl, hs, Option.filter_some, hlen]
  have hmodel : s'.model.length = dim := s'.agree ▸ hdim
  unfold scaffoldAfter at hs'
  unfold rawVariates
  split at hs'
  · rw [hcarried hs' hmodel, Scaffold.released_nil]
  · rename_i batch hbatch
    rcases Scaffold.aggregate_cases config.serverLearningRate.value
      config.scaffoldNumClients.value state batch with ⟨e,he⟩ | hok
    · rw [he] at hs' ⊢
      rw [hcarried hs' hmodel, Scaffold.released_nil]
    · obtain ⟨w,s'',heq,-,rfl,hcases⟩ := hok
      rw [heq] at hs' ⊢
      cases hs'
      dsimp only
      rcases hcases with ⟨hnone,hseed⟩ | ⟨s,hs,hlen,hnext⟩
      · have hfilter : state.filter (fun s => s.model.length = dim) = none :=
          Option.filter_eq_none_iff.mpr fun s hs heq =>
            hnone s hs ((of_decide_eq_true heq).trans hmodel.symm)
        rw [carriedControl, hfilter, ← hmodel]
        exact (congrArg ScaffoldState.control hseed).trans
          (Scaffold.control_seedState_eq_released _ _ _)
      · have hdim' : s.model.length = dim := hlen.trans hmodel
        subst hdim'
        rw [hcarried hs rfl, hnext, Scaffold.nextControl_eq_released]

theorem controlBase_apply (i : Fin dim) : controlBase state dim i =
    (((carriedControl state dim).getD (zeros dim)).getD i F32.zero).toReal :=
  euclid_map_toReal_apply _ i

theorem takenIn_apply (i : Fin dim) : takenIn config exhausted accountant state flushed dim i =
    ((rawVariates config exhausted accountant state flushed dim).map fun dc =>
      (dc.getD i F32.zero).toReal).sum := by
  rw [takenIn, sum_map_apply]
  simp only [euclid_map_toReal_apply]

/-- No coordinate's terms are longer than all terms are. -/
theorem terms_le (i : Fin dim) : |controlBase state dim i|+
    1/(Scaffold.population config.scaffoldNumClients.value : ℝ)*
      ((rawVariates config exhausted accountant state flushed dim).map fun dc =>
        |(dc.getD i F32.zero).toReal|).sum ≤
      termLength config exhausted accountant state flushed dim := by
  refine add_le_add (abs_apply_le_norm _ i) (mul_le_mul_of_nonneg_left ?_
    (one_div_nonneg.mpr (Nat.cast_nonneg _)))
  refine List.sum_le_sum fun dc _ => ?_
  rw [← euclid_map_toReal_apply]
  exact abs_apply_le_norm _ i

theorem Roomy.carried (h : Roomy config exhausted accountant state flushed dim) :
    ∀ c ∈ carriedControl state dim, c.length = dim ∧ ∀ x ∈ c, x.isFinite = true := by
  intro c hc
  obtain ⟨s,hs,rfl⟩ := Option.map_eq_some_iff.mp hc
  obtain ⟨hs,hlen⟩ := Option.filter_eq_some_iff.mp hs
  exact ⟨s.agree.trans (of_decide_eq_true hlen),h.finite s hs⟩

/-- A coordinate of the released value is the carried one plus the raw ones over the population,
up to the roundings. -/
theorem apply_error {v : List F32}
    (h : handedOut config exhausted accountant state flushed = some v) (hdim : v.length = dim)
    (hroomy : Roomy config exhausted accountant state flushed dim) (i : Fin dim) :
    |(v.getD i F32.zero).toReal-(controlBase state dim i+
        1/(Scaffold.population config.scaffoldNumClients.value : ℝ)*
          takenIn config exhausted accountant state flushed dim i)| ≤
      1/((2^22 : ℕ) : ℝ)*(|controlBase state dim i|+
        1/(Scaffold.population config.scaffoldNumClients.value : ℝ)*
          ((rawVariates config exhausted accountant state flushed dim).map fun dc =>
            |(dc.getD i F32.zero).toReal|).sum)+1/((2^149 : ℕ) : ℝ) := by
  have hpow : (2 : ℝ)^(-149 : ℤ) = 1/((2^149 : ℕ) : ℝ) := by
    rw [Nat.cast_pow, Nat.cast_ofNat, zpow_neg, one_div]
    rfl
  have hcast : (1/((2^22 : ℕ) : ℝ)) = 1/2^22 := by rw [Nat.cast_pow, Nat.cast_ofNat]
  have hpop : Scaffold.population config.scaffoldNumClients.value < 2^32 :=
    max_lt hroomy.population_lt (by norm_num)
  have herror := Scaffold.released_error hpop usable_rawVariates hroomy.few hroomy.carried
    (fun j hj => by
      have hsmall := (terms_le ⟨j,hj⟩).trans hroomy.small
      rw [controlBase_apply, Nat.cast_pow, Nat.cast_ofNat] at hsmall
      exact hsmall) i.2
  rwa [← handedOut_eq_released h hdim, ← controlBase_apply, ← takenIn_apply, hpow, ← hcast]
    at herror

/-- The same for the released value as a point of Euclidean space. -/
theorem handedOut_error {v : List F32}
    (h : handedOut config exhausted accountant state flushed = some v) (hdim : v.length = dim)
    (hroomy : Roomy config exhausted accountant state flushed dim) :
    ‖euclid dim (v.map F32.toReal)-(controlBase state dim+
      (1/(Scaffold.population config.scaffoldNumClients.value : ℝ)) •
        takenIn config exhausted accountant state flushed dim)‖ ≤
      roundingSlack config exhausted accountant state flushed dim := by
  have hN : (0 : ℝ) ≤ 1/(Scaffold.population config.scaffoldNumClients.value : ℝ) :=
    one_div_nonneg.mpr (Nat.cast_nonneg _)
  have hnorm := norm_le_of_terms (x := euclid dim (v.map F32.toReal)-(controlBase state dim+
      (1/(Scaffold.population config.scaffoldNumClients.value : ℝ)) •
        takenIn config exhausted accountant state flushed dim))
    (l := (rawVariates config exhausted accountant state flushed dim).map fun dc =>
      euclid dim (dc.map F32.toReal)) hN
    (one_div_nonneg.mpr (Nat.cast_nonneg (2^22))) (one_div_nonneg.mpr (Nat.cast_nonneg (2^149)))
    (b := controlBase state dim) fun i => by
      have hi := apply_error h hdim hroomy i
      rw [← euclid_map_toReal_apply] at hi
      rw [List.map_map]
      simp only [Function.comp_def, euclid_map_toReal_apply]
      exact hi
  rw [List.map_map] at hnorm
  exact hnorm

/-- As far apart as the sums are, over the population, up to the roundings of both rounds. -/
theorem abs_dist_sub_le {flushed' : List Submission} {v v' : List F32}
    (h : handedOut config exhausted accountant state flushed = some v)
    (h' : handedOut config exhausted accountant state flushed' = some v')
    (hdim : v.length = dim) (hdim' : v'.length = dim)
    (hroomy : Roomy config exhausted accountant state flushed dim)
    (hroomy' : Roomy config exhausted accountant state flushed' dim) :
    |dist (euclid dim (v.map F32.toReal)) (euclid dim (v'.map F32.toReal))-
        1/(Scaffold.population config.scaffoldNumClients.value : ℝ)*
          ‖takenIn config exhausted accountant state flushed dim-
            takenIn config exhausted accountant state flushed' dim‖| ≤
      roundingSlack config exhausted accountant state flushed dim+
        roundingSlack config exhausted accountant state flushed' dim := by
  have hN : (0 : ℝ) ≤ 1/(Scaffold.population config.scaffoldNumClients.value : ℝ) :=
    one_div_nonneg.mpr (Nat.cast_nonneg _)
  have hv := handedOut_error h hdim hroomy
  have hv' := handedOut_error h' hdim' hroomy'
  have hscale (x : EuclideanSpace ℝ (Fin dim)) :
      1/(Scaffold.population config.scaffoldNumClients.value : ℝ)*‖x‖ =
        ‖(1/(Scaffold.population config.scaffoldNumClients.value : ℝ)) • x‖ := by
    rw [norm_smul, Real.norm_of_nonneg hN]
  rw [dist_eq_norm, hscale, smul_sub, ← add_sub_add_left_eq_sub (_ • takenIn config exhausted
    accountant state flushed dim) _ (controlBase state dim)]
  refine (abs_norm_sub_norm_le _ _).trans ?_
  rw [sub_sub_sub_comm]
  exact (norm_sub_le _ _).trans (add_le_add hv hv')

/-- Of two batches that differ in one client's entries only, the sums differ by what that
client sent. -/
theorem variateSum_sub_of_differ {dim : ℕ} {batch batch' : List ClientDelta} {c : String}
    (h : batch.filter (fun u => u.clientId ≠ c) = batch'.filter fun u => u.clientId ≠ c) :
    variateSum dim batch-variateSum dim batch' =
      variateSum dim (batch.filter fun u => u.clientId = c)-
        variateSum dim (batch'.filter fun u => u.clientId = c) := by
  have hsplit (updates : List ClientDelta) : variateSum dim updates =
      variateSum dim (updates.filter fun u => u.clientId = c)+
        variateSum dim (updates.filter fun u => u.clientId ≠ c) := by
    induction updates with
    | nil => exact (add_zero _).symm
    | cons u updates ih =>
      rw [variateSum_cons, ih]
      by_cases hu : u.clientId = c
      · rw [List.filter_cons_of_pos (by simp [hu]), List.filter_cons_of_neg (by simp [hu]),
          variateSum_cons dim u (updates.filter _), add_assoc]
      · rw [List.filter_cons_of_neg (by simp [hu]), List.filter_cons_of_pos (by simp [hu]),
          variateSum_cons dim u (updates.filter _), add_left_comm]
  rw [hsplit batch, hsplit batch', h, add_sub_add_right_eq_sub]

theorem Takes.takenIn_eq {batch : List ClientDelta}
    (h : Takes config exhausted accountant state flushed batch) :
    takenIn config exhausted accountant state flushed dim = variateSum dim batch := by
  obtain ⟨hb,w,hw⟩ := h
  rw [takenIn, rawVariates, hb]
  dsimp only
  rw [hw]
  rfl

end Path

section Example

/-- One client's submission of one weight, with a control variate or without. -/
def oneWeight (controlVariate : Option (List F32)) : List Submission :=
  [⟨⟨"a",1,encodeWeights [F32.one],1,none,controlVariate.map encodeWeights,none⟩,
    fun _ => F32.zero⟩]

def scaffoldConfig : ResolvedConfig :=
  { ResolvedConfig.noiseless with aggregator := ⟨"scaffold",.cli⟩ }

def scaffoldProcess : Deployment (Option (ScaffoldState F32)) :=
  { Deployment.noiseless (scaffold F32.one 1) with config := scaffoldConfig }

/-- The control variate of the second round's task, after a first round with this submission. -/
def secondTaskVariate (controlVariate : Option (List F32)) : Option (List UInt8) :=
  let first := stateOf (runRound scaffoldProcess (.clean (oneWeight controlVariate))
    (.fresh (.inMemory (.new [F32.zero])) none))
  ((stateOf (runRound scaffoldProcess (.clean (oneWeight none)) first)).pushed.getLast?).bind
    TaskResponse.controlVariate

theorem toReal_clipNorm : scaffoldConfig.clipNorm.value.toReal = 1 := F32.toReal_one

def ten : F32 := ⟨0x41200000⟩

def eleven : F32 := ⟨0x41300000⟩

theorem toReal_ten : ten.toReal = 10 := by
  have hunpack : ten.value.toModel.unpack = .finite .positive 10485760 (-20) (by decide) := rfl
  rw [F32.toReal_of_unpack hunpack]
  norm_num

/-- A state of one weight, whose control variate is not zero. -/
def tenState : ScaffoldState F32 := ⟨[F32.zero],[ten],rfl⟩

/-- Over that state the terms of a round of one client come to at most eleven. -/
theorem roomy_oneWeight {controlVariate : Option (List F32)} {raw : List (List F32)}
    (h : rawVariates scaffoldConfig (fun _ => false) .new (some tenState)
      (oneWeight controlVariate) 1 = raw) (hone : ∀ dc ∈ raw, dc = [F32.one]) (hfew : raw.length ≤ 1) :
    termLength scaffoldConfig (fun _ => false) .new (some tenState) (oneWeight controlVariate) 1 ≤ 11 ∧
      Roomy scaffoldConfig (fun _ => false) .new (some tenState) (oneWeight controlVariate) 1 := by
  have hpop : Scaffold.population scaffoldConfig.scaffoldNumClients.value = 1 := rfl
  have hbase : controlBase (some tenState) 1 = euclid 1 [10] := by
    rw [← toReal_ten]
    rfl
  have hterm : termLength scaffoldConfig (fun _ => false) .new (some tenState)
      (oneWeight controlVariate) 1 ≤ 11 := by
    have hraw : (raw.map fun dc => ‖euclid 1 (dc.map F32.toReal)‖).sum ≤ 1 := by
      match raw with
      | [] => exact zero_le_one
      | [dc] =>
        rw [hone dc List.mem_cons_self]
        simp [euclid, F32.toReal_one, EuclideanSpace.norm_eq]
    rw [termLength, h, hpop, hbase, Nat.cast_one, div_one, one_mul]
    have hten : ‖euclid 1 [10]‖ = 10 := by simp [euclid, EuclideanSpace.norm_eq]
    linarith
  refine ⟨hterm,⟨by decide,?_,?_,hterm.trans (by norm_num)⟩⟩
  · intro s hs c hc
    cases hs
    rw [List.mem_singleton.mp hc]
    decide
  · rw [h]
    exact hfew.trans (by norm_num)

end Example
end ConfluxFL
