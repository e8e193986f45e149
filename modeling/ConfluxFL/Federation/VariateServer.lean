import ConfluxFL.Federation.Variates
import ConfluxFL.Server.BatchContent
import ConfluxFL.Server.Influence

/-! The exact server beside the round pipeline: what the checks let through, in real numbers, is
a part of the flushed batch, and the aggregator folds just that part in. -/
namespace ConfluxFL
namespace VariateRun

section Pipeline
variable {ι : Type} {dim : ℕ} (config : ResolvedConfig) (exhausted : List RoundCost → Bool)
  (accountant : RdpAccountant)

/-- Every submission carries the control variate of its report. -/
def Carries (f : VariateReport ι (EuclideanSpace ℝ (Fin dim)) → Submission)
    (l : List (VariateReport ι (EuclideanSpace ℝ (Fin dim)))) : Prop :=
  ∀ x ∈ l, ∃ dc, Scaffold.usableVariate dim (f x).delta = some dc ∧
    euclid dim (dc.map F32.toReal) = x.controlVariate

/-- The checks of the round let the submissions of this client through. -/
def lets (flushed : List Submission) (s : Submission) : Bool :=
  clientPasses config exhausted accountant flushed s.clientId &&
    (lastUpdate config exhausted accountant flushed s.clientId).isSome

variable {config exhausted accountant}
  {f : VariateReport ι (EuclideanSpace ℝ (Fin dim)) → Submission}
  {l : List (VariateReport ι (EuclideanSpace ℝ (Fin dim)))}

theorem usable_entries (flushed : List Submission) :
    (entriesByClient config exhausted accountant flushed).filterMap (Scaffold.usableVariate dim) =
      ((sortByClientId flushed).filter (lets config exhausted accountant flushed)).filterMap
        fun s => Scaffold.usableVariate dim s.delta := by
  rw [entriesByClient, List.filterMap_filterMap, List.filterMap_filter]
  apply List.filterMap_congr
  intro s _
  unfold lets
  cases clientPasses config exhausted accountant flushed s.clientId with
  | false => rfl
  | true => cases lastUpdate config exhausted accountant flushed s.clientId <;> rfl

theorem Carries.variates (h : Carries f l) :
    ((l.map f).filterMap fun s => Scaffold.usableVariate dim s.delta).map
      (fun dc => euclid dim (dc.map F32.toReal)) = l.map VariateReport.controlVariate := by
  induction l with
  | nil => rfl
  | cons x l ih =>
    obtain ⟨dc,hdc,hx⟩ := h x List.mem_cons_self
    simp only [List.map_cons, List.filterMap_cons, hdc, hx]
    rw [ih fun y hy => h y (List.mem_cons_of_mem x hy)]

/-- What the aggregator is given adds up to what the reports let through say. -/
theorem variateSum_entries (h : Carries f l) :
    variateSum dim (entriesByClient config exhausted accountant (l.map f)) =
      ((l.filter fun x => lets config exhausted accountant (l.map f) (f x)).map
        VariateReport.controlVariate).sum := by
  have hsort : (sortByClientId (l.map f)).Perm (l.map f) := StableSort.sortBy_perm
  have hperm := (hsort.filter (lets config exhausted accountant (l.map f))).filterMap
    fun s => Scaffold.usableVariate dim s.delta
  have hkept : Carries f (l.filter fun x => lets config exhausted accountant (l.map f) (f x)) :=
    fun x hx => h x (List.mem_of_mem_filter hx)
  rw [variateSum, usable_entries, (hperm.map _).sum_eq, List.filter_map, ← hkept.variates]
  rfl

theorem exists_lets (h : entriesByClient config exhausted accountant (l.map f) ≠ []) :
    (l.filter fun x => lets config exhausted accountant (l.map f) (f x)) ≠ [] := by
  obtain ⟨u,hu⟩ := List.exists_mem_of_ne_nil _ h
  obtain ⟨s,hs,hsome⟩ := List.mem_filterMap.mp hu
  obtain ⟨x,hx,rfl⟩ := List.mem_map.mp (StableSort.mem_sortBy.mp hs)
  split_ifs at hsome with hpass
  obtain ⟨d,hd,_⟩ := Option.map_eq_some_iff.mp hsome
  refine List.ne_nil_of_mem (List.mem_filter.mpr ⟨hx,?_⟩)
  rw [lets, hpass, hd]
  rfl

/-- A batch the aggregator takes adds its variates over the population. -/
theorem euclid_aggregate {serverLearningRate : F32} {numClients : ℕ}
    {state : Option (ScaffoldState ℝ)} {batch : List ClientDelta} {w : List ℝ} {t : ScaffoldState ℝ}
    (h : Scaffold.aggregate serverLearningRate numClients state batch = (.ok w,some t))
    (hstate : ∀ t ∈ state, t.model.length = dim) (ht : t.model.length = dim) :
    euclid dim t.control = (state.map fun t => euclid dim t.control).getD 0+
      (1/(Scaffold.population numClients : ℝ))•variateSum dim batch := by
  rcases Scaffold.aggregate_cases serverLearningRate numClients state batch with
    ⟨e,he⟩ | ⟨w',t',hok,-,rfl,hcases⟩
  · rw [he] at h
    cases h
  · rw [hok] at h
    cases h
    rcases hcases with ⟨hnone,hseed⟩ | ⟨t',rfl,hlen,hnext⟩
    · obtain rfl : state = none :=
        Option.eq_none_iff_forall_not_mem.mpr fun t' ht' => hnone t' ht' (by rw [hstate t' ht', ht])
      rw [hseed, control_seedState, ht, euclid_variateStep]
      exact (zero_add _).symm
    · rw [ht] at hlen
      subst hlen
      rw [hnext, euclid_nextControl]
      rfl

/-- What a round leaves has the dimension of its entries. -/
theorem length_scaffoldAfter {state : Option (ScaffoldState ℝ)} {flushed : List Submission}
    (hstate : ∀ t ∈ state, t.model.length = dim)
    (hdim : ∀ n, HasDimension (entriesByClient config exhausted accountant flushed) n → n = dim) :
    ∀ t ∈ scaffoldAfter config exhausted accountant state flushed, t.model.length = dim := by
  unfold scaffoldAfter
  split
  · exact hstate
  · rename_i batch hbatch
    obtain ⟨_,rfl⟩ := aggregationBatch_ok_iff.mp hbatch
    rcases Scaffold.aggregate_cases config.serverLearningRate.value
      config.scaffoldNumClients.value state _ with ⟨e,he⟩ | ⟨w,t,hok,hw,hmodel,-⟩
    · rw [he]
      exact hstate
    · rw [hok]
      intro t' ht'
      obtain rfl := Option.some.inj ht'
      rw [hmodel]
      exact hdim _ hw

/-- The control variate that the round pipeline leaves is the one the exact server is left with:
the attempt fails there before anything was folded in, or exactly the reports that the checks let
through are. -/
theorem exists_finishes [DecidableEq (EuclideanSpace ℝ (Fin dim))]
    (s : VariateRun ι (EuclideanSpace ℝ (Fin dim))) {state state' : Option (ScaffoldState ℝ)}
    (hf : Carries f s.loop.flushed)
    (hcontrol : s.control = state.map fun t => euclid dim t.control)
    (hstate : ∀ t ∈ state, t.model.length = dim)
    (h : scaffoldAfter config exhausted accountant state (s.loop.flushed.map f) = state')
    (hstate' : ∀ t ∈ state', t.model.length = dim) :
    ∃ e, (e = .failed false ∨ e = .aggregated
        (fun x => lets config exhausted accountant (s.loop.flushed.map f) (f x)) .completed) ∧
      (s.finishes ℝ config.scaffoldNumClients.value e).control =
        state'.map fun t => euclid dim t.control := by
  have hsame : (s.finishes ℝ config.scaffoldNumClients.value (.failed false)).control =
      state.map fun t => euclid dim t.control := hcontrol
  unfold scaffoldAfter at h
  split at h
  · subst h
    exact ⟨.failed false,.inl rfl,hsame⟩
  · rename_i batch hbatch
    obtain ⟨_,rfl⟩ := aggregationBatch_ok_iff.mp hbatch
    rcases Scaffold.aggregate_cases config.serverLearningRate.value
      config.scaffoldNumClients.value state _ with ⟨e,he⟩ | ⟨w,t,hok,hw,-,-⟩
    · rw [he] at h
      subst h
      exact ⟨.failed false,.inl rfl,hsame⟩
    · rw [hok] at h
      subst h
      refine ⟨.aggregated (fun x => lets config exhausted accountant (s.loop.flushed.map f) (f x))
        .completed,.inr rfl,?_⟩
      have hne := exists_lets hw.1
      simp only [finishes]
      rw [ExactScaffold.aggregate_eq _ _ fun hnil => hne (List.map_eq_nil_iff.mp hnil),
        ← variateSum_entries hf, hcontrol]
      exact congrArg some (euclid_aggregate hok hstate (hstate' t rfl)).symm

end Pipeline
section Solo

/-- The attempt at the first round, with the report of a single client in the batch. -/
noncomputable def soloClosing : VariateRun Unit (EuclideanSpace ℝ (Fin 1)) :=
  { start fun _ => 0 with
    loop := ⟨1,some ⟨1,1,.closed⟩,.closing [⟨(),1,euclid 1 ([F32.one].map F32.toReal)⟩]⟩ }

open Classical in
theorem exists_finishes_solo :
    ∃ e, (e = .failed false ∨ e = .aggregated (fun _ => true) .completed) ∧
      (soloClosing.finishes ℝ 1 e).control =
        (scaffoldAfter scaffoldConfig (fun _ => false) .new (none : Option (ScaffoldState ℝ))
          (oneWeight (some [F32.one]))).map fun t => euclid 1 t.control := by
  obtain ⟨u,hu⟩ : ∃ u, oneWeight (some [F32.one]) = [u] := ⟨_,rfl⟩
  have husable : Scaffold.usableVariate 1 u.delta = some [F32.one] := by
    obtain rfl := List.singleton_inj.mp hu
    decide +kernel
  have hlets : lets scaffoldConfig (fun _ => false) .new [u] u = true := by
    obtain rfl := List.singleton_inj.mp hu
    decide +kernel
  have hcarries : Carries (fun _ => u) soloClosing.loop.flushed := fun x hx => by
    obtain rfl := List.mem_singleton.mp hx
    exact ⟨_,husable,rfl⟩
  have hdim : ∀ n, HasDimension (entriesByClient scaffoldConfig (fun _ => false) .new [u]) n →
      n = 1 := by
    have hentries : ∀ v ∈ entriesByClient scaffoldConfig (fun _ => false) .new [u],
        (decodeWeights v.weights).toOption.map List.length = some 1 := by
      obtain rfl := List.singleton_inj.mp hu
      decide +kernel
    rintro n ⟨hne,hn⟩
    obtain ⟨v,hv⟩ := List.exists_mem_of_ne_nil _ hne
    obtain ⟨w,hw,rfl⟩ := hn v hv
    have hlen := hentries v hv
    rw [hw] at hlen
    exact Option.some.inj hlen
  have hstate' : ∀ t ∈ scaffoldAfter scaffoldConfig (fun _ => false) .new
      (none : Option (ScaffoldState ℝ)) [u], t.model.length = 1 :=
    length_scaffoldAfter (by simp) hdim
  obtain ⟨e,he,h⟩ := exists_finishes soloClosing hcarries rfl (by simp) rfl hstate'
  rw [hu]
  refine ⟨e,he.imp_right fun he => he.trans (congrArg (AttemptEnd.aggregated · .completed) ?_),h⟩
  exact funext fun _ => hlets

end Solo

end VariateRun
end ConfluxFL
