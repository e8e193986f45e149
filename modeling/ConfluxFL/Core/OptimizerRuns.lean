import ConfluxFL.Core.ExactBatch
import ConfluxFL.Core.Optimization
import ConfluxFL.Lib.Calls

/-! Runs of an optimizer from its start: the model it holds is the one it returned last. In exact
arithmetic no step is refused for what it computes. -/
namespace ConfluxFL
namespace Optimizer
variable {ν σ : Type} [Floating ν] (o : Optimizer ν σ)

/-- The state after some batches. -/
def after (batches : List (List ClientDelta)) : Option σ := Calls.after o.aggregate none batches

/-- The results for some batches. -/
def answers (batches : List (List ClientDelta)) : List (Except AggregatorError (List ν)) :=
  Calls.answers o.aggregate none batches

/-- The vector of the last batch that was not refused. -/
def lastReturned (batches : List (List ClientDelta)) : Option (List ν) :=
  ((o.answers batches).filterMap Except.toOption).getLast?

theorem after_concat (batches : List (List ClientDelta)) (updates : List ClientDelta) :
    o.after (batches++[updates]) = (o.aggregate (o.after batches) updates).2 :=
  Calls.after_append _ _ _ _

theorem answers_concat (batches : List (List ClientDelta)) (updates : List ClientDelta) :
    o.answers (batches++[updates]) =
      o.answers batches++[(o.aggregate (o.after batches) updates).1] :=
  Calls.answers_append _ _ _ _

/-- The model that is held is the one returned last. -/
theorem map_global_after (batches : List (List ClientDelta)) :
    (o.after batches).map o.global = o.lastReturned batches := by
  induction batches using List.reverseRecOn with
  | nil => rfl
  | append_singleton batches updates ih =>
    rw [lastReturned, after_concat, answers_concat, List.filterMap_append]
    rcases o.aggregate_cases (o.after batches) updates with ⟨e,he⟩ | ⟨decoded,s',-,-,heq,-⟩
    · rw [he, ih, lastReturned]
      exact congrArg List.getLast? (List.append_nil _).symm
    · rw [heq]
      exact List.getLast?_concat.symm

/-- What every accepted round keeps, every run keeps. -/
theorem after_of_invariant (I : σ → Prop) (batches : List (List ClientDelta))
    (hstart : ∀ w, I (o.start w))
    (hstep : ∀ updates decoded s s', I s → o.step updates decoded s = .ok s' → I s') :
    ∀ s ∈ o.after batches, I s := by
  refine Run.after_of_kept (fun state : Option σ => ∀ s ∈ state, I s) nofun
    fun state updates hstate s hs => ?_
  rcases o.aggregate_cases state updates with ⟨e,he⟩ | ⟨decoded,s',-,-,heq,hcase⟩
  · rw [he] at hs
    exact hstate s hs
  · rw [heq] at hs
    cases hs
    rcases hcase with ⟨-,w,-,rfl⟩ | ⟨s₀,hs₀,-,hok⟩
    · exact hstart w
    · exact hstep updates _ s₀ s (hstate s₀ hs₀) hok

/-- A round's result, by its seed or its step. -/
def conclude (state : Option σ) : Except AggregatorError σ →
    Except AggregatorError (List ν) × Option σ
  | .error e => (.error e,state)
  | .ok s => (.ok (o.global s),some s)

/-- A round on a valid batch, given what its seed or its step comes to. -/
theorem aggregate_decoded {state : Option σ} {updates : List ClientDelta}
    {decoded : List (List F32)} {next : Except AggregatorError σ}
    (hd : decodeAndValidate updates = .ok decoded) (hne : updates ≠ [])
    (hnext : (∀ s ∈ state, (o.global s).length ≠ (decoded.headD []).length) ∧
        (o.seed updates (embed decoded)).map o.start = next ∨
      ∃ s ∈ state, (o.global s).length = (decoded.headD []).length ∧
        o.step updates (embed decoded) s = next) :
    o.aggregate state updates = o.conclude state next := by
  unfold aggregate onBatch
  rw [if_neg hne, hd]
  dsimp only
  rcases hnext with ⟨hother,rfl⟩ | ⟨s,rfl,hlen,rfl⟩
  · rw [Option.filter_eq_none_iff.mpr fun s hs => by simpa using hother s hs]
    cases (o.seed updates (embed decoded)).map o.start <;> rfl
  · rw [Option.filter_some, if_pos (decide_eq_true hlen)]
    cases h : o.step updates (embed decoded) s <;> simp only [h, conclude]

/-- A round that starts over. -/
theorem aggregate_seed {state : Option σ} {updates : List ClientDelta} {decoded : List (List F32)}
    {w : List ν} (hd : decodeAndValidate updates = .ok decoded) (hne : updates ≠ [])
    (hother : ∀ s ∈ state, (o.global s).length ≠ (decoded.headD []).length)
    (hseed : o.seed updates (embed decoded) = .ok w) :
    o.aggregate state updates = (.ok (o.global (o.start w)),some (o.start w)) :=
  o.aggregate_decoded hd hne (.inl ⟨hother,congrArg (Except.map o.start) hseed⟩)

/-- A round that goes one step further. -/
theorem aggregate_step {s s' : σ} {updates : List ClientDelta} {decoded : List (List F32)}
    (hd : decodeAndValidate updates = .ok decoded) (hne : updates ≠ [])
    (hlen : (o.global s).length = (decoded.headD []).length)
    (hstep : o.step updates (embed decoded) s = .ok s') :
    o.aggregate (some s) updates = (.ok (o.global s'),some s') :=
  o.aggregate_decoded hd hne (.inr ⟨s,rfl,hlen,hstep⟩)

/-- A round whose seed and step both come to this vector. -/
theorem aggregate_of_ok {state : Option σ} {updates : List ClientDelta} {decoded : List (List F32)}
    {w : List ν} (hd : decodeAndValidate updates = .ok decoded) (hne : updates ≠ [])
    (hseed : ∃ v, o.seed updates (embed decoded) = .ok v ∧ o.global (o.start v) = w)
    (hstep : ∀ s ∈ state, (o.global s).length = (decoded.headD []).length →
      ∃ s', o.step updates (embed decoded) s = .ok s' ∧ o.global s' = w) :
    (o.aggregate state updates).1 = .ok w := by
  by_cases hother : ∀ s ∈ state, (o.global s).length ≠ (decoded.headD []).length
  · obtain ⟨v,hv,hw⟩ := hseed
    rw [o.aggregate_seed hd hne hother hv, hw]
  · push Not at hother
    obtain ⟨s,rfl,hlen⟩ := hother
    obtain ⟨s',hs',hw⟩ := hstep s rfl hlen
    rw [o.aggregate_step hd hne hlen hs', hw]

end Optimizer

theorem refuseNonFinite_real (method : String) (next : List ℝ) :
    refuseNonFinite method next = none := by
  rw [refuseNonFinite, Option.map_eq_none_iff, List.findIdx?_eq_none_iff]
  exact fun _ _ => rfl

/-- No real number is infinite. -/
theorem keepFinite_real {σ : Type} (method : String) (global : σ → List ℝ) (s : σ) :
    keepFinite method global s = .ok s := by
  rw [keepFinite, refuseNonFinite_real]

end ConfluxFL
