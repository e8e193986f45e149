import ConfluxFL.Core.Vectors

/-! The server's half of SCAFFOLD. The model moves by the mean over the clients of the round;
the control variate is damped by the whole population. Both are computed in the wider type,
and the control variate advances only once the model update is known to be good. -/
namespace ConfluxFL
open Precision

/-- What SCAFFOLD keeps between rounds: the model it last produced, and its control variate. -/
structure ScaffoldState (ν : Type) where
  model : List ν
  control : List ν
  agree : control.length = model.length

namespace Scaffold
variable {ν ω : Type} [Floating ν] [Floating ω] [Precision ν ω]

/-- The population the control variate is damped by. -/
def population (numClients : ℕ) : ℕ := max numClients 1

/-- A client's control variate, if it sent one that can be read against this model. One that is
missing, malformed, of another length or not finite is skipped, not guessed at. -/
def usableVariate (dim : ℕ) (u : ClientDelta) : Option (List F32) :=
  match u.controlVariate with
  | none => none
  | some raw =>
    match decodeWeights raw with
    | .error _ => none
    | .ok dc => if dc.length ≠ dim ∨ dc.any (fun v => !v.isFinite) = true then none else some dc

variable (ν) in
/-- The damped sum of whatever control variates are usable. -/
def variateStep (numClients : ℕ) (updates : List ClientDelta) (dim : ℕ) : List ω :=
  let damping : ω := 1/Floating.ofNat (population numClients)
  (updates.filterMap (usableVariate dim)).foldl
    (fun acc dc => acc.zipWith (fun a v => a+damping*widen (Floating.ofF32 v : ν)) dc) (zeros dim)

/-- The mean over the round's clients of what each one changed. -/
def modelStep (decoded : List (List ν)) (model : List ν) : List ω :=
  let share : ω := 1/Floating.ofNat decoded.length
  decoded.foldl (fun acc w =>
    acc.zipWith (fun a p => a+share*(widen p.1-widen p.2)) (w.zip model)) (zeros model.length)

theorem length_of_usableVariate {dim : ℕ} {u : ClientDelta} {dc : List F32}
    (h : usableVariate dim u = some dc) : dc.length = dim := by
  unfold usableVariate at h
  split at h
  · cases h
  · split at h
    · cases h
    · split_ifs at h with hbad
      cases h
      exact not_not.mp (not_or.mp hbad).1

theorem isFinite_of_usableVariate {dim : ℕ} {u : ClientDelta} {dc : List F32}
    (h : usableVariate dim u = some dc) : ∀ v ∈ dc, v.isFinite = true := by
  unfold usableVariate at h
  split at h
  · cases h
  · split at h
    · cases h
    · split_ifs at h with hbad
      cases h
      simpa using (not_or.mp hbad).2

@[simp] theorem length_variateStep (numClients : ℕ) (updates : List ClientDelta) (dim : ℕ) :
    (variateStep ν numClients updates dim).length = dim := by
  refine length_foldl (fun acc dc hdc hacc => ?_) (length_zeros dim)
  obtain ⟨u,_,hu⟩ := List.mem_filterMap.mp hdc
  rw [List.length_zipWith, hacc, length_of_usableVariate hu, Nat.min_self]

omit [Floating ν] in
theorem length_modelStep {decoded : List (List ν)} {model : List ν}
    (h : ∀ w ∈ decoded, w.length = model.length) :
    (modelStep decoded model).length = model.length := by
  refine length_foldl (fun acc w hw hacc => ?_) (length_zeros model.length)
  rw [List.length_zipWith, List.length_zip, hacc, h w hw, Nat.min_self, Nat.min_self]

/-- The state a first round leaves: its average, and the control variates it brought. A sum
that is not finite is dropped. -/
def seedState (numClients : ℕ) (updates : List ClientDelta) (seed : List ν) : ScaffoldState ν :=
  let c := (variateStep ν numClients updates seed.length).map narrow
  if c.all Floating.isFinite then ⟨seed,c,by simp [c]⟩
  else ⟨seed,zeros seed.length,length_zeros _⟩

/-- The control variate after a round: where it was when no client sent a usable one, and when
the new one would not be finite. -/
def nextControl (numClients : ℕ) (updates : List ClientDelta) (s : ScaffoldState ν) : List ν :=
  let step := variateStep ν numClients updates s.model.length
  let next := s.control.zipWith (fun c d => narrow (widen c+d)) step
  if step.any (fun d => !Floating.beq d 0) && next.all Floating.isFinite then next else s.control

@[simp] theorem length_nextControl (numClients : ℕ) (updates : List ClientDelta)
    (s : ScaffoldState ν) : (nextControl numClients updates s).length = s.model.length := by
  unfold nextControl
  dsimp only
  split
  · rw [List.length_zipWith, length_variateStep, s.agree, Nat.min_self]
  · exact s.agree

/-- The model one optimizer step away from the last one. -/
def nextModel (serverLearningRate : F32) (decoded : List (List ν)) (model : List ν) : List ν :=
  let lr := widen (Floating.ofF32 serverLearningRate : ν)
  model.zipWith (fun x d => narrow (widen x+lr*d)) (modelStep decoded model)

theorem length_nextModel (serverLearningRate : F32) {decoded : List (List ν)} {model : List ν}
    (h : ∀ w ∈ decoded, w.length = model.length) :
    (nextModel serverLearningRate decoded model).length = model.length := by
  rw [nextModel, List.length_zipWith, length_modelStep h, Nat.min_self]

/-- One round. A state of another dimension is replaced, as if this were the first. -/
def aggregate (serverLearningRate : F32) (numClients : ℕ) (state : Option (ScaffoldState ν))
    (updates : List ClientDelta) :
    Except AggregatorError (List ν) × Option (ScaffoldState ν) :=
  if updates = [] then (.error .emptyBatch,state)
  else
    match hd : decodeAndValidate updates with
    | .error e => (.error e,state)
    | .ok decoded =>
      match hs : state.filter fun s => s.model.length = (decoded.headD []).length with
      | none =>
        match fedAvgIn updates with
        | .error e => (.error e,state)
        | .ok seed => (.ok seed,some (seedState numClients updates seed))
      | some s =>
        let next := nextModel serverLearningRate (embed decoded) s.model
        match refuseNonFinite "scaffold" next with
        | some e => (.error e,state)
        | none => (.ok next,some ⟨next,nextControl numClients updates s,by
            have hlen : s.model.length = (decoded.headD []).length :=
              of_decide_eq_true (Option.filter_eq_some_iff.mp hs).2
            have hrows : ∀ w ∈ (embed decoded : List (List ν)), w.length = s.model.length :=
              fun w hw => (length_of_mem_embed hd w hw).trans hlen.symm
            rw [length_nextControl, length_nextModel serverLearningRate hrows]⟩)

/-- How a round ends: refused, with the state left alone; or accepted, with the state of a
first round when there was none of this dimension, and otherwise one step further. -/
theorem aggregate_cases (serverLearningRate : F32) (numClients : ℕ)
    (state : Option (ScaffoldState ν)) (updates : List ClientDelta) :
    (∃ e, aggregate serverLearningRate numClients state updates = (.error e,state)) ∨
    ∃ w s', aggregate serverLearningRate numClients state updates = (.ok w,some s') ∧
      HasDimension updates w.length ∧ s'.model = w ∧
      ((∀ s ∈ state, s.model.length ≠ w.length) ∧ s' = seedState numClients updates w ∨
        ∃ s, state = some s ∧ s.model.length = w.length ∧
          s'.control = nextControl numClients updates s) := by
  unfold aggregate
  split_ifs with hne
  · exact .inl ⟨_,rfl⟩
  · split
    · exact .inl ⟨_,rfl⟩
    · rename_i decoded hd
      have hdim := hasDimension_of_ok hd hne
      split
      · rename_i hnone
        split
        · exact .inl ⟨_,rfl⟩
        · rename_i seed hseed
          have hlen := (hasDimension_fedAvgIn hseed).subset hdim fun _ hu => hu
          refine .inr ⟨seed,_,rfl,hasDimension_fedAvgIn hseed,?_,.inl ⟨fun s hs => ?_,rfl⟩⟩
          · unfold seedState
            dsimp only
            split <;> rfl
          · rw [Option.filter_eq_none_iff] at hnone
            rw [← hlen]
            exact fun heq => hnone s hs (decide_eq_true heq)
      · rename_i s hs
        have hfilter := Option.filter_eq_some_iff.mp hs
        have hlen : s.model.length = (decoded.headD []).length := of_decide_eq_true hfilter.2
        have hnext := length_nextModel serverLearningRate fun w hw =>
          ((length_of_mem_embed hd w hw).trans hlen.symm : w.length = s.model.length)
        dsimp only
        split
        · exact .inl ⟨_,rfl⟩
        · refine .inr ⟨_,_,rfl,?_,rfl,.inr ⟨s,hfilter.1,hnext.symm,rfl⟩⟩
          rw [hnext, hlen]
          exact hdim

end Scaffold

/-- SCAFFOLD as the round pipeline sees it, in machine arithmetic. -/
def scaffold (serverLearningRate : F32) (numClients : ℕ) :
    Aggregator (Option (ScaffoldState F32)) where
  init := none
  aggregate state injected updates :=
    let result := Scaffold.aggregate serverLearningRate numClients state updates
    (result.1,result.2,injected)
  requiresTrustedReference := false
  requiresCandidateScores := false
  controlVariate state := state.map ScaffoldState.control

end ConfluxFL
