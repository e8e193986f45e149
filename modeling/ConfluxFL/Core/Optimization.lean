import ConfluxFL.Core.Vectors

/-! Server-side optimizers. Each keeps the last model it produced and steps from it; a batch of
another dimension starts over, as the first round does. The accumulators live in the wider type,
and a step that is not finite is refused before anything of it is kept. FedAvg on a batch that
has been decoded is its average by sample counts. -/
namespace ConfluxFL
open Precision

/-- What an optimizer keeps, how a first round goes, and how every later one does. The round's
answer is always the model of the state it leaves. -/
structure Optimizer (ν σ : Type) where
  global : σ → List ν
  start : List ν → σ
  seed : List ClientDelta → List (List ν) → Except AggregatorError (List ν)
  step : List ClientDelta → List (List ν) → σ → Except AggregatorError σ

namespace Optimizer
variable {ν σ : Type} [Floating ν] (o : Optimizer ν σ)

/-- One round; a refused one leaves the state alone. -/
def aggregate (state : Option σ) (updates : List ClientDelta) :
    Except AggregatorError (List ν) × Option σ :=
  onBatch (fun e => (.error e,state)) updates fun decoded =>
    let next := match state.filter fun s => (o.global s).length = (decoded.headD []).length with
      | none => (o.seed updates (embed decoded)).map o.start
      | some s => o.step updates (embed decoded) s
    match next with
    | .error e => (.error e,state)
    | .ok s => (.ok (o.global s),some s)

/-- An optimizer whose first model and steps have the dimension of the batch. -/
structure Lawful : Prop where
  seed {updates : List ClientDelta} {decoded : List (List ν)} {w : List ν} {dim : ℕ}
    (hhead : (decoded.headD []).length = dim) (hrows : ∀ w ∈ decoded, w.length = dim)
    (h : o.seed updates decoded = .ok w) : (o.global (o.start w)).length = dim
  step {updates : List ClientDelta} {decoded : List (List ν)} {s s' : σ} {dim : ℕ}
    (hhead : (decoded.headD []).length = dim) (hrows : ∀ w ∈ decoded, w.length = dim)
    (hs : (o.global s).length = dim) (h : o.step updates decoded s = .ok s') :
    (o.global s').length = dim

variable {o}

/-- How a round ends: refused, with the state left alone; or accepted, with a state that was
seeded when there was none of this dimension, and otherwise one step further. -/
theorem aggregate_cases (o : Optimizer ν σ) (state : Option σ) (updates : List ClientDelta) :
    (∃ e, o.aggregate state updates = (.error e,state)) ∨
    ∃ decoded s', decodeAndValidate updates = .ok decoded ∧
      HasDimension updates (decoded.headD []).length ∧
      o.aggregate state updates = (.ok (o.global s'),some s') ∧
      ((∀ s ∈ state, (o.global s).length ≠ (decoded.headD []).length) ∧
          (∃ w, o.seed updates (embed decoded) = .ok w ∧ s' = o.start w) ∨
        ∃ s, state = some s ∧ (o.global s).length = (decoded.headD []).length ∧
          o.step updates (embed decoded) s = .ok s') := by
  unfold aggregate
  rcases onBatch_cases (fun e => ((.error e : Except AggregatorError (List ν)),state)) updates _ with
    ⟨e,he⟩ | ⟨decoded,hd,hdim,heq⟩
  · exact .inl ⟨e,he⟩
  · rw [heq]
    dsimp only
    cases hfilter : state.filter fun s => (o.global s).length = (decoded.headD []).length with
    | none =>
      rw [Option.filter_eq_none_iff] at hfilter
      cases hseed : o.seed updates (embed decoded) with
      | error e => exact .inl ⟨e,rfl⟩
      | ok w =>
        refine .inr ⟨decoded,o.start w,hd,hdim,rfl,.inl ⟨fun s hs heq => ?_,w,hseed,rfl⟩⟩
        exact hfilter s hs (decide_eq_true heq)
    | some s =>
      obtain ⟨hs,hlen⟩ := Option.filter_eq_some_iff.mp hfilter
      dsimp only
      cases hstep : o.step updates (embed decoded) s with
      | error e => exact .inl ⟨e,rfl⟩
      | ok s' =>
        exact .inr ⟨decoded,s',hd,hdim,rfl,.inr ⟨s,hs,of_decide_eq_true hlen,hstep⟩⟩

theorem hasDimension_aggregate (ho : o.Lawful) {state : Option σ} {updates : List ClientDelta}
    {out : List ν} (h : (o.aggregate state updates).1 = .ok out) :
    HasDimension updates out.length := by
  rcases o.aggregate_cases state updates with ⟨e,he⟩ | ⟨decoded,s',hd,hdim,heq,hstate⟩
  · rw [he] at h
    cases h
  · rw [heq] at h
    cases h
    have hhead := length_headD_embed (ν := ν) decoded
    have hrows := length_of_mem_embed (ν := ν) hd
    have hlen : (o.global s').length = (decoded.headD []).length := by
      rcases hstate with ⟨-,w,hseed,rfl⟩ | ⟨s,-,hs,hstep⟩
      · exact ho.seed hhead hrows hseed
      · exact ho.step hhead hrows hs hstep
    rwa [hlen]

end Optimizer

section Steps
variable {ν : Type} [Floating ν]

/-- Keep a state unless the model it holds is not finite. -/
def keepFinite {σ : Type} (method : String) (global : σ → List ν) (s : σ) :
    Except AggregatorError σ :=
  match refuseNonFinite method (global s) with
  | some e => .error e
  | none => .ok s

theorem keepFinite_ok {σ : Type} {method : String} {global : σ → List ν} {s s' : σ}
    (h : keepFinite method global s = .ok s') : s' = s := by
  unfold keepFinite at h
  split at h
  · cases h
  · cases h
    rfl

end Steps

inductive FedOptVariant | adagrad | adam | yogi
  deriving DecidableEq, Repr

structure FedOptParams where
  serverLearningRate : F32
  beta1 : F32
  beta2 : F32
  tau : F32

namespace FedOptVariant

def paperDefaults : FedOptVariant → F32 × F32
  | .adagrad => (F32.zero,F32.zero)
  | .adam => (⟨0x3f666666⟩,⟨0x3f7d70a4⟩)
  | .yogi => (⟨0x3f666666⟩,⟨0x3f7d70a4⟩)

def name : FedOptVariant → String
  | .adagrad => "fedadagrad"
  | .adam => "fedadam"
  | .yogi => "fedyogi"

def params (variant : FedOptVariant) : FedOptParams :=
  ⟨F32.one,variant.paperDefaults.1,variant.paperDefaults.2,⟨0x3a83126f⟩⟩

end FedOptVariant

/-- One coordinate of an adaptive optimizer: the model and its two moments. -/
structure Moments (ν ω : Type) where
  global : ν
  m : ω
  v : ω

namespace FedOpt
variable {ν ω : Type} [Floating ν] [Floating ω] [Precision ν ω]

/-- The second moment after a squared pseudo-gradient. Yogi moves towards it by its sign. -/
def secondMoment (variant : FedOptVariant) (beta2 v d2 : ω) : ω :=
  match variant with
  | .adagrad => v+d2
  | .adam => beta2*v+(1-beta2)*d2
  | .yogi =>
    let diff := v-d2
    let sign : ω := if Floating.lt 0 diff then 1 else if Floating.lt diff 0 then 0-1 else 0
    v-(1-beta2)*d2*sign

variable (ν) in
/-- The floor of the second moment, squared before it is widened. -/
def tauSquared (p : FedOptParams) : ω :=
  widen ((Floating.ofF32 p.tau : ν)*Floating.ofF32 p.tau)

def coordinateStep (variant : FedOptVariant) (p : FedOptParams) (c : Moments ν ω) (target : ν) :
    Moments ν ω :=
  let delta := widen target-widen c.global
  let beta1 : ω := Floating.ofF32 p.beta1
  let m := beta1*c.m+(1-beta1)*delta
  let v := Floating.max (secondMoment variant (Floating.ofF32 p.beta2) c.v (delta*delta))
    (tauSquared ν p)
  let step := Floating.ofF32 p.serverLearningRate*m/(Floating.sqrt v+Floating.ofF32 p.tau)
  ⟨narrow (widen c.global+step),m,v⟩

/-- Algorithm 2 over the unweighted mean of the batch. -/
def optimizer (variant : FedOptVariant) (p : FedOptParams) :
    Optimizer ν (List (Moments ν ω)) where
  global s := s.map Moments.global
  start w := w.map fun x => ⟨x,0,tauSquared ν p⟩
  seed _ decoded := .ok (sharedMean (decoded.headD []).length decoded)
  step _ decoded s := keepFinite variant.name (fun s => s.map Moments.global)
    (s.zipWith (coordinateStep variant p) (sharedMean (decoded.headD []).length decoded))

theorem lawful (variant : FedOptVariant) (p : FedOptParams) :
    (optimizer (ν := ν) variant p).Lawful where
  seed hhead hrows h := by
    cases h
    simp only [optimizer, List.length_map]
    rw [hhead, length_sharedMean hrows]
  step hhead hrows hs h := by
    rw [keepFinite_ok h]
    simp only [optimizer, List.length_map] at hs ⊢
    rw [List.length_zipWith, hhead, length_sharedMean hrows, hs, Nat.min_self]

end FedOpt

/-- One coordinate of a momentum optimizer. -/
structure Momentum (ν ω : Type) where
  global : ν
  velocity : ω

namespace FedAvgM
variable {ν ω : Type} [Floating ν] [Floating ω] [Precision ν ω]

def coordinateStep (beta serverLearningRate : F32) (c : Momentum ν ω) (target : ν) :
    Momentum ν ω :=
  let delta := widen target-widen c.global
  let updated := Floating.ofF32 beta*c.velocity+delta
  ⟨narrow (widen c.global+Floating.ofF32 serverLearningRate*updated),updated⟩

/-- Momentum over the average by sample counts. -/
def optimizer (beta serverLearningRate : F32) : Optimizer ν (List (Momentum ν ω)) where
  global s := s.map Momentum.global
  start w := w.map fun x => ⟨x,0⟩
  seed := averageBySamples
  step updates decoded s := do
    let target ← averageBySamples updates decoded
    keepFinite "fedavgm" (fun s => s.map Momentum.global)
      (s.zipWith (coordinateStep beta serverLearningRate) target)

theorem lawful (beta serverLearningRate : F32) :
    (optimizer (ν := ν) beta serverLearningRate).Lawful where
  seed hhead hrows h := by
    simpa [optimizer] using length_averageBySamples hhead hrows h
  step hhead hrows hs h := by
    obtain ⟨target,htarget,h⟩ := Fallible.except_bind_ok_iff.mp h
    have hlen := length_averageBySamples hhead hrows htarget
    rw [keepFinite_ok h]
    simp only [optimizer, List.length_map] at hs ⊢
    rw [List.length_zipWith, hs, hlen, Nat.min_self]

end FedAvgM

namespace QFedAvg
variable {ν ω : Type} [Floating ν] [Floating ω] [Precision ν ω]

/-- The loss a client is weighed by; one that reported none gets the neutral loss. -/
def loss (u : ClientDelta) : ω :=
  Floating.max ((u.localLoss.map Floating.ofF32).getD 1) 0

/-- The squared length of a client's step, scaled by the Lipschitz estimate. -/
def squaredStep (l : ω) (w global : List ν) : ω :=
  (w.zip global).foldl (fun sq p =>
    sq+l*(widen p.1-widen p.2)*(l*(widen p.1-widen p.2))) 0

/-- A client's part of the step's denominator. -/
def clientWeight (q l : ω) (global : List ν) (client : ClientDelta × List ν) : ω :=
  let fqMinusOne := if Floating.beq q 0 then 0 else Floating.pow (loss client.1) (q-1)
  q*fqMinusOne*squaredStep l client.2 global+l*Floating.pow (loss client.1) q

/-- Add one client's weighted step; one whose weight is not finite is left out. -/
def clientStep (q l : ω) (global : List ν) (acc : ω × List ω)
    (client : ClientDelta × List ν) : ω × List ω :=
  let h := clientWeight q l global client
  let fq := Floating.pow (loss client.1) q
  if !Floating.isFinite h then acc
  else (acc.1+h,acc.2.zipWith (fun a p => a+fq*l*(widen p.1-widen p.2)) (client.2.zip global))

/-- FedAvg while nobody reports a loss, and when every client's weight collapsed. -/
def optimizer (q lipschitz : F32) : Optimizer ν (List ν) where
  global := id
  start := id
  seed := averageBySamples
  step updates decoded global :=
    if !updates.any fun u => u.localLoss.isSome then averageBySamples updates decoded
    else
      let sums := (updates.zip decoded).foldl
        (clientStep (Floating.ofF32 q) (Floating.ofF32 lipschitz) global) (0,zeros global.length)
      if Floating.le sums.1 0 || !Floating.isFinite sums.1 then averageBySamples updates decoded
      else keepFinite "qfedavg" id
        (global.zipWith (fun w acc => narrow (widen w+acc/sums.1)) sums.2)

omit [Floating ν] in
theorem length_clientSteps (q l : ω) {global : List ν} {clients : List (ClientDelta × List ν)}
    (h : ∀ c ∈ clients, c.2.length = global.length) :
    (clients.foldl (clientStep q l global) (0,zeros global.length)).2.length =
      global.length := by
  refine List.foldlRecOn clients _ (motive := fun acc : ω × List ω =>
    acc.2.length = global.length) (length_zeros global.length) fun acc hacc c hc => ?_
  unfold clientStep
  dsimp only
  split
  · exact hacc
  · simp [hacc, h c hc]

theorem lawful (q lipschitz : F32) : (optimizer (ν := ν) q lipschitz).Lawful where
  seed hhead hrows h := length_averageBySamples hhead hrows h
  step {updates decoded s s' dim} hhead hrows hs h := by
    simp only [optimizer] at h
    split at h
    · exact length_averageBySamples hhead hrows h
    · split at h
      · exact length_averageBySamples hhead hrows h
      · have hclients : ∀ c ∈ updates.zip decoded, c.2.length = s.length := fun c hc =>
          (hrows c.2 (List.of_mem_zip hc).2).trans hs.symm
        rw [keepFinite_ok h]
        simp only [optimizer, id_eq] at hs ⊢
        rw [List.length_zipWith, length_clientSteps _ _ hclients, hs, Nat.min_self]

end QFedAvg

namespace FedNova
variable {ν ω : Type} [Floating ν] [Floating ω] [Precision ν ω]

def maxPlausibleLocalSteps : ℕ := 2^20

/-- A step count of zero is a missing one. -/
def reportedSteps (u : ClientDelta) : Option ℕ := u.localSteps.filter fun t => 0 < t

/-- The mean of the reported step counts, which stands in for those that are missing. -/
def defaultTau (updates : List ClientDelta) : ω :=
  let reported := updates.filterMap reportedSteps
  Floating.max (Floating.sum (reported.map Floating.ofNat)/Floating.ofNat reported.length) 1

/-- A client's share of the samples; equal shares when nobody has any. -/
def share (updates : List ClientDelta) (u : ClientDelta) : ω :=
  let total : ω := Floating.sum (updates.map fun u => Floating.ofNat u.numSamples)
  if Floating.lt 0 total then Floating.ofNat u.numSamples/total
  else 1/Floating.ofNat updates.length

def tau (updates : List ClientDelta) (u : ClientDelta) : ω :=
  match reportedSteps u with
  | some t => Floating.ofNat (min t maxPlausibleLocalSteps)
  | none => defaultTau updates

def effectiveTau (updates : List ClientDelta) : ω :=
  Floating.sum (updates.map fun u => share updates u*tau updates u)

/-- The normalized steps, scaled back and added up. -/
def normalizedStep (updates : List ClientDelta) (decoded : List (List ν)) (global : List ν) :
    List ω :=
  (updates.zip decoded).foldl (fun acc c =>
    let scale := effectiveTau updates*share updates c.1/tau updates c.1
    if !Floating.isFinite scale then acc
    else acc.zipWith (fun a p => a+scale*(widen p.1-widen p.2)) (c.2.zip global))
    (zeros global.length)

/-- FedAvg while nobody reports a step count, and when the effective one is no number. -/
def optimizer : Optimizer ν (List ν) where
  global := id
  start := id
  seed := averageBySamples
  step updates decoded global :=
    if updates.all fun u => (reportedSteps u).isNone then averageBySamples updates decoded
    else
      let effective : ω := effectiveTau updates
      if !Floating.isFinite effective || Floating.le effective 0 then
        averageBySamples updates decoded
      else keepFinite "fednova" id
        (global.zipWith (fun x d => narrow (widen x+d)) (normalizedStep updates decoded global))

omit [Floating ν] in
theorem length_normalizedStep {updates : List ClientDelta} {decoded : List (List ν)}
    {global : List ν} (h : ∀ w ∈ decoded, w.length = global.length) :
    (normalizedStep updates decoded global).length = global.length := by
  refine length_foldl (fun acc c hc hacc => ?_) (length_zeros global.length)
  dsimp only
  split
  · exact hacc
  · simp [hacc, h c.2 (List.of_mem_zip hc).2]

theorem lawful : (optimizer (ν := ν)).Lawful where
  seed hhead hrows h := length_averageBySamples hhead hrows h
  step {updates decoded s s' dim} hhead hrows hs h := by
    simp only [optimizer] at h
    split at h
    · exact length_averageBySamples hhead hrows h
    · split at h
      · exact length_averageBySamples hhead hrows h
      · have hclients : ∀ w ∈ decoded, w.length = s.length := fun w hw =>
          (hrows w hw).trans hs.symm
        rw [keepFinite_ok h]
        simp only [optimizer, id_eq] at hs ⊢
        rw [List.length_zipWith, length_normalizedStep hclients, hs, Nat.min_self]

end FedNova
end ConfluxFL
