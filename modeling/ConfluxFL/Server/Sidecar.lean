import ConfluxFL.Codecs
import ConfluxFL.Core.Build
import ConfluxFL.Core.ZenoRanking
import ConfluxFL.Reference.Dataset
import ConfluxFL.Server.Precondition
import ConfluxFL.Server.Restart
import ConfluxFL.Server.Startup

/-! Rounds beside the trusted-reference sidecar: the service that answers for a model, the server's
client that asks it, and what a round makes of the answers. -/
namespace ConfluxFL
open Fallible RoundM

/-- What a sidecar can do with a model, independent of the calls it answers. -/
structure TrustedModel where
  trainReference : List F32 → List F32
  score : List F32 → List F32 → F32
  modelDim : Option ℕ
  description : String
  supportsReferenceUpdate : Bool
  supportsScoring : Bool

section Linear
open Reference
variable (model : LinearLeastSquares F32)

/-- How much better the candidate is on the dataset. No number where either does not fit; clamped
otherwise, so that it does not become infinite. -/
def Reference.LinearLeastSquares.score (globalWeights candidate : List F32) : F32 :=
  if candidate.length ≠ globalWeights.length ∨ ¬model.fits globalWeights.length then F32.nan
  else (Floating.clamp (model.loss globalWeights-model.loss candidate) (F64.ofF32 ⟨0xff7fffff⟩)
    (F64.ofF32 ⟨0x7f7fffff⟩)).toF32

/-- The model the sidecar's process serves. -/
def Reference.LinearLeastSquares.trusted : TrustedModel where
  trainReference := model.trainReference
  score := model.score
  modelDim := model.dataset.head?.map fun e => e.1.length
  description := "linear least squares, "++toString model.dataset.length++" trusted examples, "++
    toString model.steps++" steps @ lr "++model.learningRate.display
  supportsReferenceUpdate := true
  supportsScoring := true

end Linear

section Service

/-- The status a call is refused with. -/
inductive Refusal where
  | invalidArgument (message : String)
  | unimplemented (message : String)
  | internal (message : String)
  deriving DecidableEq, Repr

def Status.refusal : Status → Refusal
  | .invalidArgument message => .invalidArgument message

structure ReferenceRequest where
  round : ℕ
  globalWeights : List UInt8

structure ReferenceUpdate where
  round : ℕ
  weights : List UInt8
  localSteps : Option ℕ

structure ScoreCandidate where
  clientId : String
  weights : List UInt8

structure ScoreRequest where
  round : ℕ
  globalWeights : List UInt8
  candidates : List ScoreCandidate

structure ClientScore where
  clientId : String
  score : F32

structure ScoreResponse where
  round : ℕ
  scores : List ClientScore

def requireFinite (weights : List F32) (field : String) : Except Refusal Unit :=
  match weights.findIdx? fun w => !w.isFinite with
  | some index => .error (.invalidArgument s!"{field} is non-finite at index {index}")
  | none => .ok ()

namespace TrustedModel
variable (model : TrustedModel)

/-- The global weights of a request; they have to be finite, or the model would be blamed. -/
def globalWeights (bytes : List UInt8) : Except Refusal (List F32) := do
  let global ← (TrustedReference.decode bytes "global_weights").mapError Status.refusal
  requireFinite global "global_weights"
  return global

def getReferenceUpdate (req : ReferenceRequest) : Except Refusal ReferenceUpdate :=
  if !model.supportsReferenceUpdate then
    .error (.unimplemented
      "this sidecar does not implement reference updates; it cannot serve fltrust")
  else do
    let global ← globalWeights req.globalWeights
    let reference := model.trainReference global
    if reference.length ≠ global.length then
      .error (.internal (s!"trusted model returned {reference.length} weights for a "++
        s!"{global.length}-weight model"))
    else
      match reference.findIdx? fun w => !w.isFinite with
      | some index => .error (.internal
          (s!"trusted model returned a non-finite reference at index {index}; "++
            "scoring honest clients against it would silently break the defense"))
      | none => return ⟨req.round,TrustedReference.encode reference,none⟩

/-- A score that is not a number is an absence of one, and is left out. -/
def scoreCandidates (global : List F32) : List ScoreCandidate → Except Refusal (List ClientScore)
  | [] => .ok []
  | c::cs => do
    let weights ← (TrustedReference.decode c.weights "candidate weights").mapError Status.refusal
    let rest ← scoreCandidates global cs
    let score := model.score global weights
    return if score.isNaN then rest else ⟨c.clientId,score⟩::rest

def scoreUpdates (req : ScoreRequest) : Except Refusal ScoreResponse :=
  if !model.supportsScoring then
    .error (.unimplemented "this sidecar does not implement scoring; it cannot serve zeno")
  else do
    let global ← globalWeights req.globalWeights
    let scores ← model.scoreCandidates global req.candidates
    return ⟨req.round,scores⟩

def describe : SidecarCapabilities :=
  ⟨model.supportsReferenceUpdate,model.supportsScoring,model.modelDim,model.description⟩

end TrustedModel
end Service

section Client

/-- How a call to the sidecar ends: it is answered, the connection is lost, or the server dies
waiting. -/
inductive Hop where
  | answered
  | lost (reason : String)
  | dies
  deriving DecidableEq, Repr

/-- What the wire does to the two calls of a round. -/
structure Hops where
  reference : Hop
  scores : Hop

/-- What the server is told of a call; `display` is the text of a status. -/
def Hop.reply {α β : Type} (display : Refusal → String) (answer : Except Refusal α)
    (check : α → Except String β) : Hop → Reply String β
  | .lost reason => .fail reason
  | .dies => .crash
  | .answered =>
    match answer with
    | .error refusal => .fail ("RPC failed: "++display refusal)
    | .ok response =>
      match check response with
      | .ok b => .value b
      | .error reason => .fail reason

theorem Hop.reply_value_iff {α β : Type} {display : Refusal → String} {answer : Except Refusal α}
    {check : α → Except String β} {hop : Hop} {b : β} :
    hop.reply display answer check = .value b ↔
      hop = .answered ∧ ∃ a, answer = .ok a ∧ check a = .ok b := by
  unfold reply
  cases hop with
  | lost reason => simp
  | dies => simp
  | answered =>
    cases answer with
    | error refusal => simp
    | ok a => cases hcheck : check a <;> simp [hcheck]

/-- The client refuses an answer for another round. -/
def staleAnswer (expected got : ℕ) : String :=
  s!"trusted-reference sidecar answered for round {got}, but round {expected} was asked — a "++
    "reference from the wrong round is a well-formed vector of the right length, so using it "++
    "would weaken the defense silently rather than fail"

namespace TrustedModel
variable (model : TrustedModel) (display : Refusal → String) (hop : Hop)

def referenceUpdate (round : ℕ) (globalWeights : List UInt8) : Reply String (List UInt8) :=
  hop.reply display (model.getReferenceUpdate ⟨round,globalWeights⟩) fun response =>
    if response.round ≠ round then .error (staleAnswer round response.round)
    else .ok response.weights

def askScores (round : ℕ) (globalWeights : List UInt8) (candidates : List (String × List UInt8)) :
    Reply String (List (String × F32)) :=
  hop.reply display (model.scoreUpdates ⟨round,globalWeights,candidates.map fun c => ⟨c.1,c.2⟩⟩)
    fun response =>
      if response.round ≠ round then .error (staleAnswer round response.round)
      else .ok (response.scores.map fun s => (s.clientId,s.score))

end TrustedModel
end Client

section Answers

/-- Nothing but numbers. -/
def FiniteWeights (weights : List F32) : Prop := weights.all F32.isFinite = true

theorem findIdx?_finite {weights : List F32} :
    (weights.findIdx? fun w => !w.isFinite) = none ↔ FiniteWeights weights := by
  rw [List.findIdx?_eq_none_iff, FiniteWeights, List.all_eq_true]
  simp only [Bool.not_eq_false']

theorem requireFinite_ok_iff {weights : List F32} {field : String} :
    requireFinite weights field = .ok () ↔ FiniteWeights weights := by
  rw [← findIdx?_finite, requireFinite]
  cases weights.findIdx? fun w => !w.isFinite <;> simp

theorem decode_eq_ok_iff {bytes : List UInt8} {field : String} {weights : List F32} :
    TrustedReference.decode bytes field = .ok weights ↔ 4 ∣ bytes.length ∧ words bytes = weights := by
  rw [TrustedReference.decode, Nat.dvd_iff_mod_eq_zero]
  split_ifs with h <;> simp [h]

namespace TrustedModel
variable (model : TrustedModel) (display : Refusal → String)

/-- The model makes a usable reference of these weights. -/
structure Trains (weights reference : List F32) : Prop where
  supports : model.supportsReferenceUpdate = true
  finite : FiniteWeights weights
  trained : model.trainReference weights = reference
  length : reference.length = weights.length
  referenceFinite : FiniteWeights reference

/-- The model scores updates of these weights. -/
structure Scores (weights : List F32) : Prop where
  supports : model.supportsScoring = true
  finite : FiniteWeights weights

/-- What the model thinks of one update, if it has an opinion. -/
def opinion (weights : List F32) (u : ClientDelta) : Option (String × F32) :=
  let score := model.score weights (words u.weights)
  if score.isNaN then none else some (u.clientId,score)

variable {model}

theorem globalWeights_ok_iff {weights global : List F32} :
    globalWeights (encodeWeights weights) = .ok global ↔ global = weights ∧ FiniteWeights weights := by
  unfold globalWeights
  simp only [except_bind_ok_iff, mapError_ok_iff, decode_eq_ok_iff, words_encodeWeights]
  constructor
  · rintro ⟨_,⟨-,rfl⟩,_,hfinite,h⟩
    cases h
    exact ⟨rfl,requireFinite_ok_iff.mp hfinite⟩
  · rintro ⟨rfl,hfinite⟩
    exact ⟨_,⟨dvd_length_encodeWeights _,rfl⟩,(),requireFinite_ok_iff.mpr hfinite,rfl⟩

theorem getReferenceUpdate_ok_iff {round : ℕ} {weights : List F32} {update : ReferenceUpdate} :
    model.getReferenceUpdate ⟨round,encodeWeights weights⟩ = .ok update ↔
      ∃ reference, model.Trains weights reference ∧
        update = ⟨round,encodeWeights reference,none⟩ := by
  unfold getReferenceUpdate
  cases hsupports : model.supportsReferenceUpdate with
  | false =>
    refine iff_of_false (fun h => by cases h) ?_
    rintro ⟨_,h,-⟩
    exact Bool.false_ne_true (hsupports.symm.trans h.supports)
  | true =>
    rw [if_neg (by simp), except_bind_ok_iff]
    simp only [globalWeights_ok_iff]
    constructor
    · rintro ⟨_,⟨rfl,hfinite⟩,h⟩
      split_ifs at h with hlength
      cases hidx : (model.trainReference _).findIdx? fun w => !w.isFinite with
      | some index =>
        rw [hidx] at h
        cases h
      | none =>
        rw [hidx] at h
        cases h
        exact ⟨_,⟨hsupports,hfinite,rfl,not_not.mp hlength,findIdx?_finite.mp hidx⟩,rfl⟩
    · rintro ⟨reference,h,rfl⟩
      refine ⟨weights,⟨rfl,h.finite⟩,?_⟩
      rw [h.trained, if_neg (not_not.mpr h.length), findIdx?_finite.mpr h.referenceFinite]
      rfl

/-- The server is told a reference exactly where the call is answered and the model makes one. -/
theorem referenceUpdate_value_iff {hop : Hop} {round : ℕ} {weights : List F32}
    {bytes : List UInt8} :
    model.referenceUpdate display hop round (encodeWeights weights) = .value bytes ↔
      hop = .answered ∧ ∃ reference, model.Trains weights reference ∧
        bytes = encodeWeights reference := by
  rw [referenceUpdate, Hop.reply_value_iff]
  simp only [getReferenceUpdate_ok_iff]
  refine and_congr_right fun _ => ⟨?_,?_⟩
  · rintro ⟨_,⟨reference,h,rfl⟩,hcheck⟩
    rw [if_neg (not_not.mpr rfl)] at hcheck
    exact ⟨reference,h,(Except.ok.inj hcheck).symm⟩
  · rintro ⟨reference,h,rfl⟩
    exact ⟨_,⟨reference,h,rfl⟩,if_neg (not_not.mpr rfl)⟩

theorem scoreCandidates_eq {weights : List F32} {batch : List ClientDelta}
    (h : ∀ u ∈ batch, 4 ∣ u.weights.length) :
    model.scoreCandidates weights (batch.map fun u => ⟨u.clientId,u.weights⟩) =
      .ok ((batch.filterMap (model.opinion weights)).map fun e => ⟨e.1,e.2⟩) := by
  induction batch with
  | nil => rfl
  | cons u batch ih =>
    have hdecode : TrustedReference.decode u.weights "candidate weights" = .ok (words u.weights) :=
      decode_eq_ok_iff.mpr ⟨h u List.mem_cons_self,rfl⟩
    rw [List.map_cons, scoreCandidates, hdecode, ih fun v hv => h v (List.mem_cons_of_mem u hv)]
    change Except.ok (if (model.score weights (words u.weights)).isNaN then _ else _) = _
    cases hnan : (model.score weights (words u.weights)).isNaN with
    | true =>
      have hopinion : model.opinion weights u = none := if_pos hnan
      rw [List.filterMap_cons_none hopinion]
      rfl
    | false =>
      have hopinion : model.opinion weights u =
          some (u.clientId,model.score weights (words u.weights)) :=
        if_neg (hnan ▸ Bool.false_ne_true)
      rw [List.filterMap_cons_some hopinion]
      rfl

theorem scoreUpdates_ok_iff {round : ℕ} {weights : List F32} {batch : List ClientDelta}
    (hbatch : ∀ u ∈ batch, 4 ∣ u.weights.length) {response : ScoreResponse} :
    model.scoreUpdates ⟨round,encodeWeights weights,batch.map fun u => ⟨u.clientId,u.weights⟩⟩ =
      .ok response ↔ model.Scores weights ∧ response =
        ⟨round,(batch.filterMap (model.opinion weights)).map fun e => ⟨e.1,e.2⟩⟩ := by
  unfold scoreUpdates
  cases hsupports : model.supportsScoring with
  | false =>
    refine iff_of_false (fun h => by cases h) ?_
    rintro ⟨h,-⟩
    exact Bool.false_ne_true (hsupports.symm.trans h.supports)
  | true =>
    rw [if_neg (by simp), except_bind_ok_iff]
    simp only [globalWeights_ok_iff, except_bind_ok_iff]
    constructor
    · rintro ⟨_,⟨rfl,hfinite⟩,served,hserved,h⟩
      rw [scoreCandidates_eq hbatch] at hserved
      cases hserved
      cases h
      exact ⟨⟨hsupports,hfinite⟩,rfl⟩
    · rintro ⟨h,rfl⟩
      exact ⟨weights,⟨rfl,h.finite⟩,_,scoreCandidates_eq hbatch,rfl⟩

/-- The server is told scores exactly where the call is answered and the model scores: those of the
updates it has an opinion on. -/
theorem askScores_value_iff {hop : Hop} {round : ℕ} {weights : List F32} {batch : List ClientDelta}
    (hbatch : ∀ u ∈ batch, 4 ∣ u.weights.length) {scores : List (String × F32)} :
    model.askScores display hop round (encodeWeights weights)
      (batch.map fun u => (u.clientId,u.weights)) = .value scores ↔
      hop = .answered ∧ model.Scores weights ∧ scores = batch.filterMap (model.opinion weights) := by
  have hpairs : ((batch.filterMap (model.opinion weights)).map
      fun e => (⟨e.1,e.2⟩ : ClientScore)).map (fun s => (s.clientId,s.score)) =
        batch.filterMap (model.opinion weights) := by
    rw [List.map_map]
    exact List.map_id _
  rw [askScores, Hop.reply_value_iff, List.map_map]
  refine and_congr_right fun _ => ⟨?_,?_⟩
  · rintro ⟨response,hresponse,hcheck⟩
    obtain ⟨h,rfl⟩ := (scoreUpdates_ok_iff hbatch).mp hresponse
    rw [if_neg (not_not.mpr rfl), hpairs] at hcheck
    exact ⟨h,(Except.ok.inj hcheck).symm⟩
  · rintro ⟨h,rfl⟩
    refine ⟨_,(scoreUpdates_ok_iff hbatch).mpr ⟨h,rfl⟩,?_⟩
    rw [if_neg (not_not.mpr rfl), hpairs]

end TrustedModel
end Answers

section Round
variable {κ : Type} {d : Deployment κ} {env : RoundEnv} {s t : Server κ}

/-- The weights an attempt asks about: those the store serves. -/
def askedWeights (s : Server κ) : List F32 := s.store.loadLatestWeights.toOption.getD []

/-- The batch an attempt asks about: the one it aggregates. -/
def askedBatch (d : Deployment κ) (env : RoundEnv) (s : Server κ) : List ClientDelta :=
  (aggregationBatch d.config d.budgetExhausted s.accountant (env.flushed s.round)).toOption.getD []

/-- An attempt whose calls to the sidecar are answered by the service over a model. -/
def RoundEnv.beside (env : RoundEnv) (d : Deployment κ) (s : Server κ) (display : Refusal → String)
    (model : TrustedModel) (hops : Hops) : RoundEnv :=
  { env with
    reference := model.referenceUpdate display hops.reference s.round (encodeWeights (askedWeights s))
    scores := model.askScores display hops.scores s.round (encodeWeights (askedWeights s))
      ((askedBatch d env s).map fun u => (u.clientId,u.weights)) }

/-- What the aggregator is given is what the environment answered. -/
def SignalsFrom (d : Deployment κ) (env : RoundEnv) (weights : List F32) (injected : Injected) :
    Prop :=
  (d.aggregator.requiresTrustedReference = true → ∃ bytes reference, env.reference = .value bytes ∧
    decodeWeights bytes = .ok reference ∧ injected.reference = some ⟨weights,reference⟩) ∧
  (d.aggregator.requiresCandidateScores = true → ∃ scores, env.scores = .value scores ∧
    injected.scores = some ⟨weights,scores⟩)

theorem fetchAndInjectTrustedReference_from {o : Opened}
    (h : fetchAndInjectTrustedReference d env o s = .ok () t) : ∃ bytes reference,
      env.reference = .value bytes ∧ decodeWeights bytes = .ok reference ∧
        t = { s with injected := { s.injected with reference := some ⟨o.weights,reference⟩ } } := by
  unfold fetchAndInjectTrustedReference at h
  split_ifs at h
  · cases h
  · obtain ⟨bytes,t₁,hask,hdecode⟩ := bind_ok_iff.mp h
    obtain ⟨hbytes,rfl⟩ := ask_ok_iff.mp hask
    cases hw : decodeWeights bytes with
    | error e =>
      rw [hw] at hdecode
      cases hdecode
    | ok reference =>
      rw [hw] at hdecode
      cases hdecode
      exact ⟨bytes,reference,hbytes,hw,rfl⟩

theorem fetchAndInjectCandidateScores_from {o : Opened}
    (h : fetchAndInjectCandidateScores d env o s = .ok () t) : ∃ scores,
      env.scores = .value scores ∧
        t = { s with injected := { s.injected with scores := some ⟨o.weights,scores⟩ } } := by
  unfold fetchAndInjectCandidateScores at h
  split_ifs at h
  · cases h
  · obtain ⟨scores,t₁,hask,hinject⟩ := bind_ok_iff.mp h
    obtain ⟨hscores,rfl⟩ := ask_ok_iff.mp hask
    cases hinject
    exact ⟨scores,hscores,rfl⟩

theorem fetchSignals_from {o : Opened} (h : fetchSignals d env o s = .ok () t) :
    SignalsFrom d env o.weights t.injected := by
  obtain ⟨_,t₁,hreference,h⟩ := bind_ok_iff.mp h
  constructor
  · intro hr
    rw [if_pos hr] at hreference
    obtain ⟨bytes,reference,hbytes,hdecode,rfl⟩ := fetchAndInjectTrustedReference_from hreference
    refine ⟨bytes,reference,hbytes,hdecode,?_⟩
    split_ifs at h
    · obtain ⟨scores,-,rfl⟩ := fetchAndInjectCandidateScores_from h
      rfl
    · cases h
      rfl
  · intro hr
    rw [if_pos hr] at h
    obtain ⟨scores,hscores,rfl⟩ := fetchAndInjectCandidateScores_from h
    exact ⟨scores,hscores,rfl⟩

theorem prepareBatch_from {p : Prepared} (h : prepareBatch d env s = .ok p t) :
    SignalsFrom d env p.opened.weights t.injected := by
  obtain ⟨o,t₁,hopen,h⟩ := bind_ok_iff.mp h
  obtain ⟨flush,t₂,hflush,h⟩ := bind_ok_iff.mp h
  obtain ⟨_,t₃,_,h⟩ := bind_ok_iff.mp h
  obtain ⟨s₁,t₄,hget,h⟩ := bind_ok_iff.mp h
  cases hb : aggregationBatch d.config d.budgetExhausted s₁.accountant flush.deltas with
  | error e =>
    rw [hb] at h
    cases h
  | ok batch =>
    rw [hb] at h
    obtain ⟨_,t₅,hsignals,h⟩ := bind_ok_iff.mp h
    cases h
    exact fetchSignals_from hsignals

/-- Whole words only: the weights of a batch are encoded where it is made. -/
theorem dvd_length_of_aggregationBatch {flushed : List Submission} {batch : List ClientDelta}
    (h : aggregationBatch d.config d.budgetExhausted s.accountant flushed = .ok batch) :
    ∀ u ∈ batch, 4 ∣ u.weights.length := by
  obtain ⟨checked,_,h⟩ := except_bind_ok_iff.mp h
  cases h
  intro u hu
  obtain ⟨x,-,hx⟩ := List.mem_filterMap.mp hu
  obtain ⟨weights,-,rfl⟩ := Option.map_eq_some_iff.mp hx
  exact dvd_length_encodeWeights weights

variable {display : Refusal → String} {model : TrustedModel} {hops : Hops}

/-- Beside a sidecar a batch is prepared only with the model's own answers about it. -/
theorem prepareBatch_beside {p : Prepared}
    (h : prepareBatch d (env.beside d s display model hops) s = .ok p t) :
    s.store.loadLatestWeights = .ok p.opened.weights ∧
    (d.aggregator.requiresTrustedReference = true → ∃ reference,
      model.Trains p.opened.weights reference ∧
        t.injected.reference = some ⟨p.opened.weights,reference⟩) ∧
    (d.aggregator.requiresCandidateScores = true → model.Scores p.opened.weights ∧
      t.injected.scores =
        some ⟨p.opened.weights,p.batch.filterMap (model.opinion p.opened.weights)⟩) := by
  have hprepared := prepareBatch_ok h
  obtain ⟨hreference,hscores⟩ := prepareBatch_from h
  have hweights : askedWeights s = p.opened.weights := by
    rw [askedWeights, hprepared.loaded]
    rfl
  have hflushed : (env.beside d s display model hops).flushed s.round = env.flushed s.round := rfl
  have hbatch := hprepared.batch
  rw [hflushed] at hbatch
  have hasked : askedBatch d env s = p.batch := by
    rw [askedBatch, hbatch]
    rfl
  refine ⟨hprepared.loaded,fun hr => ?_,fun hr => ?_⟩
  · obtain ⟨bytes,reference,hbytes,hdecode,hinjected⟩ := hreference hr
    obtain ⟨-,reference',htrains,rfl⟩ := (model.referenceUpdate_value_iff display).mp hbytes
    rw [decodeWeights_encodeWeights] at hdecode
    cases hdecode
    rw [hweights] at htrains
    exact ⟨_,htrains,hinjected⟩
  · obtain ⟨scores,hvalue,hinjected⟩ := hscores hr
    have hdvd : ∀ u ∈ askedBatch d env s, 4 ∣ u.weights.length := by
      rw [hasked]
      exact dvd_length_of_aggregationBatch hbatch
    obtain ⟨-,hmodel,rfl⟩ := (model.askScores_value_iff display hdvd).mp hvalue
    rw [hweights, hasked] at hinjected
    rw [hweights] at hmodel
    exact ⟨hmodel,hinjected⟩

end Round

section Scoring
open Trusted
variable {scores : List (String × F32)} {updates : List ClientDelta}

theorem mem_of_lastScore {clientId : String} {score : F32}
    (h : lastScore scores clientId = some score) : (clientId,score) ∈ scores := by
  obtain ⟨e,he,rfl⟩ := Option.map_eq_some_iff.mp h
  have hid := List.find?_some he
  have hmem := List.mem_reverse.mp (List.mem_of_find?_eq_some he)
  rwa [← of_decide_eq_true hid]

/-- A batch is scored only where each of its clients is scored, once. -/
theorem nodup_of_takeScores {out : List F32} (h : takeScores scores updates = .ok out) :
    (updates.map ClientDelta.clientId).Nodup ∧
      ∀ u ∈ updates, ∃ score, (u.clientId,score) ∈ scores := by
  induction updates generalizing scores out with
  | nil => exact ⟨List.nodup_nil,fun u hu => (List.not_mem_nil hu).elim⟩
  | cons u updates ih =>
    rw [takeScores_cons] at h
    cases hu : lastScore scores u.clientId with
    | none =>
      rw [hu] at h
      cases h
    | some score =>
      rw [hu] at h
      obtain ⟨rest,hrest,-⟩ := except_bind_ok_iff.mp h
      obtain ⟨hnodup,hscored⟩ := ih hrest
      refine ⟨List.nodup_cons.mpr ⟨fun hmem => ?_,hnodup⟩,fun v hv => ?_⟩
      · -- the first of a client's updates uses its scores up
        obtain ⟨v,hv,hid⟩ := List.mem_map.mp hmem
        obtain ⟨score',hscore'⟩ := hscored v hv
        have hother := (List.mem_filter.mp hscore').2
        rw [decide_eq_true_eq] at hother
        exact hother hid
      · rcases List.mem_cons.mp hv with rfl | hv
        · exact ⟨score,mem_of_lastScore hu⟩
        · obtain ⟨score',hscore'⟩ := hscored v hv
          exact ⟨score',(List.mem_filter.mp hscore').1⟩

variable {model : TrustedModel} {weights : List F32}

theorem mem_opinions {batch : List ClientDelta} {clientId : String} {score : F32}
    (h : (clientId,score) ∈ batch.filterMap (model.opinion weights)) : ∃ u ∈ batch,
      u.clientId = clientId ∧ score = model.score weights (words u.weights) ∧
        (model.score weights (words u.weights)).isNaN = false := by
  obtain ⟨u,hu,h⟩ := List.mem_filterMap.mp h
  unfold TrustedModel.opinion at h
  dsimp only at h
  split_ifs at h with hnan
  cases h
  exact ⟨u,hu,rfl,rfl,Bool.eq_false_iff.mpr hnan⟩

/-- With the model's own scores a batch is ranked exactly where no client comes twice and the model
has an opinion on every update. -/
theorem takeScores_opinions_iff {batch : List ClientDelta} {out : List F32} :
    takeScores (batch.filterMap (model.opinion weights)) batch = .ok out ↔
      (batch.map ClientDelta.clientId).Nodup ∧
      (∀ u ∈ batch, (model.score weights (words u.weights)).isNaN = false) ∧
      out = batch.map fun u => model.score weights (words u.weights) := by
  have hown (hnodup : (batch.map ClientDelta.clientId).Nodup) {u : ClientDelta} {score : F32}
      (hu : u ∈ batch) (h : (u.clientId,score) ∈ batch.filterMap (model.opinion weights)) :
      score = model.score weights (words u.weights) ∧
        (model.score weights (words u.weights)).isNaN = false := by
    obtain ⟨v,hv,hid,hscore,hnan⟩ := mem_opinions h
    obtain rfl := List.inj_on_of_nodup_map hnodup hv hu hid
    exact ⟨hscore,hnan⟩
  have hall (hnodup : (batch.map ClientDelta.clientId).Nodup)
      (hnan : ∀ u ∈ batch, (model.score weights (words u.weights)).isNaN = false) :
      ∀ u ∈ batch, lastScore (batch.filterMap (model.opinion weights)) u.clientId =
        some (model.score weights (words u.weights)) := by
    intro u hu
    cases hlast : lastScore (batch.filterMap (model.opinion weights)) u.clientId with
    | none =>
      refine absurd rfl (lastScore_eq_none_iff.mp hlast
        (u.clientId,model.score weights (words u.weights)) (List.mem_filterMap.mpr ⟨u,hu,?_⟩))
      exact if_neg (Bool.eq_false_iff.mp (hnan u hu))
    | some score => rw [(hown hnodup hu (mem_of_lastScore hlast)).1]
  constructor
  · intro h
    obtain ⟨hnodup,hscored⟩ := nodup_of_takeScores h
    have hnan : ∀ u ∈ batch, (model.score weights (words u.weights)).isNaN = false := by
      intro u hu
      obtain ⟨score,hscore⟩ := hscored u hu
      exact (hown hnodup hu hscore).2
    rw [takeScores_ok hnodup (hall hnodup hnan)] at h
    exact ⟨hnodup,hnan,(Except.ok.inj h).symm⟩
  · rintro ⟨hnodup,hnan,rfl⟩
    exact takeScores_ok hnodup (hall hnodup hnan)

end Scoring

section Saved
open Trusted

/-- The updates of a batch as the aggregator decodes them. -/
def batchRows (batch : List ClientDelta) : List (List F32) := batch.map fun u => words u.weights

/-- The checkpoint is FLTrust's step from the weights, along what the model itself makes of them. -/
def FollowsTraining (model : TrustedModel) (weights : List F32) (entry : SavedCheckpoint) : Prop :=
  ∃ reference, model.Trains weights reference ∧
    entry.weights = trustedModel reference weights (batchRows entry.batch)

/-- The checkpoint is the mean of the updates that the model itself ranks best against the weights:
one of every client, and each with an opinion on it. -/
def KeepsBestScored (byzantineFraction rho : F32) (model : TrustedModel) (weights : List F32)
    (entry : SavedCheckpoint) : Prop :=
  model.Scores weights ∧ (entry.batch.map ClientDelta.clientId).Nodup ∧
    (∀ w ∈ batchRows entry.batch, (model.score weights w).isNaN = false) ∧
    entry.weights = zenoModel byzantineFraction rho weights
      ((batchRows entry.batch).map (model.score weights)) (batchRows entry.batch)

/-- What the two methods that listen to the sidecar save. -/
structure Heeds (d : Deployment Unit) (model : TrustedModel) (weights : List F32)
    (entry : SavedCheckpoint) : Prop where
  flTrust : d.aggregator = flTrust → FollowsTraining model weights entry
  zeno (byzantineFraction rho : F32) : d.aggregator = zeno byzantineFraction rho →
    KeepsBestScored byzantineFraction rho model weights entry

theorem stored_f32 (weights : List F32) : (stored weights : List F32) = weights := List.map_id _

theorem flTrust_rows {injected : Injected} {batch : List ClientDelta} {weights reference out : List F32}
    (hinjected : injected.reference = some ⟨weights,reference⟩)
    (h : Trusted.flTrust injected batch = .ok out) :
    out = trustedModel reference weights (batchRows batch) := by
  obtain ⟨decoded,hd,-,h⟩ := onBatch_ok h
  rw [hinjected] at h
  dsimp only at h
  split_ifs at h
  cases h
  rw [stored_f32, stored_f32, embed_f32, (decodeAndValidate_ok hd).1]
  rfl

theorem zeno_rows {byzantineFraction rho : F32} {injected : Injected} {batch : List ClientDelta}
    {weights out : List F32} {model : TrustedModel}
    (hinjected : injected.scores = some ⟨weights,batch.filterMap (model.opinion weights)⟩)
    (h : (Trusted.zeno byzantineFraction rho injected batch).1 = .ok out) :
    (batch.map ClientDelta.clientId).Nodup ∧
      (∀ w ∈ batchRows batch, (model.score weights w).isNaN = false) ∧
      out = zenoModel byzantineFraction rho weights ((batchRows batch).map (model.score weights))
        (batchRows batch) := by
  obtain ⟨decoded,hd,-,h⟩ := onBatch_fst_ok h
  rw [hinjected] at h
  dsimp only at h
  split_ifs at h
  cases htake : takeScores (batch.filterMap (model.opinion weights)) batch with
  | error e =>
    rw [htake] at h
    cases h
  | ok scores =>
    rw [htake] at h
    cases h
    obtain ⟨hnodup,hnan,rfl⟩ := takeScores_opinions_iff.mp htake
    refine ⟨hnodup,fun w hw => ?_,?_⟩
    · obtain ⟨u,hu,rfl⟩ := List.mem_map.mp hw
      exact hnan u hu
    · rw [stored_f32, embed_f32, (decodeAndValidate_ok hd).1, batchRows, List.map_map]
      rfl

variable (d : Deployment Unit) (env : RoundEnv) (s : Server Unit) (display : Refusal → String)
  (model : TrustedModel) (hops : Hops)

/-- What an attempt beside a sidecar puts on record. -/
theorem history_beside :
    (stateOf (runRound d (env.beside d s display model hops) s)).history = s.history ∨
      ∃ weights entry, s.store.loadLatestWeights = .ok weights ∧
        (stateOf (runRound d (env.beside d s display model hops) s)).history =
          s.history++[entry] ∧ Heeds d model weights entry := by
  rcases runRound_aggregator d (env.beside d s display model hops) s with core | ⟨p,s₁,hcall⟩
  · exact .inl (congrArg Core.history core)
  · obtain ⟨hloaded,hreference,hscores⟩ := prepareBatch_beside hcall.ready
    rcases hcall.durable with hkept | ⟨weights,hanswer,-,hsaved⟩
    · exact .inl hkept.2
    · refine .inr ⟨p.opened.weights,⟨s.round,weights,p.batch⟩,hloaded,hsaved,?_,?_⟩
      · intro hmethod
        rw [hmethod] at hanswer hreference
        obtain ⟨reference,htrains,hinjected⟩ := hreference rfl
        exact ⟨reference,htrains,flTrust_rows hinjected hanswer⟩
      · intro f rho hmethod
        rw [hmethod] at hanswer hscores
        obtain ⟨hmodel,hinjected⟩ := hscores rfl
        obtain ⟨hnodup,hnan,hweights⟩ := zeno_rows hinjected hanswer
        exact ⟨hmodel,hnodup,hnan,hweights⟩

end Saved

section Startup
variable {τ : Type} {m : Machine τ} {model : Reference.LinearLeastSquares F32}

/-- A server comes up beside the linear model exactly where it is told its address and every
example has as many features as the experiment has weights. -/
theorem attachSidecar_linear_iff {aggregator : String} {dim : ℕ}
    (hneeds : aggregator = "fltrust" ∨ aggregator = "zeno")
    (hrectangular : Reference.Rectangular model.dataset)
    (hmodel : ∀ addr, m.sidecar addr = .ok (.ok model.trusted.describe)) :
    m.attachSidecar aggregator (decide (aggregator = "fltrust"),decide (aggregator = "zeno")) dim =
      .ok () ↔ (∃ addr, m.trustedReferenceAddr = some addr) ∧ model.fits dim = true := by
  obtain ⟨width,hne,hwidth⟩ := hrectangular
  obtain ⟨first,rest,hdataset⟩ := List.exists_cons_of_ne_nil hne
  have hdescribe (addr : String) : m.describe addr = .ok model.trusted.describe := by
    unfold Machine.describe
    rw [hmodel]
    rfl
  have hdim : model.trusted.describe.modelDim = some first.1.length := by
    change model.dataset.head?.map (fun e => e.1.length) = _
    rw [hdataset]
    rfl
  have hfits : model.fits dim = true ↔ first.1.length = dim := by
    have hmem : first ∈ model.dataset := hdataset ▸ List.mem_cons_self
    unfold Reference.LinearLeastSquares.fits
    rw [List.all_eq_true]
    constructor
    · exact fun h => beq_iff_eq.mp (h first hmem)
    · rintro rfl e he
      rw [hwidth e he, hwidth first hmem]
      exact beq_self_eq_true width
  rw [Machine.attachSidecar_ok_iff, hfits]
  unfold Machine.SidecarServes Machine.DimensionAgrees Machine.Answers
  constructor
  · rintro ⟨hserves,hagrees⟩
    obtain ⟨_,⟨-,addr,haddr,_⟩,_⟩ := hserves hneeds
    exact ⟨⟨addr,haddr⟩,hagrees _ ⟨hneeds,addr,haddr,hdescribe addr⟩ _ hdim⟩
  · rintro ⟨⟨addr,haddr⟩,rfl⟩
    refine ⟨fun _ => ⟨_,⟨hneeds,addr,haddr,hdescribe addr⟩,fun _ => rfl,fun _ => rfl⟩,?_⟩
    rintro capabilities ⟨-,addr',-,h⟩ stated hstated
    obtain rfl := Except.ok.inj ((hdescribe addr').symm.trans h)
    exact Option.some.inj (hstated.symm.trans hdim)

end Startup

section Blame

/-- The attempt stopped because of its sidecar. -/
def Stop.blamesSidecar : Stop → Bool
  | .err (.trustedReferenceUnavailable ..) => true
  | _ => false

variable {κ : Type} {d : Deployment κ} {env : RoundEnv} {s t : Server κ}

/-- The error is about the sidecar. -/
abbrev AvoidsBlame {α : Type} (x : RoundM κ α) : Prop :=
  Avoids (fun e : Stop => e.blamesSidecar = true) x

theorem avoidsBlame_ask {ε α : Type} (reply : Reply ε α) {wrap : ε → ServerError}
    (h : ∀ e, (Stop.err (wrap e)).blamesSidecar = false) :
    AvoidsBlame (ask reply wrap : RoundM κ α) := by
  cases reply with
  | value a => exact avoids_pure a
  | fail e => exact avoids_throw (by simp [h])
  | crash => exact avoids_throw (by simp [Stop.blamesSidecar])

theorem avoidsBlame_perform (outcome : WriteOutcome) (effect : Server κ → Server κ) :
    AvoidsBlame (perform outcome effect) := by
  refine (avoids_modify _).bind fun _ => ?_
  cases outcome with
  | ok => exact avoids_pure ()
  | fail applied e => exact avoids_throw (by simp [Stop.blamesSidecar])
  | crash applied => exact avoids_throw (by simp [Stop.blamesSidecar])

theorem avoidsBlame_checkBatchRequirement (round n : ℕ) :
    AvoidsBlame (checkBatchRequirement d round n) := by
  intro s e t h
  rcases checkBatchRequirement_cases d round n s with ⟨-,hok⟩ | ⟨-,e',hviolation,herror⟩
  · rw [hok] at h
    cases h
  · rw [herror] at h
    cases h
    -- an error about the batch size is none about the sidecar
    intro hblames
    unfold Stop.isViolation at hviolation
    unfold Stop.blamesSidecar at hblames
    split at hviolation
    · cases hblames
    · cases hviolation

theorem avoidsBlame_openRound : AvoidsBlame (openRound d env) := by
  refine avoids_get.bind fun s => Avoids.bind ?_ fun _ => Avoids.bind ?_ fun weights =>
    (avoidsBlame_ask env.active fun _ => rfl).bind fun active =>
      (avoidsBlame_checkBatchRequirement _ _).bind fun _ => (avoids_modify _).bind fun _ =>
        avoids_pure _
  · intro s e t h
    rw [checkPrivacyBudget_apply] at h
    split_ifs at h
    cases h
    exact Bool.false_ne_true
  · refine (avoidsBlame_ask env.load fun _ => rfl).bind fun _ => avoids_get.bind fun s => ?_
    split
    · exact avoids_pure _
    · exact avoids_throw Bool.false_ne_true

theorem avoidsBlame_flushRound (o : Opened) : AvoidsBlame (flushRound env o : RoundM κ _) := by
  unfold flushRound
  dsimp only
  split_ifs
  · exact avoids_throw Bool.false_ne_true
  · exact (avoids_modify _).bind fun _ => avoids_pure _

theorem avoidsBlame_appendClients (outcome : ℕ → WriteOutcome) (cost : RoundCost) (i : ℕ)
    (admitted : List String) :
    AvoidsBlame (appendClients outcome cost i admitted : RoundM κ Unit) := by
  induction admitted generalizing i with
  | nil => exact avoids_pure ()
  | cons c admitted ih => exact (avoidsBlame_perform _ _).bind fun _ => ih (i+1)

theorem avoidsBlame_commitRound (p : Prepared) : AvoidsBlame (commitRound d env p) := by
  refine Avoids.bind ?_ fun weights => (avoidsBlame_perform _ _).bind fun _ =>
    Avoids.bind ?_ fun _ => (avoids_modify _).bind fun _ => avoids_pure _
  · refine avoids_get.bind fun s => ?_
    split
    · exact avoids_throw Bool.false_ne_true
    · refine (avoids_modify _).bind fun _ => ?_
      split
      · exact avoids_pure _
      · exact avoids_throw Bool.false_ne_true
  · refine (avoids_modify _).bind fun _ => ?_
    unfold appendRows
    split
    · exact (avoidsBlame_perform _ _).bind fun _ => avoidsBlame_appendClients _ _ _ _
    · exact avoids_pure ()

/-- No filter blames the sidecar. -/
theorem aggregationBatch_blames {flushed : List Submission} {e : ServerError}
    (h : aggregationBatch d.config d.budgetExhausted s.accountant flushed = .error e) :
    (Stop.err e).blamesSidecar = false := by
  rcases except_bind_error_iff.mp h with h | ⟨checked,_,h⟩
  · rcases except_bind_error_iff.mp h with h | ⟨decoded,_,h⟩
    · rcases except_bind_error_iff.mp h with h | ⟨ds,_,h⟩
      · obtain ⟨u,_,hu⟩ := mapM_error h
        unfold decodeDelta at hu
        split at hu
        · cases hu
        · cases hu
          rfl
      · cases h
    · unfold filterByPerClientBudget at h
      split_ifs at h
      obtain ⟨c,rfl⟩ := excludeExhausted_error h
      rfl
  · cases h

theorem fetchSignals_blames {o : Opened} {e : Stop} (hsidecar : d.sidecar = true)
    (h : fetchSignals d env o s = .error e t) :
    (d.aggregator.requiresTrustedReference = true ∧ ∀ bytes reference,
      env.reference = .value bytes → decodeWeights bytes ≠ .ok reference) ∨
    (d.aggregator.requiresCandidateScores = true ∧ ∀ scores, env.scores ≠ .value scores) := by
  rcases bind_error_iff.mp h with h | ⟨_,t₁,_,h⟩
  · split_ifs at h with hr
    · refine .inl ⟨hr,fun bytes reference hbytes hdecode => ?_⟩
      unfold fetchAndInjectTrustedReference at h
      rw [hsidecar, if_neg (by simp), hbytes, bind_apply] at h
      simp only [ask, pure_apply, hdecode, modify_apply] at h
      cases h
    · cases h
  · split_ifs at h with hr
    · refine .inr ⟨hr,fun scores hscores => ?_⟩
      unfold fetchAndInjectCandidateScores at h
      rw [hsidecar, if_neg (by simp), hscores, bind_apply] at h
      cases h
    · cases h

/-- An attempt that blames its sidecar had come as far as asking it. -/
theorem prepareBatch_blames {e : Stop} (h : prepareBatch d env s = .error e t)
    (hblames : e.blamesSidecar = true) : ∃ o batch s₁, s.store.loadLatestWeights = .ok o.weights ∧
      aggregationBatch d.config d.budgetExhausted s.accountant (env.flushed s.round) = .ok batch ∧
      fetchSignals d env o s₁ = .error e t := by
  rcases bind_error_iff.mp h with h | ⟨o,t₁,hopen,h⟩
  · exact absurd hblames (avoidsBlame_openRound _ _ _ h)
  rcases bind_error_iff.mp h with h | ⟨flush,t₂,hflush,h⟩
  · exact absurd hblames (avoidsBlame_flushRound o _ _ _ h)
  obtain ⟨hround,-,hloaded,-⟩ := openRound_ok hopen
  have hcore := (keeps_flushRound o).ok hflush |>.trans (keeps_openRound.ok hopen)
  rcases bind_error_iff.mp h with h | ⟨_,t₃,hrequirement,h⟩
  · exact absurd hblames (avoidsBlame_checkBatchRequirement _ _ _ _ _ h)
  have haccountant : t₃.accountant = s.accountant :=
    ((keeps_checkBatchRequirement (f := Server.accountant) (fun _ _ => rfl) _ _).ok
      hrequirement).trans (congrArg Core.accountant hcore)
  rw [flushRound_ok hflush, hround] at h
  rcases bind_error_iff.mp h with h | ⟨s₁,t₄,hget,h⟩
  · cases h
  cases hget
  rw [haccountant] at h
  cases hb : aggregationBatch d.config d.budgetExhausted s.accountant (env.flushed s.round) with
  | error e =>
    rw [hb] at h
    cases h
    exact absurd hblames (Bool.eq_false_iff.mp (aggregationBatch_blames hb))
  | ok batch =>
    rw [hb] at h
    rcases bind_error_iff.mp h with h | ⟨_,t₅,_,h⟩
    · exact ⟨o,batch,_,hloaded,rfl,h⟩
    · cases h

/-- The sidecar has given the attempt cause: a call that the aggregator needs was not answered, or
the model does not do what the call asks for with the weights the store serves. -/
def Cause (d : Deployment κ) (model : TrustedModel) (hops : Hops) (s : Server κ) : Prop :=
  ∃ weights, s.store.loadLatestWeights = .ok weights ∧
    ((d.aggregator.requiresTrustedReference = true ∧
      ¬(hops.reference = .answered ∧ ∃ reference, model.Trains weights reference)) ∨
    (d.aggregator.requiresCandidateScores = true ∧
      ¬(hops.scores = .answered ∧ model.Scores weights)))

/-- No attempt beside a sidecar blames it without cause. -/
theorem cause_of_blames {display : Refusal → String} {model : TrustedModel} {hops : Hops} {e : Stop}
    (hsidecar : d.sidecar = true)
    (h : runRound d (env.beside d s display model hops) s = .error e t)
    (hblames : e.blamesSidecar = true) : Cause d model hops s := by
  rcases bind_error_iff.mp h with h | ⟨p,t₁,_,h⟩
  · obtain ⟨o,batch,s₁,hloaded,hbatch,h⟩ := prepareBatch_blames h hblames
    have hweights : askedWeights s = o.weights := by
      rw [askedWeights, hloaded]
      rfl
    have hasked : askedBatch d env s = batch := by
      have hflushed : (env.beside d s display model hops).flushed s.round = env.flushed s.round := rfl
      rw [askedBatch, ← hflushed, hbatch]
      rfl
    refine ⟨o.weights,hloaded,?_⟩
    rcases fetchSignals_blames hsidecar h with ⟨hr,hnone⟩ | ⟨hr,hnone⟩
    · refine .inl ⟨hr,?_⟩
      rintro ⟨hanswered,reference,htrains⟩
      refine hnone (encodeWeights reference) reference ?_ (decodeWeights_encodeWeights reference)
      refine (model.referenceUpdate_value_iff display).mpr ⟨hanswered,reference,?_,rfl⟩
      rwa [hweights]
    · refine .inr ⟨hr,?_⟩
      rintro ⟨hanswered,hmodel⟩
      have hdvd : ∀ u ∈ askedBatch d env s, 4 ∣ u.weights.length := by
        rw [hasked]
        exact dvd_length_of_aggregationBatch hbatch
      refine hnone _ ((model.askScores_value_iff display hdvd).mpr ⟨hanswered,?_,rfl⟩)
      rwa [hweights]
  · exact absurd hblames (avoidsBlame_commitRound p _ _ _ h)

end Blame

section Runs
variable (display : Refusal → String)

/-- A process starts, or attempts a round beside a model. -/
inductive SidecarEvent where
  | connect (d : Deployment Unit) (initialWeights : List F32)
  | round (env : RoundEnv) (model : TrustedModel) (hops : Hops)

def World.stepBeside (w : World Unit) : SidecarEvent → World Unit
  | .connect d initialWeights => w.step (.connect d initialWeights)
  | .round env model hops =>
    match w.running with
    | none => w
    | some d => w.step (.round (env.beside d w.server display model hops))

/-- An attempt of the running process saved the checkpoint, heeding its model at the weights that
the store then served. -/
def SavedBeside (w : World Unit) (e : SidecarEvent) (entry : SavedCheckpoint) : Prop :=
  ∃ env model hops d weights, e = .round env model hops ∧ w.running = some d ∧
    w.server.store.loadLatestWeights = .ok weights ∧ Heeds d model weights entry

/-- Where the running process has a sidecar and its attempt blames it, there is cause. -/
def BlamesWithCause (w : World Unit) (e : SidecarEvent) : Prop :=
  ∀ env model hops d, e = .round env model hops → w.running = some d → d.sidecar = true →
    ∀ stop t, runRound d (env.beside d w.server display model hops) w.server = .error stop t →
      stop.blamesSidecar = true → Cause d model hops w.server

theorem mem_history_stepBeside (w : World Unit) (e : SidecarEvent) (entry : SavedCheckpoint)
    (h : entry ∈ (w.stepBeside display e).server.history) :
    entry ∈ w.server.history ∨ SavedBeside w e entry := by
  cases e with
  | connect d initialWeights => exact .inl h
  | round env model hops =>
    rw [World.stepBeside] at h
    cases hr : w.running with
    | none =>
      rw [hr] at h
      exact .inl h
    | some d =>
      rw [hr] at h
      dsimp only at h
      rw [World.step_round hr] at h
      rcases history_beside d env w.server display model hops with
        hkept | ⟨weights,added,hloaded,hsaved,hheeds⟩
      · rw [hkept] at h
        exact .inl h
      · rw [hsaved] at h
        rcases List.mem_append.mp h with h | h
        · exact .inl h
        · obtain rfl := List.mem_singleton.mp h
          exact .inr ⟨env,model,hops,d,weights,rfl,hr,hloaded,hheeds⟩

/-- Over any run of processes beside any sidecars, every checkpoint on record was there before, or
was saved by an attempt that heeds the model it asked; and no attempt blames a sidecar without
cause. -/
theorem beside_run (w : World Unit) (es : List SidecarEvent) :
    (∀ entry ∈ (Run.after (World.stepBeside display) w es).server.history,
      entry ∈ w.server.history ∨ ∃ pre e post, es = pre++e::post ∧
        SavedBeside (Run.after (World.stepBeside display) w pre) e entry) ∧
    Run.Always (World.stepBeside display) (BlamesWithCause display) w es := by
  constructor
  · intro entry h
    exact Run.mem_after (fun w : World Unit => w.server.history) (mem_history_stepBeside display) h
  · refine Run.always_iff_forall_split.mpr fun pre e post _ => ?_
    rintro env model hops d rfl _ hsidecar stop t h hblames
    exact cause_of_blames hsidecar h hblames

end Runs

end ConfluxFL
