import ConfluxFL.Core.Robust

/-! The methods anchored to what the server was told by its sidecar: FLTrust weighs the clients
by how far they agree with a reference update, Zeno ranks them by a score. Both compare the
batch with the weights the round dispatched. -/
namespace ConfluxFL.Trusted
variable {ν ω : Type} [Floating ν] [Floating ω] [Precision ν ω]
open Precision

def wideDot (a b : List ν) : ω := Floating.sum (a.zipWith (fun x y => widen x*widen y) b)

def wideNorm (a : List ν) : ω := Floating.sqrt (wideDot a a)

/-- The cosine of two updates; a client that moved nowhere deserves no trust. -/
def wideCosine (a b : List ν) : ω :=
  if Floating.beq (wideNorm a) 0 || Floating.beq (wideNorm b) 0 then 0
  else wideDot a b/(wideNorm a*wideNorm b)

def stored (weights : List F32) : List ν := weights.map Floating.ofF32

theorem length_stored (weights : List F32) : (stored weights : List ν).length = weights.length :=
  List.length_map _

section FlTrust

/-- The update from the global weights to these. -/
def deviation (weights global : List ν) : List ν := weights.zipWith (· - ·) global

/-- Add one client's update, rescaled to the length of the server's own and weighed by how far
the two agree. One that points away contributes nothing. -/
def trustStep (g₀ global : List ν) (acc : ω × List ω) (w : List ν) : ω × List ω :=
  let g := deviation w global
  let trust := Floating.max (wideCosine g g₀) 0
  if Floating.le trust 0 then acc
  else if Floating.beq (wideNorm g) 0 then acc
  else
    let scale := wideNorm g₀/wideNorm g
    (acc.1+trust,acc.2.zipWith (fun a x => a+trust*scale*widen x) g)

/-- The model of a round; the global one when nobody is trusted. -/
def trustedModel (reference global : List ν) (decoded : List (List ν)) : List ν :=
  let g₀ := deviation reference global
  let sums := decoded.foldl (trustStep g₀ global) (0,zeros global.length)
  if Floating.le sums.1 0 then global
  else global.zipWith (fun w acc => narrow (widen w+acc/sums.1)) sums.2

/-- Without a reference it refuses, and does not fall back to an average. -/
def flTrust (injected : Injected) (updates : List ClientDelta) :
    Except AggregatorError (List ν) :=
  onBatch .error updates fun decoded =>
    let dim := (decoded.headD []).length
    match injected.reference with
    | none => .error .missingTrustedReference
    | some r =>
      if r.globalWeights.length ≠ dim ∨ r.referenceWeights.length ≠ dim then
        .error (.trustedReferenceDimension dim r.globalWeights.length r.referenceWeights.length)
      else .ok (trustedModel (stored r.referenceWeights) (stored r.globalWeights) (embed decoded))

end FlTrust

section Zeno

/-- The scores of a batch. Of two scores for one client the last counts, and it counts once. -/
def takeScores : List (String × F32) → List ClientDelta → Except AggregatorError (List F32)
  | _, [] => .ok []
  | scores, u::updates =>
    match scores.reverse.find? fun e => e.1 = u.clientId with
    | none => .error (.unscoredClient u.clientId)
    | some e => do
      let rest ← takeScores (scores.filter fun e => e.1 ≠ u.clientId) updates
      return e.2::rest

/-- The score less a penalty on the distance moved; none, which ranks last, when that is not a
number to compare by. A score that is not finite never gives one that is. -/
def suspicion (rho score : F32) (w global : List ν) : Option ω :=
  let normSq := Floating.sum
    (w.zipWith (fun y x => (widen y-widen x)*(widen y-widen x)) global)
  let sds := Floating.ofF32 score-Floating.ofF32 rho*normSq
  if score.isFinite && Floating.isFinite sds then some sds else none

def rankLe : Option ω → Option ω → Bool
  | none, _ => true
  | some _, none => false
  | some a, some b => Floating.totalLe a b

/-- The positions of a batch by descending rank; equal ranks keep the batch's order. -/
def ranking (ranks : List (Option ω)) : List ℕ :=
  (List.range ranks.length).insertionSort fun i j =>
    rankLe (ranks.getD j none) (ranks.getD i none) = true

/-- The mean of the best-ranked updates. -/
def zenoModel (byzantineFraction rho : F32) (global : List ν) (scores : List F32)
    (decoded : List (List ν)) : List ν :=
  let ranks := scores.zipWith (fun s w => suspicion rho s w global) decoded
  let kept := (ranking ranks).take (decoded.length-byzantineCount byzantineFraction decoded.length)
  sharedMean global.length (kept.filterMap fun i => decoded[i]?)

/-- The scores are used up by the call that reads them, whatever comes of it. -/
def zeno (byzantineFraction rho : F32) (injected : Injected) (updates : List ClientDelta) :
    Except AggregatorError (List ν) × Injected :=
  onBatch (fun e => (.error e,injected)) updates fun decoded =>
    match injected.scores with
    | none => (.error .missingCandidateScores,injected)
    | some c =>
      let rest := { injected with scores := none }
      if c.globalWeights.length ≠ (decoded.headD []).length then
        (.error (.candidateScoresDimension (decoded.headD []).length c.globalWeights.length),rest)
      else
        match takeScores c.scores updates with
        | .error e => (.error e,rest)
        | .ok scores => (.ok (zenoModel byzantineFraction rho (stored c.globalWeights) scores
            (embed decoded)),rest)

end Zeno

section Dimension
variable {updates : List ClientDelta} {out : List ν} {injected : Injected}

theorem length_trustedModel (reference : List ν) {global : List ν} {decoded : List (List ν)}
    (h : ∀ w ∈ decoded, w.length = global.length) :
    (trustedModel reference global decoded).length = global.length := by
  have hsums : (decoded.foldl (trustStep (deviation reference global) global)
      (0,zeros global.length)).2.length = global.length := by
    refine List.foldlRecOn decoded _ (motive := fun acc : ω × List ω =>
      acc.2.length = global.length) (length_zeros global.length) fun acc hacc w hw => ?_
    unfold trustStep
    dsimp only
    split_ifs
    · exact hacc
    · exact hacc
    · simp [deviation, hacc, h w hw]
  unfold trustedModel
  dsimp only
  split
  · rfl
  · rw [List.length_zipWith, hsums, Nat.min_self]

/-- FLTrust's aggregate has the dimension of its batch, and of the weights it was given. -/
theorem hasDimension_flTrust (h : flTrust injected updates = .ok out) :
    HasDimension updates out.length ∧
      ∃ r, injected.reference = some r ∧ r.globalWeights.length = out.length := by
  obtain ⟨decoded,hd,hdim,h⟩ := onBatch_ok h
  dsimp only at h
  split at h
  · cases h
  · rename_i r hr
    split_ifs at h with hbad
    cases h
    have hglobal : r.globalWeights.length = (decoded.headD []).length :=
      not_not.mp (not_or.mp hbad).1
    have hstored : (stored r.globalWeights : List ν).length = (decoded.headD []).length :=
      (length_stored _).trans hglobal
    have hlen := length_trustedModel (stored r.referenceWeights) fun w hw =>
      (length_of_mem_embed hd w hw).trans hstored.symm
    rw [hlen, hstored]
    exact ⟨hdim,r,hr,hglobal⟩

/-- Zeno's aggregate has the dimension of its batch, and of the weights it was given. -/
theorem hasDimension_zeno {byzantineFraction rho : F32}
    (h : (zeno byzantineFraction rho injected updates).1 = .ok out) :
    HasDimension updates out.length ∧
      ∃ c, injected.scores = some c ∧ c.globalWeights.length = out.length := by
  obtain ⟨decoded,hd,hdim,h⟩ := onBatch_fst_ok h
  dsimp only at h
  split at h
  · cases h
  · rename_i c hc
    split_ifs at h with hbad
    have hglobal := not_not.mp hbad
    split at h
    · cases h
    · cases h
      have hstored : (stored c.globalWeights : List ν).length = (decoded.headD []).length :=
        (length_stored _).trans hglobal
      rw [zenoModel, length_sharedMean, hstored]
      · exact ⟨hdim,c,hc,hglobal⟩
      · intro w hw
        obtain ⟨i,_,hi⟩ := List.mem_filterMap.mp hw
        exact (length_of_mem_embed hd w (List.mem_of_getElem? hi)).trans hstored.symm

end Dimension
end ConfluxFL.Trusted
