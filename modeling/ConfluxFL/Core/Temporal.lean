import ConfluxFL.Lib.KeyedTable
import ConfluxFL.Core.Robust

/-! The methods with a memory: FoolsGold weighs clients by how alike their histories are, and
centered clipping pulls every update towards the last aggregate. -/
namespace ConfluxFL.Temporal
variable {ν ω : Type} [Floating ν] [Floating ω] [Precision ν ω]
open Precision Robust

section FoolsGold

def cosineSimilarity (a b : List ν) : ν :=
  let normA := Floating.sqrt (dot a a)
  let normB := Floating.sqrt (dot b b)
  if Floating.beq normA 0 || Floating.beq normB 0 then 0 else dot a b/(normA*normB)

def matrix (n : ℕ) (entry : ℕ → ℕ → ν) : List (List ν) :=
  (List.range n).map fun i => (List.range n).map (entry i)

/-- The largest entry of every row, and never less than zero. -/
def rowMaxima (cs : List (List ν)) : List ν := cs.map fun row => row.foldl Floating.max 0

/-- Pardoning: a similarity to a client that is more suspicious counts for less. -/
def pardoned (cs : List (List ν)) (maxcs : List ν) : List (List ν) :=
  matrix cs.length fun i j =>
    let c := (cs.getD i []).getD j 0
    if i ≠ j ∧ Floating.lt (maxcs.getD i 0) (maxcs.getD j 0) = true then
      c*(maxcs.getD i 0/maxcs.getD j 0)
    else c

/-- Logistic sharpening of a weight that was rescaled and capped below one. -/
def sharpened (maxWv w : ν) : ν :=
  let w := w/maxWv
  let w := if Floating.le 1 w then 0.99 else w
  Floating.clamp (Floating.ln (w/(1-w))+0.5) 0 1

/-- The weights of clients with these histories; all zero when everybody is as suspicious as can
be of everybody else. -/
def foolsgoldWeights (histories : List (List ν)) : List ν :=
  let cs := matrix histories.length fun i j =>
    if i = j then 0 else cosineSimilarity (histories.getD i []) (histories.getD j [])
  let maxcs := rowMaxima (pardoned cs (rowMaxima cs))
  let wv := maxcs.map fun m => Floating.clamp (1-m) 0 1
  let maxWv := wv.foldl Floating.max 0
  if Floating.le maxWv 0 then List.replicate histories.length 0 else wv.map (sharpened maxWv)

/-- Add to the stored coordinates what there is to add; a history keeps its length. -/
def addInto : List ν → List ν → List ν
  | h::hs, x::xs => (h+x)::addInto hs xs
  | hs, _ => hs

/-- Every client's accumulated updates. -/
abbrev History (ν : Type) := KeyedTable String (List ν)

/-- The history after one update, which starts at zero for a new client. -/
def recordUpdate (history : History ν) (clientId : String) (w : List ν) : History ν :=
  history.upsert clientId (addInto ((history.lookup clientId).getD (zeros w.length)) w)

/-- Record a batch, update by update, and read off each client's history as it stands then. -/
def recordBatch (history : History ν) : List (String × List ν) → List (List ν) × History ν
  | [] => ([],history)
  | (clientId,w)::batch =>
    let next := recordUpdate history clientId w
    let rest := recordBatch next batch
    ((next.lookup clientId).getD []::rest.1,rest.2)

/-- The combination by FoolsGold's weights, or the plain mean when they are all zero. -/
def combine (weights : List ν) (decoded : List (List ν)) : List ν :=
  let dim := (decoded.headD []).length
  if weights.all fun w => Floating.beq w 0 then sharedMean dim decoded
  else (weights.zip decoded).foldl
    (fun acc p => addScaled acc p.2 (p.1*(1/Floating.ofNat decoded.length))) (zeros dim)

def foolsGold (history : History ν) (updates : List ClientDelta) :
    Except AggregatorError (List ν) × History ν :=
  onBatch (fun e => (.error e,history)) updates fun decoded =>
    let rows : List (List ν) := embed decoded
    let recorded := recordBatch history ((updates.map ClientDelta.clientId).zip rows)
    if updates.length = 1 then (.ok (rows.headD []),recorded.2)
    else (.ok (combine (foolsgoldWeights recorded.1) rows),recorded.2)

end FoolsGold

section CenteredClipping

/-- The distance of two stored vectors, computed in the wider type. -/
def wideDistance (a b : List ν) : ω :=
  Floating.sqrt (Floating.sum
    (a.zipWith (fun x y => (widen x-widen y)*(widen x-widen y)) b))

/-- How much of a deviation of this length is let through. -/
def clipScale (clipRadius : F32) (distance : ω) : ω :=
  if Floating.lt 0 distance then
    Floating.min (Floating.ofF32 clipRadius/distance) 1
  else 1

/-- One step from the reference by the mean of the clipped deviations. -/
def clippedStep (clipRadius : F32) (decoded : List (List ν)) (v : List ν) : List ν :=
  let clippedSum := decoded.foldl (fun acc w =>
    addScaledDifference acc w v (clipScale clipRadius (wideDistance w v))) (zeros v.length)
  v.zipWith (fun vi acc => narrow (widen vi+acc/Floating.ofNat decoded.length)) clippedSum

/-- The reference to clip against: the last aggregate if it has this dimension, and otherwise
the batch's mean. -/
def clippingReference (reference : Option (List ν)) (decoded : List (List ν)) : List ν :=
  let dim := (decoded.headD []).length
  (reference.filter fun v => v.length = dim).getD (sharedMean dim decoded)

def centeredClipping (clipRadius : F32) (reference : Option (List ν))
    (updates : List ClientDelta) : Except AggregatorError (List ν) × Option (List ν) :=
  onBatch (fun e => (.error e,reference)) updates fun decoded =>
    let next := clippedStep clipRadius (embed decoded) (clippingReference reference (embed decoded))
    (.ok next,some next)

end CenteredClipping

section Dimension
variable {updates : List ClientDelta} {out : List ν}

theorem length_combine {weights : List ν} {decoded : List (List ν)} {dim : ℕ}
    (hhead : (decoded.headD []).length = dim) (h : ∀ w ∈ decoded, w.length = dim) :
    (combine weights decoded).length = dim := by
  unfold combine
  dsimp only
  rw [hhead]
  split
  · exact length_sharedMean h
  · exact length_foldl (fun acc p hp hacc => length_addScaled hacc (h _ (List.of_mem_zip hp).2) _)
      (length_zeros dim)

theorem hasDimension_foolsGold {history : History ν}
    (h : (foolsGold history updates).1 = .ok out) : HasDimension updates out.length := by
  obtain ⟨decoded,hd,hdim,h⟩ := onBatch_fst_ok h
  dsimp only at h
  split at h
  · cases h
    rwa [length_headD_embed]
  · cases h
    rwa [length_combine (length_headD_embed decoded) (length_of_mem_embed hd)]

omit [Floating ν] in
theorem length_clippedStep (clipRadius : F32) {decoded : List (List ν)} {v : List ν}
    (h : ∀ w ∈ decoded, w.length = v.length) :
    (clippedStep clipRadius decoded v).length = v.length := by
  unfold clippedStep
  dsimp only
  rw [List.length_zipWith, length_foldl (fun acc w hw hacc =>
    length_addScaledDifference hacc (h w hw) rfl _) (length_zeros v.length), Nat.min_self]

theorem length_clippingReference (reference : Option (List ν)) {decoded : List (List ν)} {dim : ℕ}
    (hhead : (decoded.headD []).length = dim) (h : ∀ w ∈ decoded, w.length = dim) :
    (clippingReference reference decoded).length = dim := by
  unfold clippingReference
  dsimp only
  rw [hhead]
  cases hv : reference.filter fun v => v.length = dim with
  | none => exact length_sharedMean h
  | some v => exact of_decide_eq_true (Option.filter_eq_some_iff.mp hv).2

theorem hasDimension_centeredClipping {clipRadius : F32} {reference : Option (List ν)}
    (h : (centeredClipping clipRadius reference updates).1 = .ok out) :
    HasDimension updates out.length := by
  obtain ⟨decoded,hd,hdim,h⟩ := onBatch_fst_ok h
  cases h
  have href := length_clippingReference reference (length_headD_embed (ν := ν) decoded)
    (length_of_mem_embed hd)
  rwa [length_clippedStep clipRadius fun w hw => (length_of_mem_embed hd w hw).trans href.symm,
    href]

end Dimension
end ConfluxFL.Temporal
