import Mathlib.Data.String.Basic
import ConfluxFL.Lib.StableSort
import ConfluxFL.Buffer
import ConfluxFL.Config.Types
import ConfluxFL.Privacy.Accountant
import ConfluxFL.Privacy.Mechanism
import ConfluxFL.Core.Aggregator
import ConfluxFL.Registry
import ConfluxFL.Store

/-! From the flushed submissions to the batch the aggregator is given: sort by client id,
decode and drop what is not finite, check budgets per client, transform, score, and rebuild
deltas by looking weights up under the client id; and why a round fails. -/
namespace ConfluxFL

/-! Cosine scoring of updates against the batch mean, and the threshold filter on it. -/

def nan : F32 := ⟨0x7fc00000⟩

/-- The cosine of an update and a reference; lengths that differ have no cosine. -/
def cosineScore (update reference : List F32) : F32 :=
  if update.length ≠ reference.length then nan
  else
    let dot := F32.sum (update.zipWith (· * ·) reference)
    let normUpdate := l2Norm update
    let normReference := l2Norm reference
    if normUpdate.beq F32.zero || normReference.beq F32.zero then F32.zero
    else dot/(normUpdate*normReference)

/-- The client ids whose update scores at least the threshold. -/
def filterByThreshold (updates : List (String × List F32)) (reference : List F32)
    (minScore : F32) : List String :=
  (updates.filter fun (_,weights) => minScore.le (cosineScore weights reference)).map Prod.fst

/-- Element-wise addition over the common length, keeping the rest of the accumulator. -/
def addInto : List F32 → List F32 → List F32
  | s::acc,w::weights => (s+w)::addInto acc weights
  | acc,_ => acc

/-- The mean of a batch, in the dimension of its first update. -/
def meanVector (decoded : List (String × List F32)) : List F32 :=
  match decoded with
  | [] => []
  | (_,first)::_ =>
    let total := decoded.foldl (fun acc (_,w) => addInto acc w)
      (List.replicate first.length F32.zero)
    total.map fun s => s/F32.ofNat decoded.length

/-! A round's batch. -/

/-- Why a round failed. -/
inductive ServerError where
  | budgetExhausted
  | preconditionViolated (round : ℕ) (aggregator : String) (batch required excluded : ℕ)
      (citation : String)
  | budgetExhaustedForClient (clientId : String)
  | registry (e : RegistryError)
  | store (e : StoreError)
  | aggregator (e : AggregatorError)
  | trustedReferenceUnavailable (round : ℕ) (reason : String)
  deriving DecidableEq, Repr

/-- The loop backs off and tries the same round again; every other error stops it. -/
def ServerError.isTransient : ServerError → Bool
  | .budgetExhausted => false
  | .budgetExhaustedForClient _ => false
  | .preconditionViolated .. => false
  | .registry _ => true
  | .store _ => true
  | .aggregator _ => true
  | .trustedReferenceUnavailable .. => true

/-- An accepted delta together with the Gaussian draws the server-side transform will use on
it, should it come to that. -/
structure Submission where
  delta : ClientDelta
  noise : ℕ → F32

namespace Submission

def clientId (s : Submission) : String := s.delta.clientId

instance : HasRound Submission := ⟨fun s => s.delta.round⟩

/-- A submission that reports weights and a sample count only. -/
def plain (clientId : String) (round : ℕ) (weights : List F32) (numSamples : ℕ) : Submission :=
  ⟨⟨clientId,round,encodeWeights weights,numSamples,none,none,none⟩,fun _ => F32.zero⟩

end Submission

/-- A decoded update on its way through the checks. -/
structure Decoded where
  clientId : String
  weights : List F32
  noise : ℕ → F32

/-- Ascending client ids; submissions of one client keep their arrival order. -/
def sortByClientId (deltas : List Submission) : List Submission :=
  StableSort.sortBy Submission.clientId deltas

def decodeDelta (s : Submission) : Except ServerError Decoded :=
  match decodeWeights s.delta.weights with
  | .ok weights => .ok ⟨s.clientId,weights,s.noise⟩
  | .error _ =>
    .error (.aggregator (.malformedWeights s.clientId s.delta.weights.length))

def decodeFlushedDeltas (deltas : List Submission) : Except ServerError (List Decoded) := do
  let decoded ← deltas.mapM decodeDelta
  return decoded.filter fun d => d.weights.all F32.isFinite

section Budget
variable (exhausted : List RoundCost → Bool) (accountant : RdpAccountant)

/-- Drop the clients whose own budget is spent, or stop at the first of them. -/
def excludeExhausted (action : BudgetExhaustedAction) :
    List Decoded → Except ServerError (List Decoded)
  | [] => .ok []
  | d::decoded =>
    if !exhausted (accountant.clientRounds d.clientId) then do
      let kept ← excludeExhausted action decoded
      return d::kept
    else
      match action with
      | .halt => .error (.budgetExhaustedForClient d.clientId)
      | .continueWithoutGuarantee => excludeExhausted action decoded

def filterByPerClientBudget (config : ResolvedConfig) (decoded : List Decoded) :
    Except ServerError (List Decoded) :=
  if config.accountingScope.value ≠ .perClient then .ok decoded
  else excludeExhausted exhausted accountant config.budgetExhaustedAction.value decoded

end Budget

/-- The mechanism `assemble` builds from the configuration. -/
def serverMechanism (config : ResolvedConfig) : GaussianClippingPrivacy :=
  ⟨config.clipNorm.value,config.noiseMultiplier.value⟩

/-- The transformed weights of one update. -/
def transformed (config : ResolvedConfig) (d : Decoded) : List F32 :=
  (serverMechanism config).transform d.noise d.weights

def applyServerSidePrivacy (config : ResolvedConfig) (decoded : List Decoded) :
    List (String × List F32) :=
  decoded.map fun d => (d.clientId,transformed config d)

def passedIds (config : ResolvedConfig) (decoded : List (String × List F32)) : List String :=
  if config.reputationFilterEnabled.value then
    filterByThreshold decoded (meanVector decoded) config.minReputationScore.value
  else decoded.map Prod.fst

/-- Collecting pairs into a map keeps the last value of each key. -/
def weightsByClient (decoded : List (String × List F32)) (clientId : String) :
    Option (List F32) :=
  (decoded.reverse.find? fun e => e.1 = clientId).map Prod.snd

/-- A submission's metadata over re-encoded weights. -/
def reencoded (s : Submission) (weights : List F32) : ClientDelta :=
  { s.delta with weights := encodeWeights weights }

def reencodePassingDeltas (deltas : List Submission) (decoded : List (String × List F32))
    (passed : List String) : List ClientDelta :=
  (deltas.filter fun s => passed.contains s.clientId).filterMap fun s =>
    (weightsByClient decoded s.clientId).map (reencoded s)

/-- The updates that pass the finiteness and budget checks, in client-id order. -/
def checkedUpdates (config : ResolvedConfig) (exhausted : List RoundCost → Bool)
    (accountant : RdpAccountant) (flushed : List Submission) :
    Except ServerError (List Decoded) := do
  let decoded ← decodeFlushedDeltas (sortByClientId flushed)
  filterByPerClientBudget exhausted accountant config decoded

/-- The batch handed to the aggregator. -/
def aggregationBatch (config : ResolvedConfig) (exhausted : List RoundCost → Bool)
    (accountant : RdpAccountant) (flushed : List Submission) :
    Except ServerError (List ClientDelta) := do
  let checked ← checkedUpdates config exhausted accountant flushed
  let decoded := applyServerSidePrivacy config checked
  return reencodePassingDeltas (sortByClientId flushed) decoded (passedIds config decoded)

end ConfluxFL
