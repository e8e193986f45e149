import ConfluxFL.Config.Preconditions
import ConfluxFL.Server.State

/-! One attempt at a round: check the budget, load, select, open the buffer, wait for the
flush, filter, fetch what the aggregator needs, aggregate, checkpoint, record the cost, advance. -/
namespace ConfluxFL
open RoundM
variable {κ : Type}

structure RoundSummary where
  round : ℕ
  flushReason : FlushReason
  numSelected : ℕ
  numSubmitted : ℕ
  numPassed : ℕ
  deriving DecidableEq, Repr

/-- What a round is opened with. -/
structure Opened where
  round : ℕ
  weights : List F32
  numActive : ℕ
  numSelected : ℕ
  quorum : ℕ

/-- A filtered batch, ready for the aggregator. -/
structure Prepared where
  opened : Opened
  flushReason : FlushReason
  numSubmitted : ℕ
  batch : List ClientDelta

def quorumOverride (d : Deployment κ) : Option ℕ := d.config.quorum.map Resolved.value

/-- The experiment-wide gate: only the global scope has one, and only halting enforces it. -/
def checkPrivacyBudget (d : Deployment κ) : RoundM κ Unit := do
  let s ← get
  if d.config.accountingScope.value ≠ .global then pure ()
  else if !d.budgetExhausted s.accountant.rounds then pure ()
  else
    match d.config.budgetExhaustedAction.value with
    | .halt => throw (.err .budgetExhausted)
    | .continueWithoutGuarantee => pure ()

/-- Refuse a batch size the method's citation does not cover; the count is cast to 32 bits. -/
def checkBatchRequirement (d : Deployment κ) (round batch : ℕ) : RoundM κ Unit :=
  let batch := batch % 2^32
  match batchRequirement d.config.aggregator.value d.config.robustByzantineFraction.value batch with
  | none => pure ()
  | some req =>
    if req.satisfiedBy batch then modify fun s => { s with roundVerdict := some true }
    else throw (.err (.preconditionViolated round d.config.aggregator.value batch req.required
      req.excluded req.citation))

def loadLatestWeights (env : RoundEnv) : RoundM κ (List F32) := do
  ask env.load ServerError.store
  let s ← get
  match s.store.loadLatestWeights with
  | .ok weights => pure weights
  | .error e => throw (.err (.store e))

/-- The task a round offers to its clients. -/
def roundTask (d : Deployment κ) (state : κ) (round : ℕ) (weights : List F32) : TaskResponse :=
  { taskId := "round-"++toString round
    round := round
    modelWeights := encodeWeights weights
    controlVariate := (d.aggregator.controlVariate state).map encodeWeights }

def openRound (d : Deployment κ) (env : RoundEnv) : RoundM κ Opened := do
  let round := (← get).round
  checkPrivacyBudget d
  let weights ← loadLatestWeights env
  let active ← ask env.active ServerError.registry
  let targetN := (quorumOverride d).getD active.length
  let selected := d.selector.select env.entropy active targetN round
  let quorum := (quorumOverride d).getD selected.length
  checkBatchRequirement d round quorum
  modify fun s => { s with
    currentBuffer := some (.new round quorum)
    pushed := s.pushed++[roundTask d s.aggregatorState round weights] }
  return ⟨round,weights,active.length,selected.length,quorum⟩

/-- Wait for the flush of the buffer this attempt opened. -/
def flushRound (env : RoundEnv) (o : Opened) : RoundM κ (FlushResult Submission) :=
  let flush := (RoundBuffer.new o.round o.quorum).awaitFlush env.arrivals env.timedOut
  if env.diesCollecting then throw .crash
  else do
    modify fun s => { s with currentBuffer := some flush.2 }
    return flush.1

def fetchAndInjectTrustedReference (d : Deployment κ) (env : RoundEnv) (o : Opened) :
    RoundM κ Unit :=
  if !d.sidecar then
    throw (.err (.trustedReferenceUnavailable o.round
      ("aggregator \""++d.config.aggregator.value++
        "\" requires a trusted reference, but no sidecar is configured " ++
        "(set CONFLUX_TRUSTED_REFERENCE_ADDR)")))
  else do
    let bytes ← ask env.reference fun reason => .trustedReferenceUnavailable o.round reason
    match decodeWeights bytes with
    | .error e => throw (.err (.trustedReferenceUnavailable o.round
        ("the sidecar returned an undecodable reference: "++e.text)))
    | .ok reference => modify fun s => { s with
        injected := { s.injected with reference := some ⟨o.weights,reference⟩ } }

def fetchAndInjectCandidateScores (d : Deployment κ) (env : RoundEnv) (o : Opened) :
    RoundM κ Unit :=
  if !d.sidecar then
    throw (.err (.trustedReferenceUnavailable o.round
      ("aggregator \""++d.config.aggregator.value++
        "\" requires per-candidate scores, but no sidecar is configured " ++
        "(set CONFLUX_TRUSTED_REFERENCE_ADDR)")))
  else do
    let scores ← ask env.scores fun reason => .trustedReferenceUnavailable o.round reason
    modify fun s => { s with injected := { s.injected with scores := some ⟨o.weights,scores⟩ } }

/-- The sidecar is asked only for what the aggregator says it needs. -/
def fetchSignals (d : Deployment κ) (env : RoundEnv) (o : Opened) : RoundM κ Unit :=
  (if d.aggregator.requiresTrustedReference then fetchAndInjectTrustedReference d env o
    else pure ()) >>= fun _ =>
  if d.aggregator.requiresCandidateScores then fetchAndInjectCandidateScores d env o else pure ()

/-- Everything between the flush and the aggregator's call. -/
def filterBatch (d : Deployment κ) (env : RoundEnv) (o : Opened)
    (flush : FlushResult Submission) : RoundM κ Prepared := do
  checkBatchRequirement d o.round flush.deltas.length
  let s ← get
  match aggregationBatch d.config d.budgetExhausted s.accountant flush.deltas with
  | .error e => throw (.err e)
  | .ok batch => do
    fetchSignals d env o
    return ⟨o,flush.reason,flush.deltas.length,batch⟩

def prepareBatch (d : Deployment κ) (env : RoundEnv) : RoundM κ Prepared := do
  let o ← openRound d env
  let flush ← flushRound env o
  filterBatch d env o flush

/-- The aggregator's call, with whatever it leaves in its state. -/
def aggregate (d : Deployment κ) (batch : List ClientDelta) : RoundM κ (List F32) := do
  let s ← get
  match d.aggregator.panics s.aggregatorState s.injected batch with
  | some message => throw (.panic message)
  | none =>
    let (result,state,injected) := d.aggregator.aggregate s.aggregatorState s.injected batch
    modify fun s => { s with aggregatorState := state, injected := injected }
    match result with
    | .ok weights => pure weights
    | .error e => throw (.err (.aggregator e))

/-- The effect of a checkpoint write. -/
def Server.checkpointed (s : Server κ) (round : ℕ) (weights : List F32)
    (batch : List ClientDelta) : Server κ :=
  { s with store := s.store.saveCheckpoint round weights
           history := s.history++[⟨round,weights,batch⟩] }

/-- The cost of a round with these counts. -/
def roundCost (d : Deployment κ) (numSelected numActive : ℕ) : RoundCost :=
  ⟨d.config.noiseMultiplier.value,
    if numActive = 0 then F32.zero else F32.ofNat numSelected/F32.ofNat numActive⟩

/-- The accountant after a round: one entry for the experiment, one per admitted delta. -/
def Server.charged (s : Server κ) (cost : RoundCost) (admitted : List String) : Server κ :=
  let accountant := s.accountant.recordRound cost
  { s with accountant := accountant.recordClients (admitted.map fun c => (c,cost)) }

/-- One log row per admitted delta, in order; `i` counts the rows already attempted. -/
def appendClients (outcome : ℕ → WriteOutcome) (cost : RoundCost) :
    ℕ → List String → RoundM κ Unit
  | _,[] => pure ()
  | i,c::admitted => do
    perform (outcome i) fun s => { s with log := s.log.appendRoundForClient c cost }
    appendClients outcome cost (i+1) admitted

/-- The durable half of the accounting, when there is one: the round's row, then the rows of
the admitted clients. -/
def appendRows (d : Deployment κ) (env : RoundEnv) (cost : RoundCost) (admitted : List String) :
    RoundM κ Unit :=
  if d.persistentAccounting then do
    perform env.appendRound fun s => { s with log := s.log.appendRound cost }
    appendClients env.appendClient cost 0 admitted
  else pure ()

def recordRoundPrivacyCost (d : Deployment κ) (env : RoundEnv) (cost : RoundCost)
    (admitted : List String) : RoundM κ Unit := do
  modify fun s => s.charged cost admitted
  appendRows d env cost admitted

def commitRound (d : Deployment κ) (env : RoundEnv) (p : Prepared) : RoundM κ RoundSummary := do
  let newWeights ← aggregate d p.batch
  perform env.save fun s => s.checkpointed p.opened.round newWeights p.batch
  recordRoundPrivacyCost d env (roundCost d p.opened.numSelected p.opened.numActive)
    (p.batch.map ClientDelta.clientId)
  modify fun s => { s with round := p.opened.round+1, currentBuffer := none }
  return ⟨p.opened.round,p.flushReason,p.opened.numSelected,p.numSubmitted,p.batch.length⟩

/-- The batch an attempt flushes: the arrivals that carry its round number, in order. -/
def RoundEnv.flushed (env : RoundEnv) (round : ℕ) : List Submission :=
  env.arrivals.filter fun x => x.delta.round = round

def runRound (d : Deployment κ) (env : RoundEnv) : RoundM κ RoundSummary := do
  let p ← prepareBatch d env
  commitRound d env p

end ConfluxFL
