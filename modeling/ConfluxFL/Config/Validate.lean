import ConfluxFL.Config.Types
import ConfluxFL.Config.Preconditions

/-! Validation of a resolved configuration: ranges of single parameters, then combinations.
Every finding is collected, so the result lists all that is wrong and not only the first. -/
namespace ConfluxFL

inductive Severity | error | warning
  deriving DecidableEq, Repr

/-- One piece of a rendered text: fixed words, or a number the message prints. -/
inductive Rendered where
  | text (s : String)
  | nat (n : ℕ)
  | f32 (x : F32)
  | f64 (x : F64)
  deriving DecidableEq, Repr

structure Finding where
  severity : Severity
  parameter : String
  value : Rendered
  source : ConfigSource
  message : List Rendered
  deriving DecidableEq, Repr

structure Validation where
  errors : List Finding
  warnings : List Finding

namespace ResolvedConfig
variable (c : ResolvedConfig)

/-- A finding when its condition holds, and nothing otherwise. -/
def finding (cond : Bool) (severity : Severity) (parameter : String) (value : Rendered)
    (source : ConfigSource) (message : List Rendered) : List Finding :=
  if cond then [⟨severity,parameter,value,source,message⟩] else []

def atMost (lo x hi : F32) : Bool := lo.le x && x.le hi
def notFiniteOrNegative (x : F32) : Bool := !x.isFinite || x.lt F32.zero
def notFiniteOrNonPositive (x : F32) : Bool := !x.isFinite || x.le F32.zero

def timeoutFindings : List Finding :=
  finding (c.roundTimeoutSecs.value = 0) .error "round_timeout_secs" (.nat 0)
    c.roundTimeoutSecs.source
    [.text "a round with a zero timeout can never wait for a submission — must be ≥ 1"] ++
  finding (86400 < c.roundTimeoutSecs.value) .warning "round_timeout_secs"
    (.nat c.roundTimeoutSecs.value) c.roundTimeoutSecs.source
    [.text ("longer than a day; a stalled client would hold the round open that whole " ++
      "time — legal, but check the units")]

/-- What makes a privacy budget one. -/
def budgetFindings : List Finding :=
  finding (!(F64.zero.lt c.targetEpsilon.value && c.targetEpsilon.value.isFinite)) .error
    "target_epsilon" (.f64 c.targetEpsilon.value) c.targetEpsilon.source
    [.text "a privacy budget must be a positive, finite ε"] ++
  finding (!(F64.zero.lt c.delta.value && c.delta.value.lt F64.one)) .error "delta"
    (.f64 c.delta.value) c.delta.source
    [.text "(ε, δ)-DP requires 0 < δ < 1 — δ ≥ 1 is no guarantee at all"]

/-- The bounds that are facts about one parameter. -/
def rangeFindings : List Finding :=
  c.timeoutFindings ++
  finding (c.clientRegistryTtl.value = 0) .error "client_registry_ttl" (.nat 0)
    c.clientRegistryTtl.source
    [.text "a zero TTL evicts every client the moment it registers — must be ≥ 1"] ++
  finding (c.maxUpdateBytes.value = 0) .error "max_update_bytes" (.nat 0)
    c.maxUpdateBytes.source
    [.text "a zero byte ceiling rejects every submission — must be ≥ 1"] ++
  (c.quorum.toList.flatMap fun quorum =>
    finding (quorum.value = 0) .error "quorum" (.nat 0) quorum.source
      [.text ("a zero quorum flushes rounds with no submissions; leave it unset to " ++
        "mean \"all active clients\"")]) ++
  finding (!atMost ⟨0xbf800000⟩ c.minReputationScore.value F32.one) .error
    "min_reputation_score" (.f32 c.minReputationScore.value) c.minReputationScore.source
    [.text ("cosine similarity lives in [-1, 1]; a threshold outside it either " ++
      "admits everything or nothing, silently")] ++
  finding (!atMost F32.zero c.robustByzantineFraction.value F32.one) .error
    "robust_byzantine_fraction" (.f32 c.robustByzantineFraction.value)
    c.robustByzantineFraction.source
    [.text "a fraction of the batch — must be within [0, 1] and finite"] ++
  finding (notFiniteOrNegative c.clipNorm.value) .error "clip_norm" (.f32 c.clipNorm.value)
    c.clipNorm.source [.text "an L2 norm bound must be finite and non-negative"] ++
  finding (notFiniteOrNegative c.noiseMultiplier.value) .error "noise_multiplier"
    (.f32 c.noiseMultiplier.value) c.noiseMultiplier.source
    [.text "a noise standard-deviation multiple must be finite and non-negative"] ++
  c.budgetFindings

def scaffoldFindings : List Finding :=
  if c.aggregator.value ≠ "scaffold" then []
  else if c.scaffoldNumClients.value = 0 then
    [⟨.error,"scaffold_num_clients",.nat 0,c.scaffoldNumClients.source,
      [.text ("SCAFFOLD's N is the total client population; zero divides the " ++
        "control-variate update by nothing")]⟩]
  else
    c.quorum.toList.flatMap fun quorum =>
      finding (c.scaffoldNumClients.value < quorum.value) .error "scaffold_num_clients"
        (.nat c.scaffoldNumClients.value) c.scaffoldNumClients.source
        [.text ("N is the total client population and cannot be smaller than " ++
          "quorum ("),.nat quorum.value,
         .text (") — a round's minimum batch cannot exceed the " ++
          "population it is drawn from")]

/-- What the optimisation and trusted methods want of their own parameters. -/
def methodFindings : List Finding :=
  let aggregator := c.aggregator.value
  finding (aggregator = "centered_clipping" && notFiniteOrNonPositive c.clipRadius.value) .error
    "clip_radius" (.f32 c.clipRadius.value) c.clipRadius.source
    [.text ("centered_clipping's τ must be positive and finite — a negative radius " ++
      "inverts the clipping instead of bounding it")] ++
  finding (["fedadagrad","fedadam","fedyogi","fedavgm","scaffold"].contains aggregator &&
      notFiniteOrNonPositive c.serverLearningRate.value) .error
    "server_learning_rate" (.f32 c.serverLearningRate.value) c.serverLearningRate.source
    [.text aggregator,.text " steps by η × update; η must be positive and finite"] ++
  finding (["fedadagrad","fedadam","fedyogi"].contains aggregator &&
      notFiniteOrNonPositive c.serverTau.value) .error
    "server_tau" (.f32 c.serverTau.value) c.serverTau.source
    [.text ("the adaptivity floor τ must be positive — it is what keeps the " ++
      "denominator away from zero")] ++
  finding (aggregator = "fedavgm" &&
      !(F32.zero.le c.serverMomentum.value && c.serverMomentum.value.lt F32.one)) .error
    "server_momentum" (.f32 c.serverMomentum.value) c.serverMomentum.source
    [.text ("momentum β must be in [0, 1) — at 1 the buffer never decays and the " ++
      "model accelerates forever")] ++
  finding (aggregator = "qfedavg" && notFiniteOrNegative c.fairnessQ.value) .error
    "fairness_q" (.f32 c.fairnessQ.value) c.fairnessQ.source
    [.text ("q < 0 weights *well-served* clients up — the inverse of the method; " ++
      "q = 0 is exactly FedAvg")] ++
  finding (aggregator = "zeno" && notFiniteOrNegative c.zenoRho.value) .error
    "zeno_rho" (.f32 c.zenoRho.value) c.zenoRho.source
    [.text "a negative ρ *rewards* update magnitude in the suspicion score"] ++
  c.scaffoldFindings

/-- The methods whose guarantee rests on the batch alone. -/
def robustBatchMethod : Bool :=
  ["krum","multi_krum","trimmed_mean","median","faba","bulyan","geometric_median",
    "median_of_means","divide_and_conquer"].contains c.aggregator.value

def quorumFindings : List Finding :=
  finding (c.quorum.isNone && c.robustBatchMethod) .warning "quorum" (.text "unset")
    c.robustByzantineFraction.source
    [.text "no quorum is configured, so ",.text c.aggregator.value,
     .text ("'s paper-stated batch requirement could not be checked — a round will close only " ++
      "when every selected client has responded, and whether that " ++
      "batch satisfies the citation depends on how many register. " ++
      "Set CONFLUX_QUORUM to have this validated.")] ++
  (c.quorum.toList.flatMap fun quorum =>
    (batchRequirement c.aggregator.value c.robustByzantineFraction.value
        quorum.value).toList.flatMap fun req =>
      finding (!req.satisfiedBy quorum.value) .error "quorum" (.nat quorum.value) quorum.source
        [.text "at n = ",.nat quorum.value,.text " with robust_byzantine_fraction = ",
         .f32 c.robustByzantineFraction.value,.text ", ",.text c.aggregator.value,
         .text " trims/excludes f = ",.nat req.excluded,.text ", and ",.text req.citation,
         .text " — every round would close at ",.nat quorum.value,
         .text " and aggregate outside the cited guarantee. Raise quorum to ",
         .nat req.required,
         .text (", lower robust_byzantine_fraction, or choose a method that states " ++
          "no batch minimum.")])

/-- What the robust and private settings require of each other. -/
def combinationFindings : List Finding :=
  c.methodFindings ++
  finding (c.robustBatchMethod && atMost ⟨0x3f000000⟩ c.robustByzantineFraction.value F32.one)
    .error "robust_byzantine_fraction" (.f32 c.robustByzantineFraction.value)
    c.robustByzantineFraction.source
    [.text c.aggregator.value,
     .text ("'s cited guarantee assumes a Byzantine *minority*; at " ++
      "≥ 0.5 no batch-only method can distinguish the colluders from the " ++
      "honest — that regime is what the trusted family (fltrust, zeno) " ++
      "exists for")] ++
  finding (F32.zero.lt c.noiseMultiplier.value && c.clipNorm.value.beq F32.zero) .warning
    "noise_multiplier" (.f32 c.noiseMultiplier.value) c.noiseMultiplier.source
    [.text ("has no effect: noise std is noise_multiplier × clip_norm, and " ++
      "clip_norm = 0 — this configuration looks private and adds no noise")] ++
  c.quorumFindings

def validate : Validation :=
  let findings := c.rangeFindings ++ c.combinationFindings
  { errors := findings.filter fun f => f.severity = .error
    warnings := findings.filter fun f => f.severity = .warning }

/-- The server starts: validation reported no error. -/
def accepted : Bool := c.validate.errors.isEmpty

/-- An accepted budget is positive and finite. -/
theorem targetEpsilon_of_accepted (h : c.accepted = true) :
    F64.zero.lt c.targetEpsilon.value = true ∧ c.targetEpsilon.value.isFinite = true := by
  by_contra hne
  have hcond : (!(F64.zero.lt c.targetEpsilon.value && c.targetEpsilon.value.isFinite)) = true := by
    rwa [Bool.not_eq_true', ← Bool.not_eq_true, Bool.and_eq_true]
  obtain ⟨f,hf,herr⟩ : ∃ f ∈ c.budgetFindings, f.severity = .error := by
    rw [budgetFindings, finding, if_pos hcond]
    exact ⟨_,List.mem_append_left _ List.mem_cons_self,rfl⟩
  rw [accepted, List.isEmpty_iff, validate, List.filter_eq_nil_iff] at h
  exact h f (List.mem_append_left _ (List.mem_append_right _ hf)) (decide_eq_true herr)

/-- An accepted quorum meets the method's requirement. -/
theorem meetsRequirement_of_accepted (h : c.accepted = true) {quorum : Resolved ℕ}
    (hq : c.quorum = some quorum) : meetsRequirement c.aggregator.value
      c.robustByzantineFraction.value quorum.value = true := by
  by_contra hne
  unfold meetsRequirement at hne
  cases hreq : batchRequirement c.aggregator.value c.robustByzantineFraction.value
      quorum.value with
  | none => simp [hreq] at hne
  | some req =>
    have hcond : (!req.satisfiedBy quorum.value) = true := by simpa [hreq] using hne
    obtain ⟨f,hf,herr⟩ : ∃ f ∈ c.quorumFindings, f.severity = .error := by
      rw [quorumFindings, hq]
      simp only [Option.toList_some, List.flatMap_cons, List.flatMap_nil, List.append_nil, hreq]
      rw [finding.eq_1 (!req.satisfiedBy quorum.value), if_pos hcond]
      exact ⟨_,List.mem_append_right _ List.mem_cons_self,rfl⟩
    rw [accepted, List.isEmpty_iff, validate, List.filter_eq_nil_iff] at h
    exact h f (List.mem_append_right _ (List.mem_append_right _ hf)) (decide_eq_true herr)

end ResolvedConfig

theorem ofDefaults_accepted (t : Topology) (m : Mode) :
    (ResolvedConfig.ofDefaults t m).accepted = true := by
  cases t <;> cases m <;> decide

end ConfluxFL
