import Mathlib.Algebra.BigOperators.GroupWithZero.Action
import Mathlib.Algebra.Field.Defs
import ConfluxFL.Core.Scaffold
import ConfluxFL.Protocol.RoundLoop

/-! SCAFFOLD's two halves at work, in exact arithmetic: the harness's trainers fold what they
learn into their own control variates and report it, and the server folds the reports of a round
into the one it hands out. Between the two lie the wire, the bridges and the round loop. Numbers
are elements of a field, and models, all of one shape, are vectors over it. -/
namespace ConfluxFL

/-- What a trainer of the harness is started with. -/
structure Trainer (K : Type) where
  lr : K
  steps : ℕ

/-- A trainer: its model, the control variate it was last sent, and its own. -/
structure HarnessClient (V : Type) where
  model : V
  c : Option V
  cI : Option V

structure HarnessResult (V : Type) where
  weights : V
  controlVariate : V

namespace HarnessClient
variable {K V : Type} [Field K] [AddCommGroup V] [Module K V]

def new (model : V) : HarnessClient V := ⟨model,none,none⟩

def onControlVariate (client : HarnessClient V) (c : V) : HarnessClient V :=
  { client with c := some c }

/-- The callback is made when the task carries a control variate. -/
def heed (client : HarnessClient V) (c : Option V) : HarnessClient V :=
  match c with
  | none => client
  | some c => client.onControlVariate c

/-- Local steps: each follows the gradient of its mini-batch, to which the correction is
added. -/
def trainSteps (trainer : Trainer K) (gradient : ℕ → V → V) (correction model : V) : V :=
  (List.range trainer.steps).foldl (fun y k => y-trainer.lr•(gradient k y+correction)) model

variable [DecidableEq K] [DecidableEq V]

/-- A local round. All zeros are the server's placeholder, for which a client keeps its own
model; the division fails when there are no steps or no learning rate. -/
def train (trainer : Trainer K) (gradient : ℕ → V → V) (client : HarnessClient V) (weights : V) :
    Option (HarnessClient V × HarnessResult V) :=
  let model := if weights = 0 then client.model else weights
  let cI := client.cI.getD 0
  let c := client.c.getD 0
  let trained := trainSteps trainer gradient (c-cI) model
  if (trainer.steps : K)*trainer.lr = 0 then none
  else
    let scale := 1/((trainer.steps : K)*trainer.lr)
    let deltaC := scale•(weights-trained)-c
    some (⟨trained,client.c,some (cI+deltaC)⟩,⟨trained,deltaC⟩)

end HarnessClient

namespace ExactScaffold
variable (K : Type) {V : Type} [Field K] [AddCommGroup V] [Module K V]

/-- The damped sum of the control variates a batch brings. -/
def variateStep (numClients : ℕ) (variates : List V) : V :=
  variates.foldl (fun acc dc => acc+(1/(Scaffold.population numClients : K))•dc) 0

/-- The control variate after the aggregator has taken a batch; it takes no empty one. -/
def aggregate [DecidableEq V] (numClients : ℕ) (control : Option V) (variates : List V) :
    Option V :=
  if variates = [] then none
  else
    let step := variateStep K numClients variates
    match control with
    | none => some step
    | some c => some (if step = 0 then c else c+step)

variable {K} (numClients : ℕ)

theorem variateStep_eq (variates : List V) : variateStep K numClients variates =
    (1/(Scaffold.population numClients : K))•variates.sum := by
  have hfold (acc : V) : variates.foldl
      (fun acc dc => acc+(1/(Scaffold.population numClients : K))•dc) acc =
        acc+(1/(Scaffold.population numClients : K))•variates.sum := by
    induction variates generalizing acc with
    | nil => rw [List.foldl_nil, List.sum_nil, smul_zero, add_zero]
    | cons dc variates ih => rw [List.foldl_cons, ih, List.sum_cons, smul_add, add_assoc]
  exact (hfold 0).trans (zero_add _)

theorem aggregate_eq [DecidableEq V] (control : Option V) {variates : List V}
    (hne : variates ≠ []) : aggregate K numClients control variates = some (control.getD 0+
      (1/(Scaffold.population numClients : K))•variates.sum) := by
  rw [aggregate, if_neg hne, ← variateStep_eq]
  cases control with
  | none => exact congrArg some (zero_add _).symm
  | some c =>
    dsimp only
    split_ifs with hzero
    · rw [hzero, add_zero, Option.getD_some]
    · rfl

theorem aggregate_eq_some [DecidableEq V] {control : Option V} {variates : List V} {c : V}
    (h : aggregate K numClients control variates = some c) :
    c = control.getD 0+(1/(Scaffold.population numClients : K))•variates.sum := by
  have hne : variates ≠ [] := by
    rintro rfl
    cases h
  rw [aggregate_eq numClients control hne] at h
  exact (Option.some.inj h).symm

end ExactScaffold

/-- A submission. Its weights do not enter the control variate. -/
structure VariateReport (ι V : Type) where
  client : ι
  round : ℕ
  controlVariate : V
  deriving DecidableEq

instance {ι V : Type} : HasRound (VariateReport ι V) := ⟨VariateReport.round⟩

/-- A task as a client gets it; what it carries may be older than what the server has by now. -/
structure VariateTask (V : Type) where
  round : ℕ
  weights : V
  controlVariate : Option V

/-- How an attempt goes on once it has its batch: it fails before the aggregator has taken
anything, or the aggregator is given what passed the checks, and the attempt ends like this if
nothing was refused there. -/
inductive AttemptEnd (ι V : Type) where
  | failed (fatal : Bool)
  | aggregated (passed : VariateReport ι V → Bool) (ending : Ending)

/-- A client trains and submits; a copy of a submission arrives or its attempt fails, upon which
the sender tries again or gives up; one whose acknowledgement was lost is sent again; and what
the round loop does. -/
inductive VariateEvent (ι V : Type) where
  | trains (i : ι) (task : VariateTask V) (gradient : ℕ → V → V)
  | arrives (k : ℕ)
  | attemptFails (k : ℕ)
  | retries (k : ℕ)
  | givesUp (k : ℕ)
  | repeats (k : ℕ)
  | opens (quorum : ℕ)
  | failsToOpen (ending : Ending)
  | flush (timedOut : Bool)
  | finishes (e : AttemptEnd ι V)

/-- Trainers and server. `mail` are the copies on their way, `refused` those whose sender has not
given up yet. `trained`, `dropped` and `repeated` record what was submitted, what never reached
the aggregator, and what was sent a second time. -/
structure VariateRun (ι V : Type) where
  clients : ι → HarnessClient V
  control : Option V
  loop : RoundLoop (VariateReport ι V)
  mail : List (VariateReport ι V)
  refused : List (VariateReport ι V)
  trained : List (VariateReport ι V)
  dropped : List (VariateReport ι V)
  repeated : List (VariateReport ι V)

/-- The server's answer to a submission: no round is open, the buffer refuses it, or it is
taken. -/
def RoundLoop.offer {δ : Type} [HasRound δ] (l : RoundLoop δ) (x : δ) : Option (RoundLoop δ) :=
  match l.buffer with
  | none => none
  | some b =>
    match b.push x with
    | .error _ => none
    | .ok b' => some { l with buffer := some b' }

namespace VariateRun
variable {ι K V : Type}

section Step
variable (s : VariateRun ι V)

def start (model : ι → V) : VariateRun ι V :=
  ⟨fun i => .new (model i),none,.start,[],[],[],[],[]⟩

/-- The submissions whose fate is open: on the way, with their sender, or with the server. -/
def inFlight : List (VariateReport ι V) := s.mail++s.refused++s.loop.attempt

def arrives (k : ℕ) : VariateRun ι V :=
  match s.mail[k]? with
  | none => s
  | some x =>
    match s.loop.offer x with
    | some loop => { s with mail := s.mail.eraseIdx k, loop := loop }
    | none => { s with mail := s.mail.eraseIdx k, refused := s.refused++[x] }

def attemptFails (k : ℕ) : VariateRun ι V :=
  match s.mail[k]? with
  | none => s
  | some x => { s with mail := s.mail.eraseIdx k, refused := s.refused++[x] }

def retries (k : ℕ) : VariateRun ι V :=
  match s.refused[k]? with
  | none => s
  | some x => { s with mail := s.mail++[x], refused := s.refused.eraseIdx k }

def givesUp (k : ℕ) : VariateRun ι V :=
  match s.refused[k]? with
  | none => s
  | some x => { s with refused := s.refused.eraseIdx k, dropped := s.dropped++[x] }

def repeats (k : ℕ) : VariateRun ι V :=
  match s.trained[k]? with
  | none => s
  | some x => { s with mail := s.mail++[x], repeated := s.repeated++[x] }

/-- The attempt ends, and its batch with it. -/
def throwsAway (ending : Ending) : VariateRun ι V :=
  { s with loop := s.loop.finish ending, dropped := s.dropped++s.loop.flushed }

variable [DecidableEq ι] [DecidableEq V] [Field K] [DecidableEq K] [AddCommGroup V] [Module K V]

/-- A client folds its delta in before it submits it. -/
def trains (fleet : ι → Trainer K) (i : ι) (task : VariateTask V) (gradient : ℕ → V → V) :
    VariateRun ι V :=
  match ((s.clients i).heed task.controlVariate).train (fleet i) gradient task.weights with
  -- the exception ends the client's process
  | none => s
  | some (client,result) =>
    let x : VariateReport ι V := ⟨i,task.round,result.controlVariate⟩
    { s with
      clients := Function.update s.clients i client
      mail := s.mail++[x]
      trained := s.trained++[x] }

variable (K) in
/-- The aggregator's refusal of an empty batch is one the loop retries. -/
def finishes (numClients : ℕ) : AttemptEnd ι V → VariateRun ι V
  | .failed fatal => s.throwsAway (if fatal then .fatal else .transient)
  | .aggregated passed ending =>
    match ExactScaffold.aggregate K numClients s.control
      ((s.loop.flushed.filter passed).map VariateReport.controlVariate) with
    | none => s.throwsAway .transient
    | some c => { s with
        control := some c
        loop := s.loop.finish ending
        dropped := s.dropped++s.loop.flushed.filter fun x => !passed x }

end Step

section Run
variable [DecidableEq ι] [DecidableEq V] [Field K] [DecidableEq K] [AddCommGroup V] [Module K V]

def step (fleet : ι → Trainer K) (numClients : ℕ) (s : VariateRun ι V) :
    VariateEvent ι V → VariateRun ι V
  | .trains i task gradient => s.trains fleet i task gradient
  | .arrives k => s.arrives k
  | .attemptFails k => s.attemptFails k
  | .retries k => s.retries k
  | .givesUp k => s.givesUp k
  | .repeats k => s.repeats k
  | .opens quorum => { s with loop := s.loop.opens quorum }
  | .failsToOpen ending => { s with loop := s.loop.failsToOpen ending }
  | .flush timedOut => { s with loop := s.loop.flush timedOut }
  | .finishes e => s.finishes K numClients e

/-- A run against a server whose `scaffold_num_clients` is the number of the clients. -/
def run [Fintype ι] (fleet : ι → Trainer K) (model : ι → V) (events : List (VariateEvent ι V)) :
    VariateRun ι V :=
  Run.after (step fleet (Fintype.card ι)) (start model) events

end Run

section Mean
variable [Field K] [AddCommGroup V] [Module K V] [Fintype ι]

/-- A client's own control variate; zeros until it has trained. -/
def own (s : VariateRun ι V) (i : ι) : V := (s.clients i).cI.getD 0

variable (K) in
/-- The server's control variate is the mean of the clients'. -/
def IsMean (s : VariateRun ι V) : Prop :=
  s.control.getD 0 = (1/(Fintype.card ι : K))•∑ i, s.own i

instance [DecidableEq V] (s : VariateRun ι V) : Decidable (s.IsMean K) :=
  inferInstanceAs (Decidable (_ = _))

end Mean
end VariateRun
end ConfluxFL
