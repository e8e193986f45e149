import Mathlib.Tactic.Module
import ConfluxFL.Federation.Variates
import ConfluxFL.Lib.Run

/-! A trainer's control variate against the gradients it is recovered from: over a sequence of
local rounds it is their average wherever the weights of the formula are those the local steps
started from. -/
namespace ConfluxFL

/-- One call of `train`, with what `on_control_variate` delivered before it. -/
structure TrainCall (V : Type) where
  c : Option V
  weights : V
  gradient : ℕ → V → V

namespace HarnessClient

theorem heed_model {V : Type} (client : HarnessClient V) (c : Option V) :
    (client.heed c).model = client.model := by
  cases c <;> rfl

theorem heed_cI {V : Type} (client : HarnessClient V) (c : Option V) :
    (client.heed c).cI = client.cI := by
  cases c <;> rfl

variable {K V : Type} [Field K] [AddCommGroup V] [Module K V]

/-- The stochastic gradients that the local steps follow, without the correction. -/
def gradientsTaken (trainer : Trainer K) (gradient : ℕ → V → V) (correction model : V) : List V :=
  (List.range trainer.steps).map fun k =>
    gradient k (trainSteps { trainer with steps := k } gradient correction model)

theorem trainSteps_succ (lr : K) (steps : ℕ) (gradient : ℕ → V → V) (correction model : V) :
    trainSteps ⟨lr,steps+1⟩ gradient correction model =
      trainSteps ⟨lr,steps⟩ gradient correction model-
        lr•(gradient steps (trainSteps ⟨lr,steps⟩ gradient correction model)+correction) := by
  simp only [trainSteps, List.range_succ, List.foldl_append, List.foldl_cons, List.foldl_nil]

/-- The local steps end as far from their start as their gradients and corrections add up to. -/
theorem trainSteps_eq (trainer : Trainer K) (gradient : ℕ → V → V) (correction model : V) :
    trainSteps trainer gradient correction model =
      model-trainer.lr•((gradientsTaken trainer gradient correction model).sum+
        (trainer.steps : K)•correction) := by
  obtain ⟨lr,steps⟩ := trainer
  induction steps with
  | zero => simp [trainSteps, gradientsTaken]
  | succ steps ih =>
    have hsum : (gradientsTaken ⟨lr,steps+1⟩ gradient correction model).sum =
        (gradientsTaken ⟨lr,steps⟩ gradient correction model).sum+
          gradient steps (trainSteps ⟨lr,steps⟩ gradient correction model) := by
      simp [gradientsTaken, List.range_succ]
    rw [trainSteps_succ, hsum]
    nth_rewrite 1 [ih]
    dsimp only
    push_cast
    module

variable [DecidableEq K] [DecidableEq V]

/-- A call as the client goes through it; the exception of a failed one leaves what the delivery
changed. -/
def call (trainer : Trainer K) (client : HarnessClient V) (call : TrainCall V) :
    HarnessClient V :=
  match (client.heed call.c).train trainer call.gradient call.weights with
  | some (client,_) => client
  | none => client.heed call.c

omit [DecidableEq K] in
/-- The parameters from which the local steps of a call start. -/
def startOf (client : HarnessClient V) (call : TrainCall V) : V :=
  if call.weights = 0 then client.model else call.weights

/-- The gradients that the local steps of a call take. -/
def gradientsOf (trainer : Trainer K) (client : HarnessClient V) (call : TrainCall V) : List V :=
  gradientsTaken trainer call.gradient
    ((client.heed call.c).c.getD 0-client.cI.getD 0) (client.startOf call)

/-- After the call the client's control variate is the average of the gradients it took. -/
def AveragesGradients (trainer : Trainer K) (client : HarnessClient V) (call : TrainCall V) :
    Prop :=
  (client.call trainer call).cI =
    some ((1/(trainer.steps : K))•(client.gradientsOf trainer call).sum)

section Average
variable [CharZero K] {trainer : Trainer K} {client : HarnessClient V} {call : TrainCall V}

/-- What a call leaves: the average of its gradients, and the way from the weights of the formula
to those the steps started from. -/
theorem cI_call (hsteps : 0 < trainer.steps) (hlr : trainer.lr ≠ 0) :
    (client.call trainer call).cI =
      some ((1/(trainer.steps : K))•(client.gradientsOf trainer call).sum+
        (1/((trainer.steps : K)*trainer.lr))•(call.weights-client.startOf call)) := by
  have hne : (trainer.steps : K) ≠ 0 := by exact_mod_cast hsteps.ne'
  unfold HarnessClient.call train
  simp only [if_neg (mul_ne_zero hne hlr), heed_model, heed_cI, trainSteps_eq]
  rw [Option.some_inj]
  change client.cI.getD 0+((1/((trainer.steps : K)*trainer.lr))•(call.weights-
    (client.startOf call-trainer.lr•((client.gradientsOf trainer call).sum+(trainer.steps : K)•
      ((client.heed call.c).c.getD 0-client.cI.getD 0))))-(client.heed call.c).c.getD 0) = _
  match_scalars <;> field_simp <;> ring

theorem weights_eq_startOf_iff :
    call.weights = client.startOf call ↔ call.weights ≠ 0 ∨ client.model = 0 := by
  unfold startOf
  by_cases hzero : call.weights = 0
  · simp [hzero, eq_comm]
  · simp [hzero]

/-- The control variate is the average exactly when the weights of the formula are those from
which the local steps started. -/
theorem averagesGradients_call_iff (hsteps : 0 < trainer.steps) (hlr : trainer.lr ≠ 0) :
    client.AveragesGradients trainer call ↔ call.weights ≠ 0 ∨ client.model = 0 := by
  have hne : (trainer.steps : K) ≠ 0 := by exact_mod_cast hsteps.ne'
  have hscale : 1/((trainer.steps : K)*trainer.lr) ≠ 0 := one_div_ne_zero (mul_ne_zero hne hlr)
  rw [AveragesGradients, cI_call hsteps hlr, Option.some_inj, add_eq_left,
    smul_eq_zero_iff_right hscale, sub_eq_zero, weights_eq_startOf_iff]

/-- Over any sequence of calls: after each the control variate is the average of its gradients if
and only if none that starts from parameters of its own is sent the placeholder. -/
theorem averagesGradients_iff (hsteps : 0 < trainer.steps) (hlr : trainer.lr ≠ 0) (model : V)
    (calls : List (TrainCall V)) :
    Run.Always (HarnessClient.call trainer) (AveragesGradients trainer) (new model) calls ↔
      Run.Always (HarnessClient.call trainer)
        (fun client call => call.weights ≠ 0 ∨ client.model = 0) (new model) calls :=
  Run.always_congr fun _ _ => averagesGradients_call_iff hsteps hlr

end Average

def threeSteps : Trainer ℚ := ⟨1/10,3⟩

/-- Two calls, the second after a control variate has arrived. -/
def twoCalls : List (TrainCall ℚ) := [⟨none,0,fun k y => y-k⟩,⟨some 2,5,fun k y => y-k⟩]

theorem averagesGradients_iff_twoCalls :
    Run.Always (HarnessClient.call threeSteps) (AveragesGradients threeSteps) (new 0) twoCalls ↔
      Run.Always (HarnessClient.call threeSteps)
        (fun client call => call.weights ≠ 0 ∨ client.model = 0) (new 0) twoCalls :=
  averagesGradients_iff (by decide) (by norm_num [threeSteps]) 0 twoCalls

def oneStep : Trainer ℚ := ⟨1,1⟩

/-- A model with a parameter of one is sent the placeholder and has no gradient to follow: its
control variate becomes minus one. -/
theorem not_averagesGradients_placeholder :
    ¬Run.Always (HarnessClient.call oneStep) (AveragesGradients oneStep) (new (1 : ℚ))
      [⟨none,0,fun _ _ => 0⟩] := by
  rintro ⟨h,-⟩
  rcases (averagesGradients_call_iff (by decide) one_ne_zero).mp h with hweights | hmodel
  · exact hweights rfl
  · exact one_ne_zero hmodel

end HarnessClient
end ConfluxFL
