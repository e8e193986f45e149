import ConfluxFL.Server.ArrivalOrder
import ConfluxFL.Server.Checkpoints

/-! Whether a round depends on the order its submissions arrived in. When the submissions are
interchangeable the batch is the same list in every order, and with it the whole state the
attempt leaves behind; when they are not, some order hands the aggregator another batch. -/
namespace ConfluxFL
open Fallible RoundM
variable {κ : Type} {d : Deployment κ} {env : RoundEnv} {s t : Server κ}
  {arrivals : List Submission}

/-- The same attempt with its submissions in another order. -/
def RoundEnv.reordered (env : RoundEnv) (arrivals : List Submission) : RoundEnv :=
  { env with arrivals := arrivals }

/-- Every order of arrival hands the aggregator the same batch, or none. -/
def OrderIndependent (d : Deployment κ) (env : RoundEnv) (s : Server κ) : Prop :=
  ∀ arrivals, arrivals.Perm env.arrivals →
    (aggregationBatch d.config d.budgetExhausted s.accountant
      ((env.reordered arrivals).flushed s.round)).toOption =
    (aggregationBatch d.config d.budgetExhausted s.accountant (env.flushed s.round)).toOption

/-- Every order of arrival hands the aggregator the same batch and leaves the same state. -/
def Reproduced (d : Deployment κ) (env : RoundEnv) (s : Server κ) : Prop :=
  OrderIndependent d env s ∧ ∀ arrivals, arrivals.Perm env.arrivals →
    stateOf (runRound d (env.reordered arrivals) s) = stateOf (runRound d env s)

/-- The checks refuse the flush in every order, or every client is settled in it. -/
def Interchangeable (d : Deployment κ) (env : RoundEnv) (s : Server κ) : Prop :=
  Accepts d.config d.budgetExhausted s.accountant (env.flushed s.round) →
    ∀ c, Settled d.config d.budgetExhausted s.accountant (env.flushed s.round) c

theorem flushed_perm (h : arrivals.Perm env.arrivals) (round : ℕ) :
    ((env.reordered arrivals).flushed round).Perm (env.flushed round) := h.filter _

theorem filterBatch_agree (o : Opened) {flush flush' : FlushResult Submission}
    (hreason : flush'.reason = flush.reason) (hperm : flush'.deltas.Perm flush.deltas)
    (hi : ArrivalIndependent d.config d.budgetExhausted s.accountant flush.deltas) :
    Agree (filterBatch d env o flush' s) (filterBatch d env o flush s) := by
  unfold filterBatch
  rw [hperm.length_eq, hreason]
  apply agree_bind_of_ok
  intro _ t hreq
  have hacc : t.accountant = s.accountant :=
    (keeps_checkBatchRequirement (f := Server.accountant) (fun _ _ => rfl) _ _).ok hreq
  have hbatch := hi flush'.deltas hperm
  apply agree_bind_of_ok
  intro s' t' hget
  cases hget
  rw [hacc]
  cases h : aggregationBatch d.config d.budgetExhausted s.accountant flush.deltas with
  | ok batch =>
    rw [h] at hbatch
    cases h' : aggregationBatch d.config d.budgetExhausted s.accountant flush'.deltas with
    | ok batch' =>
      rw [h'] at hbatch
      cases hbatch
      exact .same _
    | error e =>
      rw [h'] at hbatch
      cases hbatch
  | error e =>
    rw [h] at hbatch
    cases h' : aggregationBatch d.config d.budgetExhausted s.accountant flush'.deltas with
    | ok batch' =>
      rw [h'] at hbatch
      cases hbatch
    | error e' => exact .stopped _ _ _

theorem collect_agree (o : Opened) (h : arrivals.Perm env.arrivals)
    (hi : ArrivalIndependent d.config d.budgetExhausted s.accountant (env.flushed o.round)) :
    Agree ((flushRound (env.reordered arrivals) o >>= filterBatch d env o) s)
      ((flushRound env o >>= filterBatch d env o) s) := by
  have hperm := flushed_perm h o.round
  unfold flushRound
  rw [RoundBuffer.awaitFlush_new, RoundBuffer.awaitFlush_new]
  cases hdies : env.diesCollecting with
  | true =>
    simp only [RoundEnv.reordered, hdies, if_true]
    exact .same _
  | false =>
    simp only [RoundEnv.reordered, hdies, Bool.false_eq_true, if_false]
    refine filterBatch_agree (s := { s with
      currentBuffer := some ⟨o.round,o.quorum,.closed⟩ }) o ?_ hperm hi
    have hlen := (h.filter fun x => decide (HasRound.round x = o.round)).length_eq
    rw [hlen]

/-- An order of the flushed submissions comes from an order of all arrivals. -/
theorem exists_reordering {round : ℕ} {l : List Submission} (h : l.Perm (env.flushed round)) :
    ∃ arrivals, arrivals.Perm env.arrivals ∧ (env.reordered arrivals).flushed round = l := by
  let late := env.arrivals.filter fun x => !decide (x.delta.round = round)
  refine ⟨l++late,?_,?_⟩
  · exact (h.append_right late).trans (List.filter_append_perm _ env.arrivals)
  · have hl : l.filter (fun x => decide (x.delta.round = round)) = l := by
      rw [List.filter_eq_self]
      intro x hx
      exact (List.mem_filter.mp (h.mem_iff.mp hx)).2
    have hlate : late.filter (fun x => decide (x.delta.round = round)) = [] := by
      rw [List.filter_eq_nil_iff]
      intro x hx
      have hx' := (List.mem_filter.mp hx).2
      simpa using hx'
    simp only [RoundEnv.flushed, RoundEnv.reordered, List.filter_append, hl, hlate,
      List.append_nil]

theorem orderIndependent_iff : OrderIndependent d env s ↔
    ArrivalIndependent d.config d.budgetExhausted s.accountant (env.flushed s.round) := by
  constructor
  · intro h l hl
    obtain ⟨arrivals,hperm,hflushed⟩ := exists_reordering hl
    have hbatch := h arrivals hperm
    rw [hflushed] at hbatch
    exact hbatch
  · intro h arrivals hperm
    exact h _ (flushed_perm hperm s.round)

theorem prepareBatch_agree (h : arrivals.Perm env.arrivals) (hi : OrderIndependent d env s) :
    Agree (prepareBatch d (env.reordered arrivals) s) (prepareBatch d env s) := by
  apply agree_bind_of_ok
  intro o t hopen
  have hround := (openRound_ok hopen).1
  have hacc : t.accountant = s.accountant := congrArg Core.accountant (keeps_openRound.ok hopen)
  refine collect_agree o h ?_
  rw [hround, hacc]
  exact orderIndependent_iff.mp hi

theorem runRound_agree (h : arrivals.Perm env.arrivals) (hi : OrderIndependent d env s) :
    Agree (runRound d (env.reordered arrivals) s) (runRound d env s) :=
  (prepareBatch_agree h hi).bind

theorem reproduced_iff_orderIndependent : Reproduced d env s ↔ OrderIndependent d env s :=
  ⟨And.left,fun h => ⟨h,fun _ hperm => (runRound_agree hperm h).stateOf_eq⟩⟩

/-- Distinct client ids are enough, whatever the filters say. -/
theorem reproduced_of_nodup (hn : ((env.flushed s.round).map Submission.clientId).Nodup) :
    Reproduced d env s :=
  reproduced_iff_orderIndependent.mpr
    (orderIndependent_iff.mpr (arrivalIndependent_of_settled fun c => settled_of_nodup hn c))

section Runs

def startedServer : Server Unit := (Run.after World.step seededWorld [start]).server

/-- Two submissions of one round. -/
def twoSubmissions (first second : String) : List Submission :=
  [.plain first 1 [F32.one] 10,.plain second 1 [F32.zero] 10]

example : Reproduced (.noiseless fedAvg) (.clean (twoSubmissions "a" "b")) startedServer :=
  reproduced_of_nodup (by decide +kernel)

end Runs
end ConfluxFL
