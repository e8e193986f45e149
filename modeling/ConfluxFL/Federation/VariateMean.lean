import Mathlib.Algebra.CharZero.Defs
import Mathlib.Algebra.Field.Rat
import ConfluxFL.Federation.Variates
import ConfluxFL.Lib.Ledger

/-! When the server's control variate is the mean of the clients' own. Every delta folded in by
a client and every copy sent again is on its way, with the server, or dropped: the run keeps a
balanced ledger. -/
namespace ConfluxFL

/-- A buffer is open only while its attempt collects. -/
def RoundLoop.OpenInAttempt {δ : Type} (l : RoundLoop δ) : Prop :=
  ∀ b ds, l.buffer = some b → b.state = .opened ds → l.phase = .collecting

namespace RoundLoop.OpenInAttempt
variable {δ : Type} {l : RoundLoop δ}

theorem start : (RoundLoop.start : RoundLoop δ).OpenInAttempt := by
  intro b ds hb
  cases hb

theorem opens (h : l.OpenInAttempt) (quorum : ℕ) : (l.opens quorum).OpenInAttempt := by
  unfold RoundLoop.opens
  split
  · intro _ _ _ _
    rfl
  · exact h

theorem of_closed {round : ℕ} {phase : LoopPhase δ} {b : RoundBuffer δ} :
    (⟨round,some b.close,phase⟩ : RoundLoop δ).OpenInAttempt := by
  intro b' ds hb hstate
  cases hb
  cases hstate

/-- A phase that does not collect may follow another one. -/
theorem setPhase (h : l.OpenInAttempt) (hl : l.phase ≠ .collecting) (phase : LoopPhase δ) :
    RoundLoop.OpenInAttempt { l with phase := phase } :=
  fun b ds hb hstate => (hl (h b ds hb hstate)).elim

theorem failsToOpen (h : l.OpenInAttempt) (ending : Ending) :
    (l.failsToOpen ending).OpenInAttempt := by
  unfold RoundLoop.failsToOpen
  split
  · rename_i hphase
    exact h.setPhase (by simp [hphase]) .stopped
  · exact h

theorem flush (h : l.OpenInAttempt) (timedOut : Bool) : (l.flush timedOut).OpenInAttempt := by
  rcases l.flush_cases timedOut with heq | ⟨_,b,_,heq⟩
  · rwa [heq]
  · rw [heq]
    exact of_closed

theorem finish (h : l.OpenInAttempt) (ending : Ending) : (l.finish ending).OpenInAttempt := by
  unfold RoundLoop.finish
  split
  · intro b ds hb
    cases hb
  · rename_i hphase
    exact h.setPhase (by simp [hphase]) .idle
  · rename_i hphase
    exact h.setPhase (by simp [hphase]) .stopped
  · exact h

/-- What the server takes is part of the attempt that collects. -/
theorem offer [HasRound δ] (h : l.OpenInAttempt) {x : δ} {l' : RoundLoop δ}
    (hl : l.offer x = some l') : l'.OpenInAttempt ∧ l'.attempt = l.attempt++[x] := by
  obtain ⟨round,buffer,phase⟩ := l
  unfold RoundLoop.offer at hl
  split at hl
  · cases hl
  · rename_i b hb
    split at hl
    · cases hl
    · rename_i b' hpush
      cases hl
      obtain rfl : buffer = some b := hb
      obtain ⟨_,ds,hstate,_⟩ := RoundBuffer.push_ok_iff.mp hpush
      obtain rfl : phase = .collecting := h b ds rfl hstate
      exact ⟨fun _ _ _ _ => rfl,RoundLoop.attempt_push round .collecting hpush⟩

end RoundLoop.OpenInAttempt

namespace RoundLoop
variable {δ : Type} (l : RoundLoop δ)

theorem attempt_opens (quorum : ℕ) : (l.opens quorum).attempt = l.attempt := by
  obtain ⟨round,buffer,phase⟩ := l
  cases phase <;> rfl

theorem attempt_failsToOpen (ending : Ending) : (l.failsToOpen ending).attempt = l.attempt := by
  obtain ⟨round,buffer,phase⟩ := l
  cases phase <;> cases ending <;> rfl

/-- Ending an attempt takes its batch away and nothing else. -/
theorem attempt_eq_flushed (ending : Ending) :
    l.attempt = l.flushed++(l.finish ending).attempt := by
  obtain ⟨round,buffer,phase⟩ := l
  cases phase with
  | closing batch => cases ending <;> exact (List.append_nil batch).symm
  | _ => rfl

end RoundLoop

namespace VariateRun
variable {ι K V : Type}

section Variates

/-- The control variates of some reports. -/
def variates (l : List (VariateReport ι V)) : Multiset V := ↑(l.map VariateReport.controlVariate)

@[simp] theorem variates_nil : variates ([] : List (VariateReport ι V)) = 0 := rfl

@[simp] theorem variates_singleton (x : VariateReport ι V) :
    variates [x] = {x.controlVariate} := rfl

@[simp] theorem variates_append (l m : List (VariateReport ι V)) :
    variates (l++m) = variates l+variates m := by
  rw [variates, List.map_append, ← Multiset.coe_add]
  rfl

theorem variates_of_perm {l m : List (VariateReport ι V)} (h : l.Perm m) :
    variates l = variates m := Multiset.coe_eq_coe.mpr (h.map _)

theorem variates_eraseIdx {l : List (VariateReport ι V)} {k : ℕ} {x : VariateReport ι V}
    (h : l[k]? = some x) : variates l = variates (l.eraseIdx k)+{x.controlVariate} := by
  obtain ⟨hk,rfl⟩ := List.getElem?_eq_some_iff.mp h
  rw [← variates_singleton, ← variates_append]
  exact variates_of_perm ((List.getElem_cons_eraseIdx_perm hk).symm.trans
    (List.perm_append_singleton _ _).symm)

theorem variates_filter (p : VariateReport ι V → Bool) (l : List (VariateReport ι V)) :
    variates l = variates (l.filter p)+variates (l.filter fun x => !p x) := by
  rw [← variates_append]
  exact variates_of_perm (List.filter_append_perm p l).symm

end Variates

theorem variates_inFlight (s : VariateRun ι V) : variates s.inFlight =
    variates s.mail+variates s.refused+variates s.loop.attempt := by
  rw [inFlight, variates_append, variates_append]

theorem population_ne_zero [Field K] [CharZero K] (numClients : ℕ) :
    (Scaffold.population numClients : K) ≠ 0 :=
  Nat.cast_ne_zero.mpr (Nat.one_le_iff_ne_zero.mp (le_max_right numClients 1))

section Ledger
variable [Field K] [AddCommGroup V] [Module K V] {s t : VariateRun ι V} {numClients : ℕ}

variable (K) in
/-- The run as a ledger: clients issue their deltas, the server receives what it folds in. -/
def ledger (numClients : ℕ) (s : VariateRun ι V) : Ledger ι V where
  issued := s.own
  received := (Scaffold.population numClients : K)•s.control.getD 0
  underWay := variates s.inFlight
  lost := variates s.dropped
  repeated := variates s.repeated

theorem ledger_start (model : ι → V) : (start model).ledger K numClients = .empty := by
  simp only [ledger, start, Ledger.empty, Option.getD_none, smul_zero]
  rfl

variable [DecidableEq ι]

/-- Deltas in flight are folded in or dropped. -/
theorem ledger_settled (taken gone : List (VariateReport ι V)) (hc : t.clients = s.clients)
    (hv : (Scaffold.population numClients : K)•t.control.getD 0 =
      (Scaffold.population numClients : K)•s.control.getD 0+(variates taken).sum)
    (hf : variates s.inFlight = variates taken+variates gone+variates t.inFlight)
    (hd : t.dropped = s.dropped++gone) (hr : t.repeated = s.repeated) :
    (s.ledger K numClients).Step (t.ledger K numClients) := by
  have hown : t.own = s.own := by
    funext i
    rw [own, own, hc]
  have hledger : t.ledger K numClients = { s.ledger K numClients with
      received := (s.ledger K numClients).received+(variates taken).sum
      underWay := variates t.inFlight
      lost := (s.ledger K numClients).lost+variates gone } := by
    simp only [ledger, hown, hv, hd, hr, variates_append]
  rw [hledger]
  exact .settle (variates taken) (variates gone) (variates t.inFlight) hf

/-- Deltas in flight are dropped. -/
theorem ledger_dropped (gone : List (VariateReport ι V)) (hc : t.clients = s.clients)
    (hv : t.control = s.control) (hf : variates s.inFlight = variates gone+variates t.inFlight)
    (hd : t.dropped = s.dropped++gone) (hr : t.repeated = s.repeated) :
    (s.ledger K numClients).Step (t.ledger K numClients) := by
  apply ledger_settled [] gone hc
  · rw [hv, variates_nil, Multiset.sum_zero, add_zero]
  · rw [hf, variates_nil, zero_add]
  · exact hd
  · exact hr

/-- Deltas in flight change places. -/
theorem ledger_moved (hc : t.clients = s.clients) (hv : t.control = s.control)
    (hf : variates s.inFlight = variates t.inFlight) (hd : t.dropped = s.dropped)
    (hr : t.repeated = s.repeated) : (s.ledger K numClients).Step (t.ledger K numClients) := by
  apply ledger_dropped [] hc hv
  · rw [hf, variates_nil, zero_add]
  · rw [hd, List.append_nil]
  · exact hr

theorem ledger_arrives (hopen : s.loop.OpenInAttempt) (k : ℕ) :
    (s.ledger K numClients).Step ((s.arrives k).ledger K numClients) := by
  unfold arrives
  split
  · exact .refl _
  · rename_i x hx
    have hmail := variates_eraseIdx hx
    split
    · rename_i loop hloop
      refine ledger_moved rfl rfl ?_ rfl rfl
      rw [variates_inFlight, variates_inFlight, (hopen.offer hloop).2, hmail, variates_append,
        variates_singleton]
      abel
    · refine ledger_moved rfl rfl ?_ rfl rfl
      rw [variates_inFlight, variates_inFlight, hmail, variates_append, variates_singleton]
      abel

theorem ledger_attemptFails (k : ℕ) :
    (s.ledger K numClients).Step ((s.attemptFails k).ledger K numClients) := by
  unfold attemptFails
  split
  · exact .refl _
  · rename_i x hx
    refine ledger_moved rfl rfl ?_ rfl rfl
    rw [variates_inFlight, variates_inFlight, variates_eraseIdx hx, variates_append,
      variates_singleton]
    abel

theorem ledger_retries (k : ℕ) :
    (s.ledger K numClients).Step ((s.retries k).ledger K numClients) := by
  unfold retries
  split
  · exact .refl _
  · rename_i x hx
    refine ledger_moved rfl rfl ?_ rfl rfl
    rw [variates_inFlight, variates_inFlight, variates_eraseIdx hx, variates_append,
      variates_singleton]
    abel

theorem ledger_givesUp (k : ℕ) :
    (s.ledger K numClients).Step ((s.givesUp k).ledger K numClients) := by
  unfold givesUp
  split
  · exact .refl _
  · rename_i x hx
    refine ledger_dropped [x] rfl rfl ?_ rfl rfl
    rw [variates_inFlight, variates_inFlight, variates_eraseIdx hx, variates_singleton]
    abel

theorem ledger_repeats (k : ℕ) :
    (s.ledger K numClients).Step ((s.repeats k).ledger K numClients) := by
  unfold repeats
  split
  · exact .refl _
  · rename_i x hx
    have hledger : ledger K numClients { s with
        mail := s.mail++[x]
        repeated := s.repeated++[x] } = { s.ledger K numClients with
          underWay := (s.ledger K numClients).underWay+{x.controlVariate}
          repeated := (s.ledger K numClients).repeated+{x.controlVariate} } := by
      simp only [ledger, variates_inFlight, variates_append, variates_singleton,
        Ledger.mk.injEq, true_and, and_true]
      exact ⟨rfl,by abel⟩
    rw [hledger]
    exact .again x.controlVariate

theorem ledger_throwsAway (ending : Ending) :
    (s.ledger K numClients).Step ((s.throwsAway ending).ledger K numClients) := by
  refine ledger_dropped s.loop.flushed rfl rfl ?_ rfl rfl
  rw [variates_inFlight, variates_inFlight, s.loop.attempt_eq_flushed ending, variates_append]
  simp only [throwsAway]
  abel

variable [DecidableEq V]

theorem ledger_finishes [CharZero K] (e : AttemptEnd ι V) :
    (s.ledger K numClients).Step ((s.finishes K numClients e).ledger K numClients) := by
  cases e with
  | failed fatal => exact ledger_throwsAway _
  | aggregated passed ending =>
    simp only [finishes]
    split
    · exact ledger_throwsAway _
    · rename_i c hc
      refine ledger_settled (s.loop.flushed.filter passed)
        (s.loop.flushed.filter fun x => !passed x) rfl ?_ ?_ rfl rfl
      · rw [Option.getD_some, ExactScaffold.aggregate_eq_some numClients hc, smul_add, smul_smul,
          mul_one_div_cancel (population_ne_zero numClients), one_smul]
        rfl
      · rw [variates_inFlight, variates_inFlight, s.loop.attempt_eq_flushed ending,
          variates_append, variates_filter passed s.loop.flushed]
        abel

variable [DecidableEq K]

omit [DecidableEq ι] in
/-- A client reports what it has added to its own control variate. -/
theorem cI_train {trainer : Trainer K} {gradient : ℕ → V → V} {client client' : HarnessClient V}
    {c : Option V} {weights : V} {result : HarnessResult V}
    (h : (client.heed c).train trainer gradient weights = some (client',result)) :
    client'.cI.getD 0 = client.cI.getD 0+result.controlVariate := by
  have hheed : (client.heed c).cI = client.cI := by
    cases c <;> rfl
  unfold HarnessClient.train at h
  rw [hheed] at h
  dsimp only at h
  split_ifs at h <;> (cases h; rfl)

theorem ledger_trains (fleet : ι → Trainer K) (i : ι) (task : VariateTask V)
    (gradient : ℕ → V → V) :
    (s.ledger K numClients).Step ((s.trains fleet i task gradient).ledger K numClients) := by
  unfold trains
  dsimp only
  split
  · exact .refl _
  · rename_i client result htrain
    have hown : (fun j => (Function.update s.clients i client j).cI.getD 0) =
        Function.update s.own i (s.own i+result.controlVariate) := by
      funext j
      by_cases hj : j = i
      · subst hj
        rw [Function.update_self, Function.update_self]
        exact cI_train htrain
      · rw [Function.update_of_ne hj, Function.update_of_ne hj, own]
    have hledger : ledger K numClients { s with
        clients := Function.update s.clients i client
        mail := s.mail++[⟨i,task.round,result.controlVariate⟩]
        trained := s.trained++[⟨i,task.round,result.controlVariate⟩] } =
          { s.ledger K numClients with
            issued := Function.update s.own i (s.own i+result.controlVariate)
            underWay := (s.ledger K numClients).underWay+{result.controlVariate} } := by
      simp only [ledger, variates_inFlight, variates_append, variates_singleton,
        Ledger.mk.injEq, true_and, and_true]
      exact ⟨hown,by abel⟩
    rw [hledger]
    exact .issue i result.controlVariate

/-- Every event is one of the ledger. -/
theorem ledger_step [CharZero K] (hopen : s.loop.OpenInAttempt) (fleet : ι → Trainer K)
    (e : VariateEvent ι V) :
    (s.ledger K numClients).Step ((s.step fleet numClients e).ledger K numClients) := by
  cases e with
  | trains i task gradient => exact ledger_trains fleet i task gradient
  | arrives k => exact ledger_arrives hopen k
  | attemptFails k => exact ledger_attemptFails k
  | retries k => exact ledger_retries k
  | givesUp k => exact ledger_givesUp k
  | repeats k => exact ledger_repeats k
  | opens quorum =>
    refine ledger_moved rfl rfl ?_ rfl rfl
    rw [variates_inFlight, variates_inFlight]
    simp only [step, RoundLoop.attempt_opens]
  | failsToOpen ending =>
    refine ledger_moved rfl rfl ?_ rfl rfl
    rw [variates_inFlight, variates_inFlight]
    simp only [step, RoundLoop.attempt_failsToOpen]
  | flush timedOut =>
    refine ledger_moved rfl rfl ?_ rfl rfl
    rw [variates_inFlight, variates_inFlight]
    simp only [step, RoundLoop.attempt_flush]
  | finishes e => exact ledger_finishes e

theorem openInAttempt_step (hopen : s.loop.OpenInAttempt) (fleet : ι → Trainer K)
    (e : VariateEvent ι V) : (s.step fleet numClients e).loop.OpenInAttempt := by
  cases e with
  | trains i task gradient =>
    simp only [step, trains]
    split <;> exact hopen
  | arrives k =>
    simp only [step, arrives]
    split
    · exact hopen
    · split
      · rename_i loop hloop
        exact (hopen.offer hloop).1
      · exact hopen
  | attemptFails k =>
    simp only [step, attemptFails]
    split <;> exact hopen
  | retries k =>
    simp only [step, retries]
    split <;> exact hopen
  | givesUp k =>
    simp only [step, givesUp]
    split <;> exact hopen
  | repeats k =>
    simp only [step, repeats]
    split <;> exact hopen
  | opens quorum => exact hopen.opens quorum
  | failsToOpen ending => exact hopen.failsToOpen ending
  | flush timedOut => exact hopen.flush timedOut
  | finishes e =>
    cases e with
    | failed fatal => exact hopen.finish _
    | aggregated passed ending =>
      simp only [step, finishes]
      split
      · exact hopen.finish _
      · exact hopen.finish ending

end Ledger

section Runs
variable [Field K] [CharZero K] [DecidableEq K] [AddCommGroup V] [Module K V] [DecidableEq V]
  [DecidableEq ι] [Fintype ι] {fleet : ι → Trainer K} {model : ι → V} {s : VariateRun ι V}
  {events : List (VariateEvent ι V)}

theorem balanced_run : ((run fleet model events).ledger K (Fintype.card ι)).Balanced := by
  refine (Run.after_of_kept (fun s : VariateRun ι V =>
    s.loop.OpenInAttempt ∧ (s.ledger K (Fintype.card ι)).Balanced) ?_ fun s e h => ?_).2
  · refine ⟨.start,?_⟩
    rw [ledger_start]
    exact Ledger.balanced_empty
  · exact ⟨openInAttempt_step h.1 fleet e,h.2.step (ledger_step h.1 fleet e)⟩

omit [DecidableEq K] [DecidableEq V] [DecidableEq ι] in
/-- The mean, as what the server has received of the clients. -/
theorem isMean_iff : s.IsMean K ↔ (s.ledger K (Fintype.card ι)).received = ∑ i, s.own i := by
  unfold IsMean ledger
  rcases isEmpty_or_nonempty ι with hnone | hsome
  · rw [Finset.univ_eq_empty, Finset.sum_empty, smul_zero,
      smul_eq_zero_iff_right (population_ne_zero _)]
  · have hcard : Scaffold.population (Fintype.card ι) = Fintype.card ι :=
      max_eq_left Fintype.card_pos
    have hne : (Fintype.card ι : K) ≠ 0 := Nat.cast_ne_zero.mpr Fintype.card_ne_zero
    rw [hcard, one_div, eq_inv_smul_iff₀ hne]

/-- The step drops no submission and sends none again: no sender gives up, and an attempt that
has a batch gives all of it to the aggregator. -/
def Lossless (s : VariateRun ι V) : VariateEvent ι V → Prop
  | .givesUp k => s.refused.length ≤ k
  | .repeats k => s.trained.length ≤ k
  | .finishes (.failed _) => s.loop.flushed = []
  | .finishes (.aggregated passed _) => ∀ x ∈ s.loop.flushed, passed x = true
  | _ => True

/-- Nothing was dropped and nothing sent again. -/
structure Complete (s : VariateRun ι V) : Prop where
  dropped : s.dropped = []
  repeated : s.repeated = []

omit [CharZero K] [Fintype ι] in
theorem Complete.step (h : s.Complete) {numClients : ℕ} {e : VariateEvent ι V}
    (he : s.Lossless e) : (s.step fleet numClients e).Complete := by
  obtain ⟨hd,hr⟩ := h
  cases e with
  | trains i task gradient =>
    simp only [VariateRun.step, trains]
    split <;> exact ⟨hd,hr⟩
  | arrives k =>
    simp only [VariateRun.step, arrives]
    split
    · exact ⟨hd,hr⟩
    · split <;> exact ⟨hd,hr⟩
  | attemptFails k =>
    simp only [VariateRun.step, attemptFails]
    split <;> exact ⟨hd,hr⟩
  | retries k =>
    simp only [VariateRun.step, retries]
    split <;> exact ⟨hd,hr⟩
  | givesUp k =>
    have hnone : s.refused[k]? = none := List.getElem?_eq_none he
    simp only [VariateRun.step, givesUp, hnone]
    exact ⟨hd,hr⟩
  | repeats k =>
    have hnone : s.trained[k]? = none := List.getElem?_eq_none he
    simp only [VariateRun.step, repeats, hnone]
    exact ⟨hd,hr⟩
  | opens quorum => exact ⟨hd,hr⟩
  | failsToOpen ending => exact ⟨hd,hr⟩
  | flush timedOut => exact ⟨hd,hr⟩
  | finishes e =>
    have haway {ending : Ending} (hnil : s.loop.flushed = []) :
        (s.throwsAway ending).Complete := by
      refine ⟨?_,hr⟩
      simp only [throwsAway, hd, hnil, List.append_nil]
    cases e with
    | failed fatal => exact haway he
    | aggregated passed ending =>
      have hpassed : s.loop.flushed.filter passed = s.loop.flushed := List.filter_eq_self.mpr he
      have hrest : (s.loop.flushed.filter fun x => !passed x) = [] := by
        rw [List.filter_eq_nil_iff]
        intro x hx
        rw [he x hx]
        exact Bool.noConfusion
      simp only [VariateRun.step, finishes, hpassed, hrest, List.append_nil]
      split
      · rename_i hnone
        refine haway ?_
        by_contra hne
        rw [ExactScaffold.aggregate_eq numClients s.control (by simpa using hne)] at hnone
        cases hnone
      · exact ⟨hd,hr⟩

/-- With no submission in flight the server's control variate is the mean of the clients' own
exactly when the deltas of the submissions that were dropped and those of the copies sent again
add up to the same; so it is throughout every run that drops none and sends none again. -/
theorem isMean_run_iff (fleet : ι → Trainer K) (model : ι → V) (events : List (VariateEvent ι V))
    (h : (run fleet model events).inFlight = []) :
    ((run fleet model events).IsMean K ↔
      ((run fleet model events).dropped.map VariateReport.controlVariate).sum =
        ((run fleet model events).repeated.map VariateReport.controlVariate).sum) ∧
    (Run.Always (step fleet (Fintype.card ι)) Lossless (start model) events →
      (run fleet model events).IsMean K) := by
  have hbalanced := @balanced_run ι K V _ _ _ _ _ _ _ _ fleet model events
  have hnone : ((run fleet model events).ledger K (Fintype.card ι)).underWay = 0 := by
    simp only [ledger, h, variates_nil]
  have hiff := isMean_iff.trans (hbalanced.received_eq_iff hnone)
  refine ⟨hiff,fun hlossless => hiff.mpr ?_⟩
  have hcomplete : (run fleet model events).Complete :=
    Run.after_of_invariant Complete ⟨rfl,rfl⟩ hlossless fun s e hs he => hs.step he
  simp only [ledger, hcomplete.dropped, hcomplete.repeated]

end Runs

section Example

/-- Two clients of a model with one parameter train on the first round, which closes once this
many submissions are in. -/
def bothTrain (quorum : ℕ) : List (VariateEvent (Fin 2) ℚ) :=
  [.opens quorum,.trains 0 ⟨1,0,none⟩ (fun _ _ => 1),.trains 1 ⟨1,0,none⟩ fun _ _ => 1]

def closes : List (VariateEvent (Fin 2) ℚ) :=
  [.flush false,.finishes (.aggregated (fun _ => true) .completed)]

def twoTrainers : Fin 2 → Trainer ℚ := fun _ => ⟨1,1⟩

/-- A round that waits for both. -/
theorem isMean_bothTaken :
    (run twoTrainers 0 (bothTrain 2++[.arrives 0,.arrives 0]++closes)).IsMean ℚ :=
  (isMean_run_iff twoTrainers 0 (bothTrain 2++[.arrives 0,.arrives 0]++closes)
    (by decide +kernel)).2 (by simp [bothTrain, closes, Run.Always, Lossless])

/-- A round that closes on its quorum of one: the second submission is refused and given up, and
its client has folded the delta in. -/
def oneLate : VariateRun (Fin 2) ℚ :=
  run twoTrainers 0 (bothTrain 1++[.arrives 0]++closes++[.arrives 0,.givesUp 0])

theorem not_isMean_oneLate : oneLate.inFlight = [] ∧ ¬oneLate.IsMean ℚ := by
  decide +kernel

end Example
end VariateRun
end ConfluxFL
