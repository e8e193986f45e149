import Mathlib.Data.List.Forall2
import ConfluxFL.Lib.Run

/-! Machines that are called: every call is answered, and leaves a state for the next. A call that
leaves the state as it was takes nothing from the calls around it. Then machines that may answer
one of several things: two of them whose states stay related give related answers. -/
namespace Calls
variable {σ ε ρ : Type*} (call : σ → ε → ρ × σ)

/-- The state after some calls. -/
def after (s : σ) (es : List ε) : σ := Run.after (fun s e => (call s e).2) s es

/-- The answers to some calls. -/
def answers : σ → List ε → List ρ
  | _, [] => []
  | s, e::es => (call s e).1::answers (call s e).2 es

@[simp] theorem after_cons (s : σ) (e : ε) (es : List ε) :
    after call s (e::es) = after call (call s e).2 es := rfl

theorem after_append (s : σ) (es es' : List ε) :
    after call s (es++es') = after call (after call s es) es' := Run.after_append _ s es es'

theorem length_answers (s : σ) (es : List ε) : (answers call s es).length = es.length := by
  induction es generalizing s with
  | nil => rfl
  | cons e es ih => rw [answers, List.length_cons, List.length_cons, ih]

theorem answers_append (s : σ) (es es' : List ε) :
    answers call s (es++es') = answers call s es++answers call (after call s es) es' := by
  induction es generalizing s with
  | nil => rfl
  | cons e es ih => rw [List.cons_append, answers, ih, answers, List.cons_append, after_cons]

/-- Each answer is given in the state the calls before it have left. -/
theorem getElem?_answers (s : σ) (es : List ε) (i : ℕ) :
    (answers call s es)[i]? = es[i]?.map fun e => (call (after call s (es.take i)) e).1 := by
  induction es generalizing s i with
  | nil => rfl
  | cons e es ih =>
    cases i with
    | zero => rfl
    | succ i =>
      rw [answers, List.getElem?_cons_succ, List.getElem?_cons_succ, ih, List.take_succ_cons,
        after_cons]

theorem forall_mem_answers {P : ρ → Prop} (s : σ) (es : List ε)
    (h : ∀ s, ∀ e ∈ es, P (call s e).1) : ∀ r ∈ answers call s es, P r := by
  induction es generalizing s with
  | nil => exact nofun
  | cons e es ih =>
    intro r hr
    rcases List.mem_cons.mp hr with rfl | hr
    · exact h s e List.mem_cons_self
    · exact ih _ (fun s e' he' => h s e' (List.mem_cons_of_mem e he')) r hr

/-- Another machine that answers the same while a relation between the states is kept. -/
theorem answers_map {τ δ : Type*} (call' : τ → δ → ρ × τ) (f : ε → δ) (R : σ → τ → Prop)
    (hcall : ∀ s t e, R s t → (call' t (f e)).1 = (call s e).1 ∧ R (call s e).2 (call' t (f e)).2)
    {s : σ} {t : τ} (h : R s t) (es : List ε) : answers call' t (es.map f) = answers call s es := by
  induction es generalizing s t with
  | nil => rfl
  | cons e es ih =>
    obtain ⟨hanswer,hstate⟩ := hcall s t e h
    rw [List.map_cons, answers, answers, hanswer, ih hstate]

variable {call} {s : σ} {pre post : List ε} {e : ε}

/-- The answers with such a call are those without it, with its own put in. -/
theorem answers_insert (h : (call (after call s pre) e).2 = after call s pre) :
    answers call s (pre++e::post) =
      (answers call s (pre++post)).insertIdx pre.length (call (after call s pre) e).1 := by
  rw [answers_append, answers_append, answers, h]
  have hinsert (as bs : List ρ) (a : ρ) : as++a::bs = (as++bs).insertIdx as.length a := by
    induction as with
    | nil => rfl
    | cons b as ih => rw [List.cons_append, List.cons_append, List.length_cons,
        List.insertIdx_succ_cons, ih]
  rw [hinsert, length_answers]

end Calls

namespace Transcript
variable {σ τ ι α β : Type*}

/-- The answers a machine can give along a list of requests. -/
def Gives (step : σ → ι → σ) (answers : σ → ι → α → Prop) : σ → List ι → List α → Prop
  | _, [], [] => True
  | s, i::is, a::as => answers s i a ∧ Gives step answers (step s i) is as
  | _, _, _ => False

variable {step : σ → ι → σ} {answers : σ → ι → α → Prop} {step' : τ → ι → τ}
  {answers' : τ → ι → β → Prop} {s : σ} {t : τ} {is : List ι}

/-- A machine that always has an answer has a transcript. -/
theorem exists_gives (h : ∀ s i, ∃ a, answers s i a) (s : σ) (is : List ι) :
    ∃ as, Gives step answers s is as := by
  induction is generalizing s with
  | nil => exact ⟨[],trivial⟩
  | cons i is ih =>
    obtain ⟨a,ha⟩ := h s i
    obtain ⟨as,has⟩ := ih (step s i)
    exact ⟨a::as,ha,has⟩

/-- The states of two machines stay related through a run. -/
theorem related_after {R : σ → τ → Prop} {Q : σ → ι → Prop} (hQ : Run.Always step Q s is)
    (h : ∀ s t i, R s t → Q s i → R (step s i) (step' t i)) (hst : R s t) :
    R (Run.after step s is) (Run.after step' t is) := by
  induction is generalizing s t with
  | nil => exact hst
  | cons i is ih => exact ih hQ.2 (h s t i hst hQ.1)

/-- The simulation rule: what holds of the answers of related states, and is kept related by a
step that meets `Q`, holds of all answers along a run that meets `Q` throughout. -/
theorem Gives.agree {R : σ → τ → Prop} {E : α → β → Prop} {Q : σ → ι → Prop}
    (hanswer : ∀ s t i, R s t → ∀ a b, answers s i a → answers' t i b → E a b)
    (hstep : ∀ s t i, R s t → Q s i → R (step s i) (step' t i))
    (hQ : Run.Always step Q s is) (hst : R s t) {as : List α} {bs : List β}
    (ha : Gives step answers s is as) (hb : Gives step' answers' t is bs) :
    List.Forall₂ E as bs := by
  induction is generalizing s t as bs with
  | nil =>
    cases as with
    | cons a as => exact ha.elim
    | nil =>
      cases bs with
      | cons b bs => exact hb.elim
      | nil => exact .nil
  | cons i is ih =>
    cases as with
    | nil => exact ha.elim
    | cons a as =>
      cases bs with
      | nil => exact hb.elim
      | cons b bs =>
        exact .cons (hanswer s t i hst a b ha.1 hb.1)
          (ih hQ.2 (hstep s t i hst hQ.1) ha.2 hb.2)

end Transcript
