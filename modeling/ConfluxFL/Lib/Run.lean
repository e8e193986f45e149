import Mathlib.Data.List.Basic

/-! Runs of a deterministic step function over a list of events. A property of steps holds
`Always` along a run when it holds at every event, in the state the run has reached there;
the invariant rule turns facts about one step into facts about whole runs. -/
namespace Run
variable {σ ε : Type*} (step : σ → ε → σ)

/-- The state after a list of events. -/
def after (s : σ) (es : List ε) : σ := es.foldl step s

@[simp] theorem after_nil (s : σ) : after step s [] = s := rfl
@[simp] theorem after_cons (s : σ) (e : ε) (es : List ε) :
    after step s (e::es) = after step (step s e) es := rfl

theorem after_append (s : σ) (es es' : List ε) :
    after step s (es++es') = after step (after step s es) es' := List.foldl_append

/-- `P` relates every state of the run to the event taken there. -/
def Always (P : σ → ε → Prop) : σ → List ε → Prop
  | _, [] => True
  | s, e::es => P s e ∧ Always P (step s e) es

instance Always.decidable {P : σ → ε → Prop} [∀ s e, Decidable (P s e)] :
    (s : σ) → (es : List ε) → Decidable (Always step P s es)
  | _, [] => isTrue trivial
  | s, e::es =>
    have := Always.decidable (P := P) (step s e) es
    inferInstanceAs (Decidable (P s e ∧ Always step P (step s e) es))

variable {step} {P Q R : σ → ε → Prop} {s : σ} {es : List ε}

theorem Always.mono (h : Always step P s es) (hpq : ∀ s e, P s e → Q s e) :
    Always step Q s es := by
  induction es generalizing s with
  | nil => trivial
  | cons e es ih => exact ⟨hpq s e h.1, ih h.2⟩

theorem Always.and (h : Always step P s es) (h' : Always step Q s es) :
    Always step (fun s e => P s e ∧ Q s e) s es := by
  induction es generalizing s with
  | nil => trivial
  | cons e es ih => exact ⟨⟨h.1,h'.1⟩,ih h.2 h'.2⟩

theorem always_append {es' : List ε} :
    Always step P s (es++es') ↔ Always step P s es ∧ Always step P (after step s es) es' := by
  induction es generalizing s with
  | nil => simp [Always]
  | cons e es ih => rw [List.cons_append, Always, Always, after_cons, ih, and_assoc]

/-- What every event of a list satisfies holds along any run over it. -/
theorem always_of_forall_mem {p : ε → Prop} (h : ∀ e ∈ es, p e) :
    Always step (fun _ e => p e) s es := by
  induction es generalizing s with
  | nil => trivial
  | cons e es ih =>
    exact ⟨h e List.mem_cons_self,ih fun e' he' => h e' (List.mem_cons_of_mem e he')⟩

theorem always_congr (h : ∀ s e, P s e ↔ Q s e) : Always step P s es ↔ Always step Q s es :=
  ⟨fun hp => hp.mono fun s e => (h s e).mp, fun hq => hq.mono fun s e => (h s e).mpr⟩

/-- The invariant rule: if every step that meets `C` from a state with `I` keeps `I` and
satisfies `P`, then a run that starts with `I` and meets `C` throughout satisfies `P`
throughout. -/
theorem Always.of_invariant (I : σ → Prop) (hs : I s) (hC : Always step Q s es)
    (hstep : ∀ s e, I s → Q s e → P s e ∧ I (step s e)) : Always step P s es := by
  induction es generalizing s with
  | nil => trivial
  | cons e es ih =>
    obtain ⟨hp,hi⟩ := hstep s e hs hC.1
    exact ⟨hp,ih hi hC.2⟩

/-- Under an invariant that `Q` keeps, properties that agree step by step agree along runs. -/
theorem always_iff_of_invariant (I : σ → Prop) (hs : I s) (h : ∀ s e, I s → (P s e ↔ Q s e))
    (hstep : ∀ s e, I s → Q s e → I (step s e)) : Always step P s es ↔ Always step Q s es := by
  induction es generalizing s with
  | nil => exact Iff.rfl
  | cons e es ih =>
    constructor
    · rintro ⟨hp,hrest⟩
      have hq := (h s e hs).mp hp
      exact ⟨hq,(ih (hstep s e hs hq)).mp hrest⟩
    · rintro ⟨hq,hrest⟩
      exact ⟨(h s e hs).mpr hq,(ih (hstep s e hs hq)).mpr hrest⟩

/-- A run that carries more state satisfies what the run it projects to satisfies. -/
theorem always_map {τ : Type*} {step' : τ → ε → τ} {t : τ} (f : τ → σ)
    (hstep : ∀ t e, f (step' t e) = step (f t) e) :
    Always step' (fun t e => P (f t) e) t es ↔ Always step P (f t) es := by
  induction es generalizing t with
  | nil => exact Iff.rfl
  | cons e es ih => rw [Always, Always, ih, hstep]

/-- The state a run reaches keeps the invariant. -/
theorem after_of_invariant (I : σ → Prop) (hs : I s) (hC : Always step Q s es)
    (hstep : ∀ s e, I s → Q s e → I (step s e)) : I (after step s es) := by
  induction es generalizing s with
  | nil => exact hs
  | cons e es ih => exact ih (hstep s e hs hC.1) hC.2

/-- What every step keeps, every run keeps. -/
theorem after_of_kept (I : σ → Prop) (hs : I s) (hstep : ∀ s e, I s → I (step s e)) :
    I (after step s es) :=
  after_of_invariant I hs (always_of_forall_mem (p := fun _ => True) fun _ _ => trivial)
    fun s e h _ => hstep s e h

/-- `Always` speaks about every way of cutting the run at an event. -/
theorem always_iff_forall_split :
    Always step P s es ↔ ∀ pre e post, es = pre++e::post → P (after step s pre) e := by
  constructor
  · intro h pre e post hes
    induction pre generalizing s es with
    | nil => subst hes; exact h.1
    | cons a pre ih => subst hes; exact ih h.2 rfl
  · intro h
    induction es generalizing s with
    | nil => trivial
    | cons e es ih =>
      refine ⟨h [] e es rfl,ih fun pre e' post hes => ?_⟩
      exact h (e::pre) e' post (by rw [hes]; rfl)

/-- What holds in every state of a run holds at its start and after each of its events. -/
theorem forall_prefix_iff {G : σ → Prop} : (∀ pre, pre <+: es → G (after step s pre)) ↔
    G s ∧ Always step (fun s e => G (step s e)) s es := by
  induction es generalizing s with
  | nil => simp [Always]
  | cons e es ih =>
    rw [Always, ← ih]
    constructor
    · intro h
      exact ⟨h [] List.nil_prefix,fun pre hpre => h (e::pre) (List.cons_prefix_cons.mpr ⟨rfl,hpre⟩)⟩
    · rintro ⟨hs,hrest⟩ pre hpre
      cases pre with
      | nil => exact hs
      | cons a pre =>
        obtain ⟨rfl,htail⟩ := List.cons_prefix_cons.mp hpre
        exact hrest pre htail

/-- What is on record after a run was there at its start, or one of its events put it there. -/
theorem mem_after {τ : Type*} (f : σ → List τ) {Origin : σ → ε → τ → Prop}
    (hstep : ∀ s e x, x ∈ f (step s e) → x ∈ f s ∨ Origin s e x) {x : τ}
    (h : x ∈ f (after step s es)) :
    x ∈ f s ∨ ∃ pre e post, es = pre++e::post ∧ Origin (after step s pre) e x := by
  induction es generalizing s with
  | nil => exact .inl h
  | cons e es ih =>
    rcases ih h with hx | ⟨pre,e',post,rfl,horigin⟩
    · rcases hstep s e x hx with hx | horigin
      · exact .inl hx
      · exact .inr ⟨[],e,es,rfl,horigin⟩
    · exact .inr ⟨e::pre,e',post,rfl,horigin⟩

/-- At most `n` rounds of a loop whose body may break. -/
def bounded {σ : Type*} (body : σ → Option σ) : ℕ → σ → σ
  | 0, s => s
  | n+1, s =>
    match body s with
    | none => s
    | some s' => bounded body n s'

/-- What the body keeps, the loop keeps. -/
theorem bounded_of_invariant {σ : Type*} {body : σ → Option σ} (I : σ → Prop)
    (hbody : ∀ s s', I s → body s = some s' → I s') (n : ℕ) {s : σ} (hs : I s) :
    I (bounded body n s) := by
  induction n generalizing s with
  | zero => exact hs
  | succ n ih =>
    rw [bounded]
    split
    · exact hs
    · rename_i s' hs'
      exact ih (hbody s s' hs hs')

/-- Two loops that go in step, state by state, end in step. -/
theorem bounded_map {σ τ : Type*} {body : σ → Option σ} {body' : τ → Option τ} (f : σ → τ)
    (I : σ → Prop) (hbody : ∀ s s', I s → body s = some s' → I s')
    (hstep : ∀ s, I s → body' (f s) = (body s).map f) (n : ℕ) {s : σ} (hs : I s) :
    bounded body' n (f s) = f (bounded body n s) := by
  induction n generalizing s with
  | zero => rfl
  | succ n ih =>
    rw [bounded, bounded, hstep s hs]
    cases h : body s with
    | none => rfl
    | some s' => exact ih (hbody s s' hs h)

end Run
