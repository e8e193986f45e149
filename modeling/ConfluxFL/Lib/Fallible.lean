import Mathlib.Data.List.Basic
import Mathlib.Data.List.Forall2

/-! Programs that may stop part way and keep the state they had reached: `EStateM`, read
through its results. Each rule says exactly which runs of a compound program end where, so a
proof peels a program apart one operation at a time. -/
namespace Fallible
variable {ε σ α β : Type}

/-- The state a run leaves behind, however it ends. -/
def stateOf : EStateM.Result ε σ α → σ
  | .ok _ s => s
  | .error _ s => s

/-- What a run stopped with, if it did. -/
def stopOf : EStateM.Result ε σ α → Option ε
  | .ok _ _ => none
  | .error e _ => some e

/-- The run completes in a state with `f`. -/
def completesWith (f : σ → Bool) : EStateM.Result ε σ α → Bool
  | .ok _ s => f s
  | .error _ _ => false

theorem exists_ok_of_completesWith {f : σ → Bool} {r : EStateM.Result ε σ α}
    (h : completesWith f r = true) : ∃ a s, r = .ok a s ∧ f s = true := by
  cases r with
  | ok a s => exact ⟨a,s,rfl,h⟩
  | error e s => cases h

/-- The run stops with an error and in a state with `f`. -/
def failsWith (f : ε → σ → Bool) : EStateM.Result ε σ α → Bool
  | .ok _ _ => false
  | .error e s => f e s

theorem exists_error_of_failsWith {f : ε → σ → Bool} {r : EStateM.Result ε σ α}
    (h : failsWith f r = true) : ∃ e s, r = .error e s ∧ f e s = true := by
  cases r with
  | ok a s => cases h
  | error e s => exact ⟨e,s,rfl,h⟩

/-- A program never changes what `f` reads, however it ends. -/
def Keeps {τ : Type} (f : σ → τ) (x : EStateM ε σ α) : Prop := ∀ s, f (stateOf (x s)) = f s

@[simp] theorem pure_apply (a : α) (s : σ) : (pure a : EStateM ε σ α) s = .ok a s := rfl
@[simp] theorem throw_apply (e : ε) (s : σ) : (throw e : EStateM ε σ α) s = .error e s := rfl
@[simp] theorem get_apply (s : σ) : (get : EStateM ε σ σ) s = .ok s s := rfl
@[simp] theorem modify_apply (f : σ → σ) (s : σ) :
    (modify f : EStateM ε σ Unit) s = .ok () (f s) := rfl

theorem bind_apply (x : EStateM ε σ α) (f : α → EStateM ε σ β) (s : σ) :
    (x >>= f) s = match x s with
      | .ok a s' => f a s'
      | .error e s' => .error e s' := rfl

/-- A sequence completes exactly when both halves do. -/
theorem bind_ok_iff {x : EStateM ε σ α} {f : α → EStateM ε σ β} {s t : σ} {b : β} :
    (x >>= f) s = .ok b t ↔ ∃ a s', x s = .ok a s' ∧ f a s' = .ok b t := by
  rw [bind_apply]
  cases hx : x s with
  | ok a s' => simp
  | error e s' => simp

/-- A sequence stops exactly when its first half stops, or completes and the second stops. -/
theorem bind_error_iff {x : EStateM ε σ α} {f : α → EStateM ε σ β} {s t : σ} {e : ε} :
    (x >>= f) s = .error e t ↔
      x s = .error e t ∨ ∃ a s', x s = .ok a s' ∧ f a s' = .error e t := by
  rw [bind_apply]
  cases hx : x s with
  | ok a s' => simp
  | error e' s' => simp

section Keeps
variable {τ : Type} {f : σ → τ} {x : EStateM ε σ α} {g : α → EStateM ε σ β} {s t : σ}

theorem Keeps.ok (h : Keeps f x) {a : α} (hx : x s = .ok a t) : f t = f s := by
  have hs := h s
  rwa [hx] at hs

theorem Keeps.error (h : Keeps f x) {e : ε} (hx : x s = .error e t) : f t = f s := by
  have hs := h s
  rwa [hx] at hs

theorem Keeps.bind (hx : Keeps f x) (hg : ∀ a, Keeps f (g a)) : Keeps f (x >>= g) := by
  intro s
  rw [bind_apply]
  cases h : x s with
  | ok a s' => exact (hg a s').trans (hx.ok h)
  | error e s' => exact hx.error h

theorem Keeps.ite {p : Prop} [Decidable p] {y : EStateM ε σ α} (hx : Keeps f x)
    (hy : Keeps f y) : Keeps f (if p then x else y) := by
  split
  · exact hx
  · exact hy

theorem keeps_pure (a : α) : Keeps f (pure a : EStateM ε σ α) := fun _ => rfl
theorem keeps_throw (e : ε) : Keeps f (throw e : EStateM ε σ α) := fun _ => rfl
theorem keeps_get : Keeps f (get : EStateM ε σ σ) := fun _ => rfl
theorem keeps_modify {m : σ → σ} (h : ∀ s, f (m s) = f s) :
    Keeps f (modify m : EStateM ε σ Unit) := fun s => h s

end Keeps

section Avoids
variable {bad : ε → Prop} {x : EStateM ε σ α} {f : α → EStateM ε σ β} {s t : σ}

/-- A program never stops with a `bad` error. -/
def Avoids (bad : ε → Prop) (x : EStateM ε σ α) : Prop := ∀ s e t, x s = .error e t → ¬bad e

theorem Avoids.bind (hx : Avoids bad x) (hf : ∀ a, Avoids bad (f a)) : Avoids bad (x >>= f) := by
  intro s e t h
  rcases bind_error_iff.mp h with h | ⟨a,s',_,h⟩
  · exact hx s e t h
  · exact hf a s' e t h

theorem avoids_pure (a : α) : Avoids bad (pure a : EStateM ε σ α) := nofun
theorem avoids_get : Avoids bad (get : EStateM ε σ σ) := nofun
theorem avoids_modify (m : σ → σ) : Avoids bad (modify m : EStateM ε σ Unit) := nofun

theorem avoids_throw {e : ε} (h : ¬bad e) : Avoids bad (throw e : EStateM ε σ α) := by
  intro s e' t he
  cases he
  exact h

end Avoids

/-- Two runs that end in the same state: with the same result, or both with an error. -/
inductive Agree : EStateM.Result ε σ α → EStateM.Result ε σ α → Prop
  | same (r : EStateM.Result ε σ α) : Agree r r
  | stopped (e e' : ε) (s : σ) : Agree (.error e s) (.error e' s)

section Agree
variable {x y : EStateM ε σ α} {f g : α → EStateM ε σ β} {s : σ}

theorem Agree.stateOf_eq {r r' : EStateM.Result ε σ α} (h : Agree r r') :
    stateOf r = stateOf r' := by
  cases h <;> rfl

theorem Agree.bind (hx : Agree (x s) (y s)) :
    Agree ((x >>= f) s) ((y >>= f) s) := by
  rw [bind_apply, bind_apply]
  generalize x s = r at hx ⊢
  generalize y s = r' at hx ⊢
  cases hx with
  | stopped e e' t => exact .stopped e e' t
  | same r =>
    cases r with
    | ok a t => exact .same _
    | error e t => exact .same _

/-- After the same first half it is enough that the second halves agree where it completes. -/
theorem agree_bind_of_ok (h : ∀ a t, x s = .ok a t → Agree (f a t) (g a t)) :
    Agree ((x >>= f) s) ((x >>= g) s) := by
  rw [bind_apply, bind_apply]
  cases hx : x s with
  | ok a t => exact h a t hx
  | error e t => exact .same _

end Agree

/-- Two runs that end alike: with the same value or error, in related states. -/
inductive Related (R : σ → σ → Prop) : EStateM.Result ε σ α → EStateM.Result ε σ α → Prop
  | ok (a : α) {s t : σ} (h : R s t) : Related R (.ok a s) (.ok a t)
  | error (e : ε) {s t : σ} (h : R s t) : Related R (.error e s) (.error e t)

section Related
variable {R : σ → σ → Prop} {x y : EStateM ε σ α} {f g : α → EStateM ε σ β} {s t : σ}

theorem Related.stateOf {r r' : EStateM.Result ε σ α} (h : Related R r r') :
    R (stateOf r) (stateOf r') := by
  cases h with
  | ok a h => exact h
  | error e h => exact h

theorem Related.bind (hx : Related R (x s) (y t))
    (hf : ∀ a s' t', R s' t' → Related R (f a s') (g a t')) :
    Related R ((x >>= f) s) ((y >>= g) t) := by
  rw [bind_apply, bind_apply]
  generalize x s = r at hx ⊢
  generalize y t = r' at hx ⊢
  cases hx with
  | ok a h => exact hf a _ _ h
  | error e h => exact .error e h

end Related

section Except
variable {f : α → Except ε β}

@[simp] theorem ok_bind (a : α) (g : α → Except ε β) : (Except.ok a >>= g) = g a := rfl

theorem except_bind_ok_iff {x : Except ε α} {g : α → Except ε β} {b : β} :
    (x >>= g) = .ok b ↔ ∃ a, x = .ok a ∧ g a = .ok b := by
  cases x with
  | ok a => simp [bind, Except.bind]
  | error e => simp [bind, Except.bind]

theorem except_bind_error_iff {x : Except ε α} {g : α → Except ε β} {e : ε} :
    (x >>= g) = .error e ↔ x = .error e ∨ ∃ a, x = .ok a ∧ g a = .error e := by
  cases x with
  | ok a => simp [bind, Except.bind]
  | error e' => simp [bind, Except.bind]

/-- Wrapping the error leaves a result alone. -/
theorem mapError_ok_iff {δ : Type} {x : Except ε α} {wrap : ε → δ} {a : α} :
    x.mapError wrap = .ok a ↔ x = .ok a := by
  cases x with
  | ok b => simp [Except.mapError]
  | error e => simp [Except.mapError]

/-- A traversal stops with an error one of its elements stopped with. -/
theorem mapM_error {xs : List α} {e : ε} (h : xs.mapM f = .error e) : ∃ x ∈ xs, f x = .error e := by
  induction xs with
  | nil => cases h
  | cons x xs ih =>
    rw [List.mapM_cons, except_bind_error_iff] at h
    rcases h with h | ⟨y,_,h⟩
    · exact ⟨x,List.mem_cons_self,h⟩
    · rcases except_bind_error_iff.mp h with h | ⟨ys,_,h⟩
      · obtain ⟨x',hx',he⟩ := ih h
        exact ⟨x',List.mem_cons_of_mem x hx',he⟩
      · cases h

/-- A traversal completes exactly when every element does, with the results in order. -/
theorem mapM_ok_iff {xs : List α} {ys : List β} : xs.mapM f = .ok ys ↔
    (∀ x ∈ xs, ∃ y, f x = .ok y) ∧ ys = xs.filterMap fun x => (f x).toOption := by
  induction xs generalizing ys with
  | nil => simp [pure, Except.pure, eq_comm]
  | cons x xs ih =>
    rw [List.mapM_cons, except_bind_ok_iff]
    constructor
    · rintro ⟨y,hy,h⟩
      rw [except_bind_ok_iff] at h
      obtain ⟨zs,hzs,hys⟩ := h
      obtain ⟨hall,rfl⟩ := ih.mp hzs
      cases hys
      refine ⟨?_,by simp [hy, Except.toOption]⟩
      intro z hz
      rcases List.mem_cons.mp hz with rfl | hz
      · exact ⟨y,hy⟩
      · exact hall z hz
    · rintro ⟨hall,rfl⟩
      obtain ⟨y,hy⟩ := hall x List.mem_cons_self
      refine ⟨y,hy,except_bind_ok_iff.mpr ⟨_,ih.mpr ⟨fun z hz => ?_,rfl⟩,?_⟩⟩
      · exact hall z (List.mem_cons_of_mem x hz)
      · simp [hy, Except.toOption, pure, Except.pure]

/-- A traversal completes with the results of its elements, in order. -/
theorem mapM_ok_iff_forall₂ {xs : List α} {ys : List β} :
    xs.mapM f = .ok ys ↔ List.Forall₂ (fun x y => f x = .ok y) xs ys := by
  induction xs generalizing ys with
  | nil => simp [pure, Except.pure, eq_comm]
  | cons x xs ih =>
    rw [List.mapM_cons, except_bind_ok_iff]
    constructor
    · rintro ⟨y,hy,h⟩
      obtain ⟨zs,hzs,h⟩ := except_bind_ok_iff.mp h
      cases h
      exact .cons hy (ih.mp hzs)
    · rintro (_ | ⟨hy,hys⟩)
      exact ⟨_,hy,except_bind_ok_iff.mpr ⟨_,ih.mpr hys,rfl⟩⟩

/-- A traversal whose elements all complete is a map. -/
theorem mapM_ok {g : α → β} {xs : List α} (h : ∀ x ∈ xs, f x = .ok (g x)) :
    xs.mapM f = .ok (xs.map g) := by
  refine mapM_ok_iff.mpr ⟨fun x hx => ⟨g x,h x hx⟩,?_⟩
  rw [List.filterMap_congr fun x hx => by rw [h x hx], ← List.filterMap_eq_map]
  rfl

/-- A fold whose steps fail for their element alone stops at the first that does. -/
theorem foldlM_error_iff {g : β → α → Except ε β} {refuses : α → Option ε}
    (hg : ∀ b a e, g b a = .error e ↔ refuses a = some e) {xs : List α} {b : β} {e : ε} :
    xs.foldlM g b = .error e ↔ xs.findSome? refuses = some e := by
  induction xs generalizing b with
  | nil => simp [pure, Except.pure]
  | cons x xs ih =>
    rw [List.foldlM_cons, List.findSome?_cons, except_bind_error_iff, hg]
    cases hx : refuses x with
    | some e' =>
      have hstop : g b x = .error e' := (hg b x e').mpr hx
      simp [hstop]
    | none =>
      cases hb : g b x with
      | ok b' => simp [ih]
      | error e' =>
        rw [(hg b x e').mp hb] at hx
        cases hx

/-- A fold fails only with an error of one of its steps. -/
theorem foldlM_error {P : ε → Prop} {g : β → α → Except ε β}
    (hg : ∀ b a e, g b a = .error e → P e) {xs : List α} {b : β} {e : ε}
    (h : xs.foldlM g b = .error e) : P e := by
  induction xs generalizing b with
  | nil => cases h
  | cons x xs ih =>
    rw [List.foldlM_cons] at h
    cases hb : g b x with
    | ok b' =>
      rw [hb] at h
      exact ih h
    | error e' =>
      rw [hb] at h
      obtain rfl := Except.error.inj h
      exact hg b x e' hb

/-- A fold succeeds when each of its steps does, from wherever it starts. -/
theorem foldlM_isOk {g : β → α → Except ε β} {xs : List α}
    (hg : ∀ b, ∀ x ∈ xs, ∃ b', g b x = .ok b') (b : β) : ∃ b', xs.foldlM g b = .ok b' := by
  induction xs generalizing b with
  | nil => exact ⟨b,rfl⟩
  | cons x xs ih =>
    obtain ⟨b₁,hb₁⟩ := hg b x List.mem_cons_self
    obtain ⟨b',hb'⟩ := ih (fun b y hy => hg b y (List.mem_cons_of_mem x hy)) b₁
    exact ⟨b',by rw [List.foldlM_cons, hb₁]; exact hb'⟩

/-- Every element of a fold that succeeds is a step that succeeds. -/
theorem step_of_foldlM_ok {g : β → α → Except ε β} {xs : List α} {b b' : β}
    (h : xs.foldlM g b = .ok b') {x : α} (hx : x ∈ xs) : ∃ c c', g c x = .ok c' := by
  induction xs generalizing b with
  | nil => cases hx
  | cons y xs ih =>
    rw [List.foldlM_cons, except_bind_ok_iff] at h
    obtain ⟨b₁,hb₁,h⟩ := h
    rcases List.mem_cons.mp hx with rfl | hx
    · exact ⟨b,b₁,hb₁⟩
    · exact ih h hx

end Except

section Option

/-- A fold that has an answer keeps what its steps keep. -/
theorem foldlM_some_of_step {P : β → Prop} {g : β → α → Option β}
    (hstep : ∀ b a b', P b → g b a = some b' → P b') {xs : List α} {b b' : β} (hb : P b)
    (h : xs.foldlM g b = some b') : P b' := by
  induction xs generalizing b with
  | nil => rwa [← Option.some.inj h]
  | cons a xs ih =>
    rw [List.foldlM_cons] at h
    obtain ⟨c,hc,h⟩ := Option.bind_eq_some_iff.mp h
    exact ih (hstep b a c hb hc) h

end Option
end Fallible
