import ConfluxFL.Node

/-! The bridges and the wire between them and the server. A request or an answer may arrive
late or never; an attempt may fail on the bridge while its request is still on the way, and the
server takes or refuses a request when it arrives. -/
namespace ConfluxFL

/-- One attempt of a bridge run, as it is on the wire. -/
structure Request (ι : Type) where
  call : ℕ
  number : ℕ
  job : Job ι
  deriving DecidableEq, Repr

/-- The delta of a request, as the server put it together. -/
structure Copy (ι : Type) where
  request : Request ι
  delta : ClientDelta
  deriving DecidableEq, Repr

structure Answer (ι : Type) where
  request : Request ι
  acceptance : Option (Copy ι)
  deriving DecidableEq, Repr

variable {ι : Type}

instance : HasRound (Copy ι) := ⟨fun x => x.delta.round⟩

def Copy.owner (x : Copy ι) : ι := x.request.job.owner

def Copy.train (x : Copy ι) : ℕ := x.request.job.train

def Request.copy (q : Request ι) : Option (Copy ι) := (reassemble q.job.chunks).map (.mk q)

theorem Request.copy_eq_some {q : Request ι} {x : Copy ι} :
    q.copy = some x ↔ x.request = q ∧ reassemble q.job.chunks = some x.delta := by
  rw [Request.copy, Option.map_eq_some_iff]
  constructor
  · rintro ⟨delta,h,rfl⟩
    exact ⟨rfl,h⟩
  · rintro ⟨rfl,h⟩
    exact ⟨x.delta,h,rfl⟩

/-- `received`, `accepted` and `lost` record what reached the server, what it took, and the
numbers of the attempts that failed on the wire; no function reads them. -/
structure Network (ι : Type) where
  calls : List (BridgeCall ι (Copy ι))
  requests : List (Request ι)
  answers : List (Answer ι)
  sent : ℕ
  received : List (Copy ι)
  accepted : List (Copy ι)
  lost : List ℕ
  deriving DecidableEq, Repr

namespace Network
variable (n : Network ι)

def empty : Network ι := ⟨[],[],[],0,[],[],[]⟩

def jobs : List (Job ι) := n.calls.map BridgeCall.toJob

/-- A new run of a bridge. -/
def submit (call : BridgeCall ι (Copy ι)) : Network ι := { n with calls := n.calls++[call] }

def update (c : ℕ) (f : BridgeCall ι (Copy ι) → BridgeCall ι (Copy ι)) : Network ι :=
  { n with calls := n.calls.modify c f }

def attempt (c : ℕ) : Network ι :=
  match n.calls[c]? with
  | some call =>
    match call.status with
    | .ready _ => { n.update c fun call => call.onAttempt n.sent with
        requests := n.requests++[⟨c,n.sent,call.toJob⟩]
        sent := n.sent+1 }
    | _ => n
  | none => n

/-- A request arrived and was refused. -/
def refused (q : Request ι) : Network ι :=
  { n with
    requests := n.requests.filter fun q' => q'.number ≠ q.number
    answers := n.answers++[⟨q,none⟩]
    received := n.received++q.copy.toList }

/-- A request arrived and was taken. -/
def taken (q : Request ι) (x : Copy ι) : Network ι :=
  { n with
    requests := n.requests.filter fun q' => q'.number ≠ q.number
    answers := n.answers++[⟨q,some x⟩]
    received := n.received++[x]
    accepted := n.accepted++[x] }

/-- A request reaches the server. -/
def deliver (number : ℕ) (buffer : Option (RoundBuffer (Copy ι))) :
    Network ι × Option (RoundBuffer (Copy ι)) :=
  match n.requests.find? fun q => q.number = number with
  | none => (n,buffer)
  | some q =>
    match q.copy,submitDelta (.mk q) buffer q.job.chunks with
    | some x,.ok (_,b) => (n.taken q x,some b)
    | _,_ => (n.refused q,buffer)

/-- An answer reaches its bridge, which may have given the attempt up. -/
def answer (number : ℕ) : Network ι :=
  match n.answers.find? fun p => p.request.number = number with
  | none => n
  | some p => { n.update p.request.call fun call => call.onResult number p.acceptance with
      answers := n.answers.filter fun p' => p'.request.number ≠ number }

/-- The attempt a bridge waits for ends in an error of the wire. -/
def attemptFails (c : ℕ) : Network ι :=
  match n.calls[c]? with
  | some call =>
    match call.status with
    | .waiting _ number => { n.update c fun call => call.onResult number none with
        lost := n.lost++[number] }
    | _ => n
  | none => n

section Calls
variable {n} {c c' : ℕ} {f : BridgeCall ι (Copy ι) → BridgeCall ι (Copy ι)}

theorem jobs_update (n : Network ι) (c : ℕ) (hf : ∀ call, (f call).toJob = call.toJob) :
    (n.update c f).jobs = n.jobs := by
  apply List.ext_getElem?
  intro k
  rw [jobs, update, List.getElem?_map, List.getElem?_modify, jobs, List.getElem?_map]
  cases n.calls[k]? with
  | none => rfl
  | some call =>
    by_cases hk : c = k
    · simp [hk, hf]
    · simp [hk]

theorem jobs_of_call {call : BridgeCall ι (Copy ι)} (h : n.calls[c]? = some call) :
    n.jobs[c]? = some call.toJob := by
  rw [jobs, List.getElem?_map, h]
  rfl

theorem getElem?_submit {j : Job ι} {call : BridgeCall ι (Copy ι)} (h : n.jobs[c]? = some j) :
    (n.submit call).jobs[c]? = some j := by
  obtain ⟨hc,_⟩ := List.getElem?_eq_some_iff.mp h
  have happend : (n.submit call).jobs = n.jobs++[call.toJob] := List.map_append
  rw [happend, List.getElem?_append_left hc, h]

/-- A changed call is the one that was changed, or it is as before. -/
theorem getElem?_update_cases {call : BridgeCall ι (Copy ι)}
    (h : (n.update c f).calls[c']? = some call) :
    (c' ≠ c ∧ n.calls[c']? = some call) ∨
      ∃ old, c' = c ∧ n.calls[c]? = some old ∧ call = f old := by
  rw [update, List.getElem?_modify] at h
  obtain ⟨old,hold,h⟩ := Option.map_eq_some_iff.mp h
  by_cases hc : c = c'
  · subst hc
    rw [if_pos rfl] at h
    exact .inr ⟨old,rfl,hold,h.symm⟩
  · rw [if_neg hc] at h
    subst h
    exact .inl ⟨Ne.symm hc,hold⟩

theorem getElem?_update_self {call : BridgeCall ι (Copy ι)} (h : n.calls[c]? = some call) :
    (n.update c f).calls[c]? = some (f call) := by
  rw [update, List.getElem?_modify, h]
  simp

/-- A run that a change does not touch is as before. -/
theorem getElem?_update_of_fixed {call : BridgeCall ι (Copy ι)} (h : n.calls[c']? = some call)
    (hf : c' = c → f call = call) : (n.update c f).calls[c']? = some call := by
  by_cases hc : c' = c
  · subst hc
    rw [getElem?_update_self h, hf rfl]
  · rw [update, List.getElem?_modify_ne f n.calls (Ne.symm hc), h]

end Calls

/-- What a delivery can do. -/
theorem deliver_cases (number : ℕ) (buffer : Option (RoundBuffer (Copy ι))) :
    n.deliver number buffer = (n,buffer) ∨ ∃ q ∈ n.requests,
      n.deliver number buffer = (n.refused q,buffer) ∨
      ∃ x b b', q.copy = some x ∧ buffer = some b ∧ b.push x = .ok b' ∧
        n.deliver number buffer = (n.taken q x,some b') := by
  unfold deliver
  cases hq : n.requests.find? fun q => q.number = number with
  | none => exact .inl rfl
  | some q =>
    refine .inr ⟨q,List.mem_of_find?_eq_some hq,?_⟩
    dsimp only
    split
    · rename_i x ack b' hx hsubmit
      obtain ⟨delta,b,hdelta,hb,hpush⟩ := push_of_submitDelta hsubmit
      have hcopy : q.copy = some ⟨q,delta⟩ := Request.copy_eq_some.mpr ⟨rfl,hdelta⟩
      cases hx.symm.trans hcopy
      exact .inr ⟨_,b,b',hx,hb,hpush,rfl⟩
    · exact .inl rfl

@[simp] theorem jobs_attempt (c : ℕ) : (n.attempt c).jobs = n.jobs := by
  unfold attempt
  split
  · split
    · exact jobs_update n c fun call => call.toJob_onAttempt n.sent
    · rfl
  · rfl

@[simp] theorem jobs_deliver (number : ℕ) (buffer : Option (RoundBuffer (Copy ι))) :
    (n.deliver number buffer).1.jobs = n.jobs := by
  rcases n.deliver_cases number buffer with heq | ⟨q,_,heq | ⟨x,b,b',_,_,_,heq⟩⟩
  · rw [heq]
  · rw [heq]
    rfl
  · rw [heq]
    rfl

@[simp] theorem jobs_answer (number : ℕ) : (n.answer number).jobs = n.jobs := by
  unfold answer
  split
  · rfl
  · exact jobs_update n _ fun call => call.toJob_onResult number _

@[simp] theorem jobs_attemptFails (c : ℕ) : (n.attemptFails c).jobs = n.jobs := by
  unfold attemptFails
  split
  · split
    · exact jobs_update n c fun call => call.toJob_onResult _ none
    · rfl
  · rfl

@[simp] theorem accepted_attempt (c : ℕ) : (n.attempt c).accepted = n.accepted := by
  unfold attempt
  split
  · split <;> rfl
  · rfl

@[simp] theorem accepted_answer (number : ℕ) : (n.answer number).accepted = n.accepted := by
  unfold answer
  split <;> rfl

@[simp] theorem accepted_attemptFails (c : ℕ) : (n.attemptFails c).accepted = n.accepted := by
  unfold attemptFails
  split
  · split <;> rfl
  · rfl

/-- Everything on the wire and at the server comes from a run of a bridge, and what a bridge
was told was taken was taken. -/
structure Traced (n : Network ι) : Prop where
  requests : ∀ q ∈ n.requests, n.jobs[q.call]? = some q.job
  received : ∀ x ∈ n.received, n.jobs[x.request.call]? = some x.request.job ∧
    reassemble x.request.job.chunks = some x.delta
  accepted : n.accepted ⊆ n.received
  answers : ∀ p ∈ n.answers, ∀ x, p.acceptance = some x → x ∈ n.accepted ∧ x.request = p.request
  answered : ∀ c call x, n.calls[c]? = some call → call.status = .answered (some x) →
    x ∈ n.accepted ∧ x.request.call = c

namespace Traced
variable {n}

theorem start : Traced (empty : Network ι) :=
  ⟨by simp [empty],by simp [empty],by simp [empty],by simp [empty],by simp [empty]⟩

theorem submit (h : n.Traced) {call : BridgeCall ι (Copy ι)}
    (hcall : ∀ x, call.status ≠ .answered (some x)) : (n.submit call).Traced where
  requests q hq := getElem?_submit (h.requests q hq)
  received x hx := ⟨getElem?_submit (h.received x hx).1,(h.received x hx).2⟩
  accepted := h.accepted
  answers := h.answers
  answered c call' x hc hx := by
    rcases Nat.lt_or_ge c n.calls.length with hlt | hge
    · rw [Network.submit, List.getElem?_append_left hlt] at hc
      exact h.answered c call' x hc hx
    · rw [Network.submit, List.getElem?_append_right hge, List.getElem?_singleton] at hc
      split at hc
      · cases hc
        exact absurd hx (hcall x)
      · cases hc

/-- Changing the status of one run keeps the trace when it records no acceptance of its own. -/
theorem update (h : n.Traced) {c : ℕ} {f : BridgeCall ι (Copy ι) → BridgeCall ι (Copy ι)}
    (hf : ∀ call, (f call).toJob = call.toJob)
    (hstatus : ∀ call x, (f call).status = .answered (some x) →
      call.status = .answered (some x) ∨ x ∈ n.accepted ∧ x.request.call = c) :
    (n.update c f).Traced where
  requests q hq := by
    rw [jobs_update n c hf]
    exact h.requests q hq
  received x hx := by
    rw [jobs_update n c hf]
    exact h.received x hx
  accepted := h.accepted
  answers := h.answers
  answered c' call x hcall hx := by
    obtain ⟨_,hcall⟩ | ⟨old,rfl,hold,rfl⟩ := getElem?_update_cases hcall
    · exact h.answered c' call x hcall hx
    · rcases hstatus old x hx with hx | hx
      · exact h.answered c' old x hold hx
      · exact hx

theorem attempt (h : n.Traced) (c : ℕ) : (n.attempt c).Traced := by
  unfold Network.attempt
  split
  · rename_i call hcall
    split
    · have hmod : (n.update c fun call => call.onAttempt n.sent).Traced := by
        apply h.update fun call => call.toJob_onAttempt n.sent
        intro call x hx
        unfold BridgeCall.onAttempt at hx
        split at hx
        · cases hx
        · exact .inl hx
      refine ⟨?_,hmod.received,hmod.accepted,hmod.answers,hmod.answered⟩
      intro q hq
      rcases List.mem_append.mp hq with hq | hq
      · exact hmod.requests q hq
      · rw [List.mem_singleton.mp hq]
        exact (congrArg (fun jobs => jobs[c]?) (jobs_update n c fun call =>
          call.toJob_onAttempt n.sent)).trans (jobs_of_call hcall)
    · exact h
  · exact h

theorem refused (h : n.Traced) {q : Request ι} (hq : q ∈ n.requests) : (n.refused q).Traced where
  requests q' hq' := h.requests q' (List.mem_of_mem_filter hq')
  received x hx := by
    rcases List.mem_append.mp hx with hx | hx
    · exact h.received x hx
    · obtain ⟨hrequest,hdelta⟩ := Request.copy_eq_some.mp (Option.mem_toList.mp hx)
      rw [hrequest]
      exact ⟨h.requests q hq,hdelta⟩
  accepted x hx := List.mem_append_left _ (h.accepted hx)
  answers p hp x hx := by
    rcases List.mem_append.mp hp with hp | hp
    · exact h.answers p hp x hx
    · rw [List.mem_singleton.mp hp] at hx
      cases hx
  answered := h.answered

theorem taken (h : n.Traced) {q : Request ι} {x : Copy ι} (hq : q ∈ n.requests)
    (hx : q.copy = some x) : (n.taken q x).Traced := by
  obtain ⟨hrequest,hdelta⟩ := Request.copy_eq_some.mp hx
  refine ⟨?_,?_,?_,?_,?_⟩
  · intro q' hq'
    exact h.requests q' (List.mem_of_mem_filter hq')
  · intro y hy
    rcases List.mem_append.mp hy with hy | hy
    · exact h.received y hy
    · rw [List.mem_singleton.mp hy, hrequest]
      exact ⟨h.requests q hq,hdelta⟩
  · intro y hy
    rcases List.mem_append.mp hy with hy | hy
    · exact List.mem_append_left _ (h.accepted hy)
    · exact List.mem_append_right _ hy
  · intro p hp y hy
    rcases List.mem_append.mp hp with hp | hp
    · exact ⟨List.mem_append_left _ (h.answers p hp y hy).1,(h.answers p hp y hy).2⟩
    · rw [List.mem_singleton.mp hp] at hy ⊢
      cases hy
      exact ⟨List.mem_append_right _ (List.mem_singleton.mpr rfl),hrequest⟩
  · intro c call y hcall hy
    obtain ⟨hmem,hc⟩ := h.answered c call y hcall hy
    exact ⟨List.mem_append_left _ hmem,hc⟩

theorem deliver (h : n.Traced) (number : ℕ) (buffer : Option (RoundBuffer (Copy ι))) :
    (n.deliver number buffer).1.Traced := by
  rcases n.deliver_cases number buffer with heq | ⟨q,hq,heq | ⟨x,b,b',hx,_,_,heq⟩⟩
  · rw [heq]
    exact h
  · rw [heq]
    exact h.refused hq
  · rw [heq]
    exact h.taken hq hx

theorem status_onResult {call : BridgeCall ι (Copy ι)} {number : ℕ} {acceptance : Option (Copy ι)}
    {x : Copy ι} (h : (call.onResult number acceptance).status = .answered (some x)) :
    call.status = .answered (some x) ∨ acceptance = some x := by
  unfold BridgeCall.onResult at h
  split at h
  · rename_i hwait
    split at h
    · exact .inl h
    · split at h
      · cases h
        exact .inr rfl
      · split at h
        · cases h
        · cases h
  · exact .inl h

theorem answer (h : n.Traced) (number : ℕ) : (n.answer number).Traced := by
  unfold Network.answer
  split
  · exact h
  · rename_i p hp
    have hmem := List.mem_of_find?_eq_some hp
    have hmod : (n.update p.request.call fun call =>
        call.onResult number p.acceptance).Traced := by
      apply h.update fun call => call.toJob_onResult number p.acceptance
      intro call x hx
      rcases status_onResult hx with hx | hx
      · exact .inl hx
      · obtain ⟨haccepted,hrequest⟩ := h.answers p hmem x hx
        exact .inr ⟨haccepted,by rw [hrequest]⟩
    exact ⟨hmod.requests,hmod.received,hmod.accepted,
      fun p' hp' => h.answers p' (List.mem_of_mem_filter hp'),hmod.answered⟩

theorem attemptFails (h : n.Traced) (c : ℕ) : (n.attemptFails c).Traced := by
  unfold Network.attemptFails
  split
  · split
    · rename_i a number hstatus
      have hmod : (n.update c fun call => call.onResult number none).Traced := by
        apply h.update fun call => call.toJob_onResult number none
        intro call x hx
        rcases status_onResult hx with hx | hx
        · exact .inl hx
        · cases hx
      exact ⟨hmod.requests,hmod.received,hmod.accepted,hmod.answers,hmod.answered⟩
    · exact h
  · exact h

end Traced
end Network
end ConfluxFL
