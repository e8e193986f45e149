import ConfluxFL.Protocol.RoundLoop
import ConfluxFL.Protocol.Serving
import ConfluxFL.Server.Auth
import ConfluxFL.Server.Dispatcher

/-! Who takes part in rounds. The server's five calls run between the moves of its round loop,
in any order and by anybody; only one of them asks who the caller is. What an attempt computes
is left out, and so is the node in between, which registers whoever asks and passes a client's
chunks on under the id they carry. -/
namespace ConfluxFL
open Run

/-- A registration that was accepted, with the allow-list as it stood then. -/
structure Admission where
  call : RegisterCall
  allowlist : InMemoryNodeAllowlist

/-- The state behind the calls. `admissions` lists every registration that succeeded and is
read by no call. -/
structure Dispatcher where
  registry : InMemoryRegistry
  allowlist : InMemoryNodeAllowlist
  store : AnyStore
  controlVariate : Option (List F32)
  loop : RoundLoop ClientDelta
  admissions : List Admission

inductive DispatcherEvent where
  | register (call : RegisterCall) (now : ℕ) (outage : Outage)
  | heartbeat (clientId : String) (now : ℕ)
  | evictExpired (ttl now : ℕ)
  | allow (clientId : String) (identity : NodeIdentity)
  | revoke (clientId : String)
  | fetchTask (clientId : String)
  | submitDelta (chunks : List DeltaChunk)
  | move (m : LoopMove)
  | saves (weights : List F32) (controlVariate : Option (List F32))
  | restarts (durable : Bool)

namespace Dispatcher

/-- A first process, around the store and the allow-list of its deployment. -/
def start (store : AnyStore) (allowlist : InMemoryNodeAllowlist) : Dispatcher :=
  ⟨.new,allowlist,store,none,.start,[]⟩

/-- The task a pull-mode client is handed. -/
def fetchTask (s : Dispatcher) (_clientId : String) : Except DispatchError TaskResponse :=
  match s.store.loadLatestWeights with
  | .ok weights => .ok (taskOf s.loop.round weights s.controlVariate)
  | .error e => .error (.other e.text)

def onRegister (g : Gates) (s : Dispatcher) (call : RegisterCall) (now : ℕ) (outage : Outage) :
    Dispatcher :=
  match register g s.allowlist s.registry call now outage with
  | .ok (_,registry) =>
    { s with registry := registry, admissions := s.admissions++[⟨call,s.allowlist⟩] }
  | .error _ => s

def onHeartbeat (s : Dispatcher) (clientId : String) (now : ℕ) : Dispatcher :=
  match s.registry.heartbeat clientId now with
  | .ok registry => { s with registry := registry }
  | .error _ => s

def onSubmit (s : Dispatcher) (chunks : List DeltaChunk) : Dispatcher :=
  match submitDelta id s.loop.buffer chunks with
  | .ok (_,buffer) => { s with loop := { s.loop with buffer := some buffer } }
  | .error _ => s

/-- What a new process finds: with durable backends who was registered and allowed, and in
any case the store. -/
def onRestart (s : Dispatcher) (durable : Bool) : Dispatcher :=
  { s with
    registry := if durable then s.registry else .new
    allowlist := if durable then s.allowlist else .new
    controlVariate := none
    loop := .start }

def step (g : Gates) (s : Dispatcher) : DispatcherEvent → Dispatcher
  | .register call now outage => s.onRegister g call now outage
  | .heartbeat clientId now => s.onHeartbeat clientId now
  | .evictExpired ttl now => { s with registry := s.registry.evictExpired ttl now }
  | .allow clientId identity => { s with allowlist := s.allowlist.allow clientId identity }
  | .revoke clientId => { s with allowlist := s.allowlist.revoke clientId }
  | .fetchTask _ => s
  | .submitDelta chunks => s.onSubmit chunks
  | .move m => { s with loop := s.loop.move m }
  | .saves weights controlVariate =>
    { s with store := s.store.saveCheckpoint s.loop.round weights, controlVariate := controlVariate }
  | .restarts durable => s.onRestart durable

/-- What a round holds: the deltas in its buffer, and the batch it has flushed. -/
def held (s : Dispatcher) : List ClientDelta :=
  (s.loop.buffer.map RoundBuffer.deltas).getD []++s.loop.flushed

/-- A registration of the client succeeded. -/
def Registered (s : Dispatcher) (clientId : String) : Prop :=
  ∃ a ∈ s.admissions, a.call.clientId = clientId

/-- A registration of the client succeeded, and it had passed the configured gates. -/
def Admitted (g : Gates) (s : Dispatcher) (clientId : String) : Prop :=
  ∃ a ∈ s.admissions, a.call.clientId = clientId ∧ PassesGates g a.allowlist a.call

/-- Only admitted clients contribute. -/
def OnlyAdmitted (g : Gates) (s : Dispatcher) : Prop :=
  ∀ delta ∈ s.held, s.Admitted g delta.clientId

/-- A task is handed to admitted clients only. -/
def HandsOutToAdmitted (g : Gates) (s : Dispatcher) : DispatcherEvent → Prop
  | .fetchTask clientId => ∀ task, s.fetchTask clientId = .ok task → s.Admitted g clientId
  | _ => True

/-- A buffer for that round is open. -/
def Collects (s : Dispatcher) (round : ℕ) : Prop :=
  ∃ quorum deltas, s.loop.buffer = some ⟨round,quorum,.opened deltas⟩

/-- Whoever calls at a moment when the call is served has registered before: a submission finds
the buffer of its round open, a request for a task finds a checkpoint. -/
def CallerRegistered (s : Dispatcher) : DispatcherEvent → Prop
  | .submitDelta (first::_) => s.Collects first.round → s.Registered first.clientId
  | .fetchTask clientId =>
    (∃ weights, s.store.loadLatestWeights = .ok weights) → s.Registered clientId
  | _ => True

/-- Every admission is one past the gates, and nobody else has a delta in the round. -/
structure Guarded (g : Gates) (s : Dispatcher) : Prop where
  passed : ∀ a ∈ s.admissions, PassesGates g a.allowlist a.call
  contributors : ∀ delta ∈ s.held, s.Registered delta.clientId

section Admissions
variable {g : Gates} {s : Dispatcher}

theorem admitted_iff_registered (h : ∀ a ∈ s.admissions, PassesGates g a.allowlist a.call)
    (clientId : String) : s.Admitted g clientId ↔ s.Registered clientId := by
  constructor
  · rintro ⟨a,ha,hid,_⟩
    exact ⟨a,ha,hid⟩
  · rintro ⟨a,ha,hid⟩
    exact ⟨a,ha,hid,h a ha⟩

/-- What one event does to the list of admissions. -/
theorem admissions_step (g : Gates) (s : Dispatcher) (e : DispatcherEvent) :
    (s.step g e).admissions = s.admissions ∨ ∃ call, PassesGates g s.allowlist call ∧
      (s.step g e).admissions = s.admissions++[⟨call,s.allowlist⟩] := by
  cases e with
  | register call now outage =>
    simp only [step, onRegister]
    split
    · rename_i answer registry hok
      exact .inr ⟨call,passesGates_of_register hok,rfl⟩
    · exact .inl rfl
  | heartbeat clientId now =>
    simp only [step, onHeartbeat]
    split <;> exact .inl rfl
  | submitDelta chunks =>
    simp only [step, onSubmit]
    split <;> exact .inl rfl
  | _ => exact .inl rfl

/-- Nobody is admitted past a gate. -/
theorem passed_step (h : ∀ a ∈ s.admissions, PassesGates g a.allowlist a.call)
    (e : DispatcherEvent) : ∀ a ∈ (s.step g e).admissions, PassesGates g a.allowlist a.call := by
  rcases admissions_step g s e with heq | ⟨call,hpasses,heq⟩
  · rwa [heq]
  · rw [heq]
    intro a ha
    rcases List.mem_append.mp ha with ha | ha
    · exact h a ha
    · cases List.mem_singleton.mp ha
      exact hpasses

/-- A registration is never forgotten. -/
theorem Registered.step {clientId : String} (h : s.Registered clientId) (e : DispatcherEvent) :
    (s.step g e).Registered clientId := by
  obtain ⟨a,ha,hid⟩ := h
  rcases admissions_step g s e with heq | ⟨call,_,heq⟩
  · exact ⟨a,heq ▸ ha,hid⟩
  · refine ⟨a,?_,hid⟩
    rw [heq]
    exact List.mem_append_left _ ha

end Admissions

section Held
variable {s : Dispatcher}

/-- The loop adds nothing to what a round holds. -/
theorem held_move (l : RoundLoop ClientDelta) (m : LoopMove) :
    ((l.move m).buffer.map RoundBuffer.deltas).getD []++(l.move m).flushed ⊆
      (l.buffer.map RoundBuffer.deltas).getD []++l.flushed := by
  cases m with
  | opens quorum =>
    simp only [RoundLoop.move, RoundLoop.opens]
    split
    · exact List.nil_subset _
    · exact List.Subset.refl _
  | failsToOpen ending =>
    simp only [RoundLoop.move, RoundLoop.failsToOpen]
    split
    · exact List.append_subset.mpr ⟨List.subset_append_left _ _,List.nil_subset _⟩
    · exact List.Subset.refl _
  | flush timedOut =>
    rw [RoundLoop.move]
    rcases l.flush_cases timedOut with heq | ⟨_,b,hb,heq⟩
    · rw [heq]
      exact List.Subset.refl _
    · rw [heq, hb]
      exact List.subset_append_left b.deltas _
  | dies => exact List.append_subset.mpr ⟨List.subset_append_left _ _,List.nil_subset _⟩
  | finish ending =>
    simp only [RoundLoop.move, RoundLoop.finish]
    split
    · exact List.nil_subset _
    · exact List.append_subset.mpr ⟨List.subset_append_left _ _,List.nil_subset _⟩
    · exact List.append_subset.mpr ⟨List.subset_append_left _ _,List.nil_subset _⟩
    · exact List.Subset.refl _

/-- A submission is taken exactly when the buffer of its round is open, whoever made it. -/
theorem held_onSubmit (s : Dispatcher) (chunks : List DeltaChunk) :
    s.onSubmit chunks = s ∧ (∀ first rest, chunks = first::rest → ¬s.Collects first.round) ∨
    ∃ first rest delta, chunks = first::rest ∧ s.Collects first.round ∧
      delta.clientId = first.clientId ∧
      ∀ x, x ∈ (s.onSubmit chunks).held ↔ x ∈ s.held ∨ x = delta := by
  cases chunks with
  | nil => exact .inl ⟨rfl,by simp⟩
  | cons first rest =>
    obtain ⟨delta,hdelta,hid,hround⟩ : ∃ delta, reassemble (first::rest) = some delta ∧
        delta.clientId = first.clientId ∧ delta.round = first.round := ⟨_,rfl,rfl,rfl⟩
    by_cases hc : s.Collects first.round
    · obtain ⟨quorum,deltas,hbuffer⟩ := id hc
      have hpush : (⟨first.round,quorum,.opened deltas⟩ : RoundBuffer ClientDelta).push delta =
          .ok ⟨first.round,quorum,.opened (deltas++[delta])⟩ :=
        RoundBuffer.push_ok_iff.mpr ⟨hround,deltas,rfl,rfl⟩
      refine .inr ⟨first,rest,delta,rfl,hc,hid,fun x => ?_⟩
      simp only [onSubmit, submitDelta, hdelta, hbuffer, id, hpush, held, Option.map_some,
        Option.getD_some, RoundBuffer.deltas, List.mem_append, List.mem_singleton]
      exact or_right_comm
    · refine .inl ⟨?_,fun first' rest' h => by cases h; exact hc⟩
      unfold onSubmit
      split
      · rename_i ack buffer hok
        obtain ⟨delta',b,hdelta',hb,hpush⟩ := push_of_submitDelta hok
        rw [hdelta] at hdelta'
        cases hdelta'
        obtain ⟨hr,deltas,hstate,_⟩ := RoundBuffer.push_ok_iff.mp hpush
        refine absurd ⟨b.quorum,deltas,?_⟩ hc
        obtain ⟨round,quorum,state⟩ := b
        rw [hb, ← hround]
        cases hr
        cases hstate
        rfl
      · rfl

/-- Nothing but a submission adds to what a round holds. -/
theorem held_step {g : Gates} {e : DispatcherEvent} (h : ∀ chunks, e ≠ .submitDelta chunks) :
    (s.step g e).held ⊆ s.held := by
  cases e with
  | register call now outage =>
    simp only [step, onRegister]
    split <;> exact List.Subset.refl _
  | heartbeat clientId now =>
    simp only [step, onHeartbeat]
    split <;> exact List.Subset.refl _
  | submitDelta chunks => exact absurd rfl (h chunks)
  | move m => exact held_move s.loop m
  | restarts durable => exact List.nil_subset _
  | _ => exact List.Subset.refl _

end Held

section Runs
variable {g : Gates} {s : Dispatcher}

theorem handsOut_iff (h : Guarded g s) (clientId : String) :
    HandsOutToAdmitted g s (.fetchTask clientId) ↔ CallerRegistered s (.fetchTask clientId) := by
  simp only [HandsOutToAdmitted, CallerRegistered, admitted_iff_registered h.passed, fetchTask]
  cases s.store.loadLatestWeights with
  | ok weights => exact ⟨fun hall _ => hall _ rfl,fun hall _ _ => hall ⟨weights,rfl⟩⟩
  | error e => simp

theorem contributors_submit_iff (h : Guarded g s) (chunks : List DeltaChunk) :
    (∀ delta ∈ (s.onSubmit chunks).held, (s.onSubmit chunks).Registered delta.clientId) ↔
      CallerRegistered s (.submitDelta chunks) := by
  have hsame : ∀ clientId, (s.onSubmit chunks).Registered clientId ↔ s.Registered clientId := by
    intro clientId
    unfold onSubmit
    split <;> exact Iff.rfl
  rcases held_onSubmit s chunks with ⟨heq,hclosed⟩ | ⟨first,rest,delta,rfl,hopen,hid,hmem⟩
  · rw [heq]
    constructor
    · intro _
      cases chunks with
      | nil => trivial
      | cons first rest => exact fun hc => absurd hc (hclosed first rest rfl)
    · exact fun _ => h.contributors
  · simp only [CallerRegistered, hsame, hmem]
    constructor
    · intro hall _
      rw [← hid]
      exact hall delta (.inr rfl)
    · rintro hcaller x (hx | rfl)
      · exact h.contributors x hx
      · rw [hid]
        exact hcaller hopen

theorem onlyAdmitted_step_iff (h : Guarded g s) (e : DispatcherEvent) :
    OnlyAdmitted g (s.step g e) ↔
      ∀ delta ∈ (s.step g e).held, (s.step g e).Registered delta.clientId :=
  forall₂_congr fun delta _ => admitted_iff_registered (passed_step h.passed e) delta.clientId

theorem contributors_step (h : Guarded g s) {e : DispatcherEvent}
    (he : ∀ chunks, e ≠ .submitDelta chunks) :
    ∀ delta ∈ (s.step g e).held, (s.step g e).Registered delta.clientId :=
  fun delta hd => (h.contributors delta (held_step he hd)).step e

/-- One event keeps the rule exactly when its caller has registered, if it is served. -/
theorem admits_iff (h : Guarded g s) (e : DispatcherEvent) :
    HandsOutToAdmitted g s e ∧ OnlyAdmitted g (s.step g e) ↔ CallerRegistered s e := by
  rw [onlyAdmitted_step_iff h]
  cases e with
  | submitDelta chunks =>
    exact (and_iff_right trivial).trans (contributors_submit_iff h chunks)
  | fetchTask clientId =>
    have hkeeps := contributors_step h (e := .fetchTask clientId) nofun
    exact (and_iff_left hkeeps).trans (handsOut_iff h clientId)
  | _ => exact iff_of_true ⟨trivial,contributors_step h nofun⟩ trivial

theorem guarded_step (h : Guarded g s) {e : DispatcherEvent} (hcaller : CallerRegistered s e) :
    Guarded g (s.step g e) :=
  ⟨passed_step h.passed e,(onlyAdmitted_step_iff h e).mp ((admits_iff h e).mpr hcaller).2⟩

theorem guarded_start (g : Gates) (store : AnyStore) (allowlist : InMemoryNodeAllowlist) :
    Guarded g (start store allowlist) := ⟨nofun,nofun⟩

/-- Along every run, tasks go to admitted clients only and only these have deltas in a round,
exactly as long as every caller that is served has registered: none of the calls checks it. -/
theorem onlyAdmitted_iff_callersRegistered (g : Gates) (store : AnyStore)
    (allowlist : InMemoryNodeAllowlist) (es : List DispatcherEvent) :
    Always (step g) (fun s e => HandsOutToAdmitted g s e ∧ OnlyAdmitted g (s.step g e))
        (start store allowlist) es ↔
      Always (step g) CallerRegistered (start store allowlist) es :=
  always_iff_of_invariant (Guarded g) (guarded_start g store allowlist)
    (fun _ e h => admits_iff h e) fun _ _ h => guarded_step h

/-- A deployment with an allow-list, and no key to verify tokens with. -/
def allowlistGates : Gates :=
  ⟨{ ResolvedConfig.ofDefaults .crossDevice .research with requireNodeAuth := ⟨true,.cli⟩ },none⟩

def refusedDelta : ClientDelta := ⟨"mallory",1,encodeWeights [F32.one],1,none,none,none⟩

/-- A client is refused at registration, and submits to the round that opens next. -/
def refusedThenSubmits : List DispatcherEvent :=
  [.register ⟨"mallory","guess",none⟩ 0 ⟨none,none⟩,
    .move (.opens 1),
    .submitDelta [⟨"mallory",1,0,1,encodeWeights [F32.one],1,none,none,none⟩]]

theorem not_onlyAdmitted_refused :
    ¬Always (step allowlistGates) (fun s e => HandsOutToAdmitted allowlistGates s e ∧
        OnlyAdmitted allowlistGates (s.step allowlistGates e))
      (start (.inMemory (.new [F32.zero])) .new) refusedThenSubmits := by
  rintro ⟨_,_,⟨_,honly⟩,_⟩
  obtain ⟨a,ha,_⟩ := honly refusedDelta (List.mem_singleton.mpr rfl)
  exact absurd ha List.not_mem_nil

end Runs
end Dispatcher
end ConfluxFL
