import ConfluxFL.Federation.Process

/-! Which processes outlive the supervisor. What `Children` holds never does; a client does when
the supervisor gives the run up while it is alive. -/
namespace ConfluxFL
variable {α : Type}

namespace Stage

def isReturned : Stage α → Bool
  | .returned _ => true
  | _ => false

/-- What a stage says of the clients: before the first is started there is none, and the part of
the waiting loop that found none running has seen each of them end. -/
def Fits (clients : List ClientChild) : Stage α → Prop
  | .spawnClient _ | .spawnObserver _ | .returned _ => True
  | .pollClient k stillRunning => stillRunning = [] → ∀ c ∈ clients.take k, c.outcome ≠ none
  | .pollObserver _ stillRunning | .readClock stillRunning _ =>
    stillRunning = [] → ∀ c ∈ clients, c.outcome ≠ none
  | _ => clients = []

end Stage

namespace ProcessPlan
variable {plan : ProcessPlan} {clients : List ClientChild}

theorem fits_observingStage {stillRunning : List String}
    (h : stillRunning = [] → ∀ c ∈ clients, c.outcome ≠ none) (j : ℕ) :
    (plan.observingStage j stillRunning : Stage α).Fits clients := by
  unfold observingStage
  split_ifs <;> exact h

theorem fits_pollStage {stillRunning : List String} {k : ℕ}
    (h : stillRunning = [] → ∀ c ∈ clients.take k, c.outcome ≠ none) :
    (plan.pollStage clients k stillRunning : Stage α).Fits clients := by
  unfold pollStage
  split_ifs with hk
  · exact h
  · rw [List.take_of_length_le (not_lt.mp hk)] at h
    exact fits_observingStage h 0

theorem fits_pollStage_zero : (plan.pollStage clients 0 [] : Stage α).Fits clients :=
  fits_pollStage fun _ c hc => by simp at hc

theorem fits_observerStage (i : ℕ) : (plan.observerStage clients i : Stage α).Fits clients := by
  unfold observerStage
  split_ifs
  · trivial
  · exact fits_pollStage_zero

theorem fits_clientStage (i : ℕ) : (plan.clientStage clients i : Stage α).Fits clients := by
  unfold clientStage
  split_ifs
  · trivial
  · exact fits_observerStage 0

theorem fits_nodeStage (h : clients = []) (i : ℕ) :
    (plan.nodeStage clients i : Stage α).Fits clients := by
  unfold nodeStage
  split_ifs
  · exact h
  · exact fits_clientStage 0

@[simp] theorem isReturned_observingStage (j : ℕ) (stillRunning : List String) :
    (plan.observingStage j stillRunning : Stage α).isReturned = false := by
  unfold observingStage
  split_ifs <;> rfl

@[simp] theorem isReturned_pollStage (k : ℕ) (stillRunning : List String) :
    (plan.pollStage clients k stillRunning : Stage α).isReturned = false := by
  unfold pollStage
  split_ifs
  · rfl
  · exact isReturned_observingStage 0 stillRunning

@[simp] theorem isReturned_observerStage (i : ℕ) :
    (plan.observerStage clients i : Stage α).isReturned = false := by
  unfold observerStage
  split_ifs
  · rfl
  · exact isReturned_pollStage 0 []

@[simp] theorem isReturned_clientStage (i : ℕ) :
    (plan.clientStage clients i : Stage α).isReturned = false := by
  unfold clientStage
  split_ifs
  · rfl
  · exact isReturned_observerStage 0

@[simp] theorem isReturned_nodeStage (i : ℕ) :
    (plan.nodeStage clients i : Stage α).isReturned = false := by
  unfold nodeStage
  split_ifs
  · rfl
  · exact isReturned_clientStage 0

end ProcessPlan

namespace Supervisor
variable {text : AddrText α} {plan : ProcessPlan} {s : Supervisor α}

def Returned (s : Supervisor α) : Prop := s.stage.isReturned = true

/-- Every process that was started has ended. -/
def AllStopped (s : Supervisor α) : Prop := ∀ pid, ¬s.procs.Running pid

def ClientsStopped (s : Supervisor α) : Prop := ∀ c ∈ s.clients, ¬s.procs.Running c.child

/-- The step gives the run up at a point where clients may have been started: a client or an
observer cannot be started, an observer names no node, a client has failed, or time is up. -/
def GivesUp (plan : ProcessPlan) (s : Supervisor α) : ProcessEvent → Prop
  | .spawns answer =>
    (∃ i, s.stage = .spawnClient i ∧ i < plan.participants.length ∧ answer ≠ .started) ∨
      ∃ i, s.stage = .spawnObserver i ∧
        ∃ o ∈ plan.observers[i]?, s.nodeUrls[o.node]? = none ∨ answer ≠ .started
  | .polls waitFails _ => ∃ k stillRunning, s.stage = .pollClient k stillRunning ∧
      ∃ c ∈ s.clients[k]?, c.outcome = none ∧
        ∃ status ∈ s.status c.child waitFails, status.success = false
  | .clock late => ∃ stillRunning observersDone, s.stage = .readClock stillRunning observersDone ∧
      ¬(stillRunning = [] ∧ observersDone) ∧ late
  | _ => False

/-- Every running process is held by `Children` or is a client, and by one of the two only. -/
structure Sound (s : Supervisor α) : Prop where
  owned : ∀ pid, s.procs.Running pid → pid ∈ s.tracked ∨ ∃ c ∈ s.clients, c.child = pid
  apart : ∀ c ∈ s.clients, c.child ∉ s.tracked
  trackedLt : ∀ pid ∈ s.tracked, pid < s.procs.length
  clientLt : ∀ c ∈ s.clients, c.child < s.procs.length
  outcome : ∀ c ∈ s.clients, c.outcome ≠ none → ¬s.procs.Running c.child
  stage : s.stage.Fits s.clients

theorem sound_start : (start : Supervisor α).Sound where
  owned := fun pid h => absurd h.lt_length (Nat.not_lt_zero pid)
  apart := fun _ hc => (List.not_mem_nil hc).elim
  trackedLt := fun _ hp => (List.not_mem_nil hp).elim
  clientLt := fun _ hc => (List.not_mem_nil hc).elim
  outcome := fun _ hc => (List.not_mem_nil hc).elim
  stage := rfl

/-- What is left running by a return is a client. -/
theorem Sound.allStopped_finish (h : s.Sound) (r : Except ProcessError (ProcessSummary α)) :
    (s.finish r).AllStopped ↔ s.ClientsStopped := by
  constructor
  · intro hall c hc hrun
    exact hall c.child (ProcTable.running_kill.mpr ⟨hrun,h.apart c hc⟩)
  · intro hclients pid hrun
    obtain ⟨hrun,hfree⟩ := ProcTable.running_kill.mp hrun
    obtain ht | ⟨c,hc,rfl⟩ := h.owned pid hrun
    · exact hfree ht
    · exact hclients c hc hrun

theorem Sound.finish (h : s.Sound) (r : Except ProcessError (ProcessSummary α)) :
    (s.finish r).Sound where
  owned := fun pid hrun => h.owned pid (ProcTable.running_kill.mp hrun).1
  apart := h.apart
  trackedLt := fun pid hp => (List.length_mapIdx ..).symm ▸ h.trackedLt pid hp
  clientLt := fun c hc => (List.length_mapIdx ..).symm ▸ h.clientLt c hc
  outcome := fun c hc ho hrun => h.outcome c hc ho (ProcTable.running_kill.mp hrun).1
  stage := trivial

theorem Sound.exits (h : s.Sound) (pid : ℕ) (status : ExitStatus) :
    Sound { s with procs := s.procs.ends pid status } where
  owned := fun pid hrun => h.owned pid hrun.of_ends
  apart := h.apart
  trackedLt := fun pid hp => ProcTable.length_ends.symm ▸ h.trackedLt pid hp
  clientLt := fun c hc => ProcTable.length_ends.symm ▸ h.clientLt c hc
  outcome := fun c hc ho hrun => h.outcome c hc ho hrun.of_ends
  stage := h.stage

/-- A step that starts no process and keeps the clients. -/
theorem Sound.restage (h : s.Sound) {t : Supervisor α} (hp : t.procs = s.procs)
    (hch : t.children = s.children) (hc : t.clients = s.clients) (hs : t.stage.Fits s.clients) :
    t.Sound := by
  have ht : t.tracked = s.tracked := congrArg (List.map Prod.snd) hch
  constructor
  · rw [hp, ht, hc]
    exact h.owned
  · rw [ht, hc]
    exact h.apart
  · rw [hp, ht]
    exact h.trackedLt
  · rw [hp, hc]
    exact h.clientLt
  · rw [hp, hc]
    exact h.outcome
  · rw [hc]
    exact hs

theorem clientsStopped_of_nil (h : s.clients = []) : s.ClientsStopped := by
  rw [ClientsStopped, h]
  exact fun _ hc => (List.not_mem_nil hc).elim

theorem Sound.clientsStopped (h : s.Sound) (ho : ∀ c ∈ s.clients, c.outcome ≠ none) :
    s.ClientsStopped := fun c hc => h.outcome c hc (ho c hc)

theorem spawnError_eq_none {label : String} {cmd : Spawn} {answer : SpawnAnswer}
    (h : plan.spawnError label cmd answer = none) : answer = .started := by
  cases answer with
  | started => rfl
  | _ => cases h

theorem spawnError_eq_some {label : String} {cmd : Spawn} {answer : SpawnAnswer} {e : ProcessError}
    (h : plan.spawnError label cmd answer = some e) : answer ≠ .started := by
  rintro rfl
  cases h

/-- A process that has just been started runs; the others are as they were. -/
theorem running_concat {pid : ℕ} (h : ProcTable.Running (s.procs++[none]) pid) :
    s.procs.Running pid ∨ pid = s.procs.length := by
  have hlt := h.lt_length
  rw [List.length_append, List.length_singleton] at hlt
  rcases Nat.lt_succ_iff_lt_or_eq.mp hlt with hlt | heq
  · exact .inl ((ProcTable.running_append hlt none).mp h)
  · exact .inr heq

/-- Starting a process that `Children` holds: it is held, or the supervisor returns. -/
theorem Sound.track_cases (h : s.Sound) {label : String} {cmd : Spawn} {answer : SpawnAnswer}
    (next : ℕ → Stage α) (hfits : ∀ pid, (next pid).Fits s.clients)
    (hnext : ∀ pid, (next pid).isReturned = false) :
    answer = .started ∧ (s.track plan label cmd answer next).Sound ∧
        ¬(s.track plan label cmd answer next).Returned ∨
      answer ≠ .started ∧ ∃ e, s.track plan label cmd answer next = s.finish (.error e) := by
  unfold track
  cases he : plan.spawnError label cmd answer with
  | some e => exact .inr ⟨spawnError_eq_some he,e,rfl⟩
  | none =>
    refine .inl ⟨spawnError_eq_none he,⟨fun pid hrun => ?_,fun c hc => ?_,fun pid hp => ?_,
      fun c hc => ?_,fun c hc ho hrun => ?_,hfits _⟩,by simp [Returned, hnext]⟩
    all_goals simp only [tracked, List.map_append, List.map_cons, List.map_nil, List.mem_append,
      List.mem_singleton, List.length_append, List.length_singleton] at *
    · rcases running_concat hrun with hrun | rfl
      · exact (h.owned pid hrun).imp_left .inl
      · exact .inl (.inr rfl)
    · rintro (ht | heq)
      · exact h.apart c hc ht
      · exact absurd heq (h.clientLt c hc).ne
    · rcases hp with hp | rfl
      · exact Nat.lt_succ_of_lt (h.trackedLt pid hp)
      · exact Nat.lt_succ_self _
    · exact Nat.lt_succ_of_lt (h.clientLt c hc)
    · exact h.outcome c hc ho ((ProcTable.running_append (h.clientLt c hc) none).mp hrun)

/-- Starting a client: it is a client, held by nothing else, or the supervisor returns. -/
theorem Sound.trackClient_cases (h : s.Sound) (i : ℕ) (p : ProcessParticipant)
    {answer : SpawnAnswer} :
    answer = .started ∧ (s.trackClient plan i p answer).Sound ∧
        ¬(s.trackClient plan i p answer).Returned ∨
      answer ≠ .started ∧ ∃ e, s.trackClient plan i p answer = s.finish (.error e) := by
  unfold trackClient
  cases he : plan.spawnError (clientLabel i) (plan.clientCommand (s.nodeUrls[i]?.getD "") p)
      answer with
  | some e => exact .inr ⟨spawnError_eq_some he,e,by simp only [he]⟩
  | none =>
    simp only [he]
    refine .inl ⟨spawnError_eq_none he,⟨fun pid hrun => ?_,fun c hc => ?_,fun pid hp => ?_,
      fun c hc => ?_,fun c hc ho hrun => ?_,ProcessPlan.fits_clientStage _⟩,by simp [Returned]⟩
    all_goals simp only [tracked, List.mem_append, List.mem_singleton, List.length_append,
      List.length_singleton] at *
    · rcases running_concat hrun with hrun | rfl
      · refine (h.owned pid hrun).imp_right fun ⟨c,hc,heq⟩ => ⟨c,.inl hc,heq⟩
      · exact .inr ⟨_,.inr rfl,rfl⟩
    · rcases hc with hc | rfl
      · exact h.apart c hc
      · exact fun ht => absurd (h.trackedLt _ ht) (lt_irrefl _)
    · exact Nat.lt_succ_of_lt (h.trackedLt pid hp)
    · rcases hc with hc | rfl
      · exact Nat.lt_succ_of_lt (h.clientLt c hc)
      · exact Nat.lt_succ_self _
    · rcases hc with hc | rfl
      · exact h.outcome c hc ho ((ProcTable.running_append (h.clientLt c hc) none).mp hrun)
      · exact ho rfl

/-- How a step of the supervisor turns out, `g` being whether it gives the run up: it goes on, or
it returns, and then it gives up or leaves no client running. -/
inductive Outcome (s t : Supervisor α) (g : Prop) : Prop
  | goesOn (sound : t.Sound) (running : ¬t.Returned) (keeps : ¬g)
  | returns (r : Except ProcessError (ProcessSummary α)) (finished : t = s.finish r)
      (gives : g ∨ s.ClientsStopped)

theorem Sound.onCreateDir (h : s.Sound) (hr : ¬s.Returned) (answer : Except String Unit) :
    Outcome s (s.onCreateDir plan answer) False := by
  have hfits := h.stage
  unfold Supervisor.onCreateDir
  split
  · rename_i hstage
    rw [hstage] at hfits
    exact .goesOn (h.restage rfl rfl rfl hfits) Bool.false_ne_true id
  · rename_i hstage
    rw [hstage] at hfits
    exact .returns _ rfl (.inr (clientsStopped_of_nil hfits))
  · exact .goesOn h hr id

theorem not_givesUp_spawns {answer : SpawnAnswer} (hc : ∀ i, s.stage ≠ .spawnClient i)
    (ho : ∀ i, s.stage ≠ .spawnObserver i) : ¬s.GivesUp plan (.spawns answer) := by
  rintro (⟨i,hi,-⟩ | ⟨i,hi,-⟩)
  · exact hc i hi
  · exact ho i hi

theorem Sound.onSpawn (h : s.Sound) (hr : ¬s.Returned) (answer : SpawnAnswer) :
    Outcome s (s.onSpawn text plan answer) (s.GivesUp plan (.spawns answer)) := by
  have hfits := h.stage
  unfold Supervisor.onSpawn
  split
  · rename_i hstage
    rw [hstage] at hfits
    obtain ⟨-,hs,hr⟩ | ⟨-,e,he⟩ := h.track_cases .awaitGrpc (fun _ => hfits) fun _ => rfl
    · exact .goesOn hs hr (not_givesUp_spawns (by simp [hstage]) (by simp [hstage]))
    · exact .returns _ he (.inr (clientsStopped_of_nil hfits))
  · rename_i i hstage
    rw [hstage] at hfits
    have hkeeps : ¬s.GivesUp plan (.spawns answer) :=
      not_givesUp_spawns (by simp [hstage]) (by simp [hstage])
    split
    · obtain ⟨-,hs,hr⟩ | ⟨-,e,he⟩ := h.track_cases (.awaitNode i) (fun _ => hfits) fun _ => rfl
      · exact .goesOn hs hr hkeeps
      · exact .returns _ he (.inr (clientsStopped_of_nil hfits))
    · exact .goesOn h hr hkeeps
  · rename_i i hstage
    have hiff : s.GivesUp plan (.spawns answer) ↔
        i < plan.participants.length ∧ answer ≠ .started := by
      simp [GivesUp, hstage]
    rw [hiff]
    split
    · rename_i p hp
      obtain ⟨ha,hs,hr⟩ | ⟨ha,e,he⟩ := h.trackClient_cases i p
      · exact .goesOn hs hr fun hg => hg.2 ha
      · exact .returns _ he (.inl ⟨(List.getElem?_eq_some_iff.mp hp).1,ha⟩)
    · rename_i hp
      exact .goesOn h hr fun hg => absurd hg.1 (not_lt.mpr (List.getElem?_eq_none_iff.mp hp))
  · rename_i i hstage
    have hiff : s.GivesUp plan (.spawns answer) ↔
        ∃ o ∈ plan.observers[i]?, s.nodeUrls[o.node]? = none ∨ answer ≠ .started := by
      simp [GivesUp, hstage]
    rw [hiff]
    split
    · rename_i o ho
      unfold trackObserver
      split
      · rename_i hu
        exact .returns _ rfl (.inl ⟨o,ho,.inl hu⟩)
      · rename_i url hu
        obtain ⟨ha,hs,hr⟩ | ⟨ha,e,he⟩ := h.track_cases (fun _ => plan.observerStage s.clients (i+1))
          (fun _ => ProcessPlan.fits_observerStage (i+1))
          fun _ => ProcessPlan.isReturned_observerStage (i+1)
        · refine .goesOn hs hr ?_
          rintro ⟨o',ho',hg⟩
          obtain rfl : o = o' := Option.some.inj (ho.symm.trans ho')
          rw [hu] at hg
          exact hg.elim (Option.some_ne_none url) fun hg => hg ha
        · exact .returns _ he (.inl ⟨o,ho,.inr ha⟩)
    · rename_i ho
      refine .goesOn h hr ?_
      rintro ⟨o',ho',-⟩
      exact Option.some_ne_none o' (ho'.symm.trans ho)
  · rename_i _ hclient hobserver
    exact .goesOn h hr (not_givesUp_spawns hclient hobserver)

/-- A turn of `await_addr`, before any client is started. -/
theorem Sound.await (h : s.Sound) (hr : ¬s.Returned) (hnil : s.clients = []) {label key : String}
    {child : ℕ} {look : Look} {found : α → Supervisor α}
    (hfound : ∀ addr, (found addr).Sound ∧ ¬(found addr).Returned) :
    Outcome s (s.await text plan label key child look found) False := by
  unfold Supervisor.await
  split
  · exact .returns _ rfl (.inr (clientsStopped_of_nil hnil))
  · exact .goesOn h hr id
  · exact .goesOn (hfound _).1 (hfound _).2 id

theorem Sound.onLook (h : s.Sound) (hr : ¬s.Returned) (look : Look) :
    Outcome s (s.onLook text plan look) False := by
  have hfits := h.stage
  unfold Supervisor.onLook
  split
  · rename_i hstage
    rw [hstage] at hfits
    exact h.await hr hfits fun _ => ⟨h.restage rfl rfl rfl hfits,Bool.false_ne_true⟩
  · rename_i hstage
    rw [hstage] at hfits
    exact h.await hr hfits fun _ => ⟨h.restage rfl rfl rfl hfits,Bool.false_ne_true⟩
  · rename_i i child hstage
    rw [hstage] at hfits
    refine h.await hr hfits fun _ => ⟨h.restage rfl rfl rfl ?_,by simp [Returned]⟩
    exact ProcessPlan.fits_nodeStage hfits (i+1)
  · exact .goesOn h hr id

theorem Sound.onProbe (h : s.Sound) (hr : ¬s.Returned) (healthy waitFails late : Bool)
    (log : String) : Outcome s (s.onProbe plan healthy waitFails late log) False := by
  have hfits := h.stage
  unfold Supervisor.onProbe
  split
  · rename_i hstage
    rw [hstage] at hfits
    split
    · exact .goesOn (h.restage rfl rfl rfl (ProcessPlan.fits_nodeStage hfits 0))
        (by simp [Returned]) id
    · split
      · exact .returns _ rfl (.inr (clientsStopped_of_nil hfits))
      · split
        · exact .returns _ rfl (.inr (clientsStopped_of_nil hfits))
        · exact .goesOn h hr id
  · exact .goesOn h hr id

theorem not_running_of_status {child : ℕ} {waitFails : Bool} {status : ExitStatus}
    (h : s.status child waitFails = some status) : ¬s.procs.Running child := by
  intro hrun
  unfold Supervisor.status tryWait at h
  rw [hrun] at h
  cases waitFails <;> cases h

/-- The clients seen so far, after one more has been asked for. -/
theorem take_succ_outcome {l : List ClientChild} {k : ℕ} {c : ClientChild} (hk : l[k]? = some c)
    (hc : c.outcome ≠ none) (h : ∀ c ∈ l.take k, c.outcome ≠ none) :
    ∀ c ∈ l.take (k+1), c.outcome ≠ none := by
  rw [List.take_add_one, hk]
  intro c' hc'
  rcases List.mem_append.mp hc' with hc' | hc'
  · exact h c' hc'
  · rw [Option.toList_some, List.mem_singleton] at hc'
    rwa [hc']

/-- A client that has ended gets its outcome. -/
theorem Sound.settle (h : s.Sound) {k : ℕ} {c : ClientChild} (hk : s.clients[k]? = some c)
    (hdead : ¬s.procs.Running c.child) (o : ProcessOutcome) {stage : Stage α}
    (hfits : stage.Fits (s.clients.set k { c with outcome := some o })) :
    Sound { s with clients := s.clients.set k { c with outcome := some o }, stage := stage } := by
  have hlt : k < s.clients.length := (List.getElem?_eq_some_iff.mp hk).1
  have hmem : c ∈ s.clients := List.mem_of_getElem? hk
  refine ⟨fun pid hrun => (h.owned pid hrun).imp_right ?_,fun c' hc' => ?_,h.trackedLt,
    fun c' hc' => ?_,fun c' hc' => ?_,hfits⟩
  · rintro ⟨c',hc',rfl⟩
    obtain ⟨i,hi⟩ := List.mem_iff_getElem?.mp hc'
    by_cases hik : k = i
    · subst hik
      obtain rfl : c = c' := Option.some.inj (hk.symm.trans hi)
      exact ⟨_,List.mem_set hlt _,rfl⟩
    · exact ⟨c',List.mem_of_getElem? ((List.getElem?_set_ne hik).trans hi),rfl⟩
  · rcases List.mem_or_eq_of_mem_set hc' with hc' | rfl
    · exact h.apart c' hc'
    · exact h.apart c hmem
  · rcases List.mem_or_eq_of_mem_set hc' with hc' | rfl
    · exact h.clientLt c' hc'
    · exact h.clientLt c hmem
  · rcases List.mem_or_eq_of_mem_set hc' with hc' | rfl
    · exact h.outcome c' hc'
    · exact fun _ => hdead

theorem Sound.pollClient (h : s.Sound) {k : ℕ} {stillRunning : List String}
    (hstage : s.stage = .pollClient k stillRunning) {c : ClientChild}
    (hk : s.clients[k]? = some c) (waitFails : Bool) (log : String) :
    Outcome s (s.pollClient plan k stillRunning c waitFails log)
      (c.outcome = none ∧ ∃ status ∈ s.status c.child waitFails, status.success = false) := by
  have hfits := h.stage
  rw [hstage] at hfits
  unfold Supervisor.pollClient
  split_ifs with ho
  · have hne : c.outcome ≠ none := Option.isSome_iff_ne_none.mp ho
    refine .goesOn (h.restage rfl rfl rfl (ProcessPlan.fits_pollStage fun hs => ?_))
      (by simp [Returned]) fun hg => hne hg.1
    exact take_succ_outcome hk hne (hfits hs)
  · split
    · rename_i hstatus
      refine .goesOn (h.restage rfl rfl rfl (ProcessPlan.fits_pollStage fun hs => ?_))
        (by simp [Returned]) ?_
      · exact absurd hs (List.append_ne_nil_of_right_ne_nil _ (List.cons_ne_nil _ _))
      · rintro ⟨-,status,hs,-⟩
        exact Option.some_ne_none status (hs.symm.trans hstatus)
    · rename_i status hstatus
      split_ifs with hsuccess
      · refine .goesOn (h.settle hk (not_running_of_status hstatus) _
          (ProcessPlan.fits_pollStage fun hs => ?_)) (by simp [Returned]) ?_
        · have hlt : k < s.clients.length := (List.getElem?_eq_some_iff.mp hk).1
          refine take_succ_outcome (List.getElem?_set_self hlt) (Option.some_ne_none _) ?_
          rw [List.take_set_of_le le_rfl]
          exact hfits hs
        · rintro ⟨-,status',hs,hfail⟩
          obtain rfl : status = status' := Option.some.inj (hstatus.symm.trans hs)
          exact Bool.false_ne_true (hfail.symm.trans hsuccess)
      · exact .returns _ rfl (.inl ⟨Option.not_isSome_iff_eq_none.mp ho,status,hstatus,
          Bool.eq_false_iff.mpr hsuccess⟩)

theorem Sound.onPoll (h : s.Sound) (hr : ¬s.Returned) (waitFails : Bool) (log : String) :
    Outcome s (s.onPoll plan waitFails log) (s.GivesUp plan (.polls waitFails log)) := by
  have hfits := h.stage
  unfold Supervisor.onPoll
  split
  · rename_i k stillRunning hstage
    have hiff : s.GivesUp plan (.polls waitFails log) ↔ ∃ c ∈ s.clients[k]?, c.outcome = none ∧
        ∃ status ∈ s.status c.child waitFails, status.success = false := by
      simp [GivesUp, hstage]
    rw [hiff]
    split
    · rename_i c hk
      have hone : (∃ c ∈ s.clients[k]?, c.outcome = none ∧
          ∃ status ∈ s.status c.child waitFails, status.success = false) ↔
          c.outcome = none ∧ ∃ status ∈ s.status c.child waitFails, status.success = false := by
        simp [hk]
      rw [hone]
      exact h.pollClient hstage hk waitFails log
    · rename_i hk
      exact .goesOn h hr fun ⟨c,hc,_⟩ => Option.some_ne_none c (hc.symm.trans hk)
  · rename_i j stillRunning hstage
    rw [hstage] at hfits
    have hkeeps : ¬s.GivesUp plan (.polls waitFails log) := by simp [GivesUp, hstage]
    split
    · split_ifs
      · exact .goesOn (h.restage rfl rfl rfl (ProcessPlan.fits_observingStage hfits (j+1)))
          (by simp [Returned]) hkeeps
      · exact .goesOn (h.restage rfl rfl rfl hfits) Bool.false_ne_true hkeeps
    · exact .goesOn h hr hkeeps
  · rename_i hclient _
    exact .goesOn h hr fun ⟨k,stillRunning,hstage,_⟩ => hclient k stillRunning hstage

theorem Sound.onClock (h : s.Sound) (hr : ¬s.Returned) (late : Bool) :
    Outcome s (s.onClock plan late) (s.GivesUp plan (.clock late)) := by
  have hfits := h.stage
  unfold Supervisor.onClock
  split
  · rename_i stillRunning observersDone hstage
    rw [hstage] at hfits
    have hiff : s.GivesUp plan (.clock late) ↔
        ¬(stillRunning = [] ∧ observersDone) ∧ late := by
      constructor
      · rintro ⟨stillRunning',done',hstage',hg⟩
        obtain ⟨rfl,rfl⟩ := Stage.readClock.inj (hstage.symm.trans hstage')
        exact hg
      · exact fun hg => ⟨_,_,hstage,hg⟩
    rw [hiff]
    split_ifs with hdone hlate
    · split
      · exact .returns _ rfl (.inr (h.clientsStopped (hfits hdone.1)))
      · exact .goesOn h hr fun hg => hg.1 hdone
    · exact .returns _ rfl (.inl ⟨hdone,hlate⟩)
    · exact .goesOn (h.restage rfl rfl rfl ProcessPlan.fits_pollStage_zero) (by simp [Returned])
        fun hg => hlate hg.2
  · rename_i hnot
    exact .goesOn h hr fun ⟨stillRunning,done,hstage,_⟩ => hnot stillRunning done hstage

theorem Sound.step (h : s.Sound) (hr : ¬s.Returned) (e : ProcessEvent) :
    Outcome s (s.step text plan e) (s.GivesUp plan e) := by
  cases e with
  | exits pid status => exact .goesOn (h.exits pid status) hr id
  | createsDir answer => exact h.onCreateDir hr answer
  | spawns answer => exact h.onSpawn hr answer
  | looks look => exact h.onLook hr look
  | probes healthy waitFails late log => exact h.onProbe hr healthy waitFails late log
  | polls waitFails log => exact h.onPoll hr waitFails log
  | clock late => exact h.onClock hr late

/-- After the return, processes end on their own and nothing else happens. -/
theorem step_of_returned (hr : s.Returned) (e : ProcessEvent) : ¬s.GivesUp plan e ∧
    (s.step text plan e = s ∨
      ∃ pid status, s.step text plan e = { s with procs := s.procs.ends pid status }) := by
  have hstage : ∃ r, s.stage = .returned r := by
    unfold Returned Stage.isReturned at hr
    split at hr
    · exact ⟨_,‹_›⟩
    · exact absurd hr Bool.false_ne_true
  obtain ⟨r,hstage⟩ := hstage
  cases e with
  | exits pid status => exact ⟨id,.inr ⟨pid,status,rfl⟩⟩
  | _ =>
    refine ⟨by simp [GivesUp, hstage],.inl ?_⟩
    simp [Supervisor.step, Supervisor.onCreateDir, Supervisor.onSpawn, Supervisor.onLook,
      Supervisor.onProbe, Supervisor.onPoll, Supervisor.onClock, hstage]

/-- Once it has returned, nothing it started is running. -/
def LeavesNothing (s : Supervisor α) : Prop := s.Returned → s.AllStopped

theorem leavesNothing_step_iff (h : s.Sound) (hl : s.LeavesNothing) (e : ProcessEvent) :
    (s.step text plan e).LeavesNothing ↔ (s.GivesUp plan e → s.ClientsStopped) := by
  by_cases hr : s.Returned
  · obtain ⟨hkeeps,heq⟩ := @step_of_returned α text plan s hr e
    refine iff_of_true (fun _ pid hrun => ?_) fun hg => absurd hg hkeeps
    obtain heq | ⟨pid',status,heq⟩ := heq
    · rw [heq] at hrun
      exact hl hr pid hrun
    · rw [heq] at hrun
      exact hl hr pid hrun.of_ends
  · obtain ⟨-,hgo,hkeeps⟩ | ⟨r,hfin,hg⟩ := @Sound.step α text plan s h hr e
    · exact iff_of_true (fun hr => absurd hr hgo) fun hg => absurd hg hkeeps
    · rw [hfin]
      constructor
      · exact fun hall _ => (h.allStopped_finish r).mp (hall rfl)
      · exact fun hc _ => (h.allStopped_finish r).mpr (hg.elim hc id)

theorem Sound.next (h : s.Sound) (e : ProcessEvent) : (s.step text plan e).Sound := by
  by_cases hr : s.Returned
  · obtain ⟨-,heq | ⟨pid,status,heq⟩⟩ := @step_of_returned α text plan s hr e
    · rwa [heq]
    · rw [heq]
      exact h.exits pid status
  · obtain ⟨hs,-,-⟩ | ⟨r,hfin,-⟩ := @Sound.step α text plan s h hr e
    · exact hs
    · rw [hfin]
      exact h.finish r

/-- In every run of the supervisor, whatever the children do, nothing it started is running once
it has returned exactly when every step that gives the run up is taken with no client running. -/
theorem leavesNothing_iff (text : AddrText α) (plan : ProcessPlan) (events : List ProcessEvent) :
    (∀ pre, pre <+: events → (run text plan pre).LeavesNothing) ↔
      Run.Always (step text plan) (fun s e => s.GivesUp plan e → s.ClientsStopped) start
        events := by
  unfold run
  rw [Run.forall_prefix_iff]
  refine (and_iff_right fun hr => absurd hr Bool.false_ne_true).trans ?_
  refine Run.always_iff_of_invariant (fun s => s.Sound ∧ s.LeavesNothing)
    ⟨sound_start,fun hr => absurd hr Bool.false_ne_true⟩
    (fun s e h => leavesNothing_step_iff h.1 h.2 e) fun s e h hq => ?_
  exact ⟨h.1.next e,(leavesNothing_step_iff h.1 h.2 e).mpr hq⟩

end Supervisor

def addrText : AddrText String := ⟨some,id⟩

def twoClients : ProcessPlan where
  server := ⟨"cflux",["server","start"],[]⟩
  participants := [⟨"client-0",⟨"cflux",["node","start"],[]⟩,⟨"trainer",[],[]⟩⟩,
    ⟨"client-1",⟨"cflux",["node","start"],[]⟩,⟨"trainer",[],[]⟩⟩]
  observers := []
  rounds := 3
  startupTimeout := 30000
  runTimeout := 600000
  logDir := "logs"

/-- Everything starts; then the first client fails while the second trains. -/
def firstClientFails : List ProcessEvent :=
  let server : Look :=
    ⟨some ["grpc=127.0.0.1:50051","http=127.0.0.1:50052"],false,false,false,""⟩
  let node : Look := ⟨some ["local=127.0.0.1:47100"],false,false,false,""⟩
  [.createsDir (.ok ()),.spawns .started,.looks server,.looks server,.probes true false false "",
    .spawns .started,.looks node,.spawns .started,.looks node,.spawns .started,.spawns .started,
    .exits 3 ⟨some 1⟩,.polls false ""]

/-- The server and the nodes are killed; the second client goes on. -/
theorem Supervisor.not_leavesNothing_firstClientFails :
    (run addrText twoClients firstClientFails).procs =
        [some ⟨none⟩,some ⟨none⟩,some ⟨none⟩,some ⟨some 1⟩,none] ∧
      ¬(run addrText twoClients firstClientFails).LeavesNothing := by
  have hprocs : (run addrText twoClients firstClientFails).procs =
      [some ⟨none⟩,some ⟨none⟩,some ⟨none⟩,some ⟨some 1⟩,none] := by
    decide +kernel
  have hreturned : (run addrText twoClients firstClientFails).stage.isReturned = true := by
    decide +kernel
  refine ⟨hprocs,fun h => h hreturned 4 ?_⟩
  rw [hprocs]
  rfl

end ConfluxFL
