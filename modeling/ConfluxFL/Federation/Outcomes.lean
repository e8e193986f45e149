import ConfluxFL.Federation.Observing

/-! What the outcomes in a summary say: each belongs to a client, and that client has ended well. -/
namespace ConfluxFL
variable {α : Type}

namespace ProcTable
variable {t : ProcTable} {pid pid' : ℕ} {pids : List ℕ} {status : ExitStatus}

def EndedWell (t : ProcTable) (pid : ℕ) : Prop :=
  ∃ status : ExitStatus, t[pid]? = some (some status) ∧ status.success = true

theorem EndedWell.lt_length (h : t.EndedWell pid) : pid < t.length := by
  obtain ⟨status,hstatus,-⟩ := h
  exact (List.getElem?_eq_some_iff.mp hstatus).1

/-- A process that has just been started has not ended. -/
theorem endedWell_append : EndedWell (t++[none]) pid ↔ t.EndedWell pid := by
  unfold EndedWell
  rw [List.getElem?_append]
  split
  · rfl
  · rename_i hlt
    constructor
    · rintro ⟨status,hstatus,-⟩
      have hmem := List.mem_of_getElem? hstatus
      simp at hmem
    · intro h
      exact absurd (EndedWell.lt_length h) hlt

/-- A signal does not end a process well. -/
theorem endedWell_kill : (t.kill pids).EndedWell pid ↔ t.EndedWell pid := by
  unfold EndedWell kill
  rw [List.getElem?_mapIdx]
  cases t[pid]? with
  | none => simp
  | some p =>
    by_cases hpid : pid ∈ pids
    · cases p with
      | none => simp [hpid, ExitStatus.success]
      | some status => simp [hpid]
    · simp [hpid]

theorem endedWell_ends : (t.ends pid' status).EndedWell pid ↔
    t.EndedWell pid ∨ pid = pid' ∧ t.Running pid ∧ status.success = true := by
  unfold ends
  split_ifs with hrun
  · by_cases heq : pid = pid'
    · subst heq
      have hnot : ¬t.EndedWell pid := by
        rintro ⟨status',hstatus,-⟩
        rw [hrun] at hstatus
        cases hstatus
      rw [or_iff_right hnot]
      unfold EndedWell
      rw [List.getElem?_set_self hrun.lt_length]
      simp [hrun]
    · unfold EndedWell
      rw [List.getElem?_set_ne (Ne.symm heq)]
      simp [heq]
  · refine ⟨.inl,?_⟩
    rintro (h | ⟨rfl,hr,-⟩)
    · exact h
    · exact absurd hr hrun

end ProcTable

theorem ProcessEvent.exits_or (e : ProcessEvent) :
    (∃ pid status, e = .exits pid status) ∨ ∀ pid status, e ≠ .exits pid status := by
  cases e with
  | exits pid status => exact .inl ⟨pid,status,rfl⟩
  | _ => exact .inr fun _ _ => by simp

namespace Supervisor
variable {text : AddrText α} {plan : ProcessPlan} {s t : Supervisor α}

/-- Where a client of the next state comes from: it was there, with the same outcome or without the
one it has got for ending well, or it has just been started. -/
def Follows (s : Supervisor α) (started : String) (c : ClientChild) : Prop :=
  (∃ c' ∈ s.clients, c'.child = c.child ∧ c'.clientId = c.clientId ∧
    (c.outcome = c'.outcome ∨
      ∃ o, c.outcome = some o ∧ o.clientId = c.clientId ∧ s.procs.EndedWell c.child)) ∨
  c.outcome = none ∧ c.child = s.procs.length ∧ c.clientId = started

/-- What a step changes about processes that have ended well and about the clients, when no process
ends on its own. -/
structure Change (s t : Supervisor α) : Prop where
  length_le : s.procs.length ≤ t.procs.length
  endedWell : ∀ pid, t.procs.EndedWell pid ↔ s.procs.EndedWell pid
  clients : ∃ started, ∀ c ∈ t.clients, s.Follows started c

theorem follows_of_mem {c : ClientChild} (hc : c ∈ s.clients) (started : String) :
    s.Follows started c := .inl ⟨c,hc,rfl,rfl,.inl rfl⟩

theorem change_of_clients (hc : t.clients = s.clients)
    (hlength : s.procs.length ≤ t.procs.length)
    (hp : ∀ pid, t.procs.EndedWell pid ↔ s.procs.EndedWell pid) : Change s t :=
  ⟨hlength,hp,"",fun _ hmem => follows_of_mem (hc ▸ hmem) ""⟩

theorem change_restage (hp : t.procs = s.procs) (hc : t.clients = s.clients) : Change s t :=
  change_of_clients hc (by rw [hp]) fun pid => by rw [hp]

theorem change_finish (r : Except ProcessError (ProcessSummary α)) : Change s (s.finish r) :=
  change_of_clients rfl (List.length_mapIdx ..).ge fun _ => ProcTable.endedWell_kill

theorem change_track (label : String) (cmd : Spawn) (answer : SpawnAnswer) (next : ℕ → Stage α) :
    Change s (s.track plan label cmd answer next) := by
  unfold track
  split
  · exact change_finish _
  · exact change_of_clients rfl (by simp) fun _ => ProcTable.endedWell_append

theorem change_trackClient (i : ℕ) (p : ProcessParticipant) (answer : SpawnAnswer) :
    Change s (s.trackClient plan i p answer) := by
  unfold trackClient
  simp only
  split
  · exact change_finish _
  · refine ⟨by simp,fun _ => ProcTable.endedWell_append,p.clientId,fun c hc => ?_⟩
    rcases List.mem_append.mp hc with hc | hc
    · exact follows_of_mem hc _
    · rw [List.mem_singleton.mp hc]
      exact .inr ⟨rfl,rfl,rfl⟩

theorem change_onSpawn (answer : SpawnAnswer) : Change s (s.onSpawn text plan answer) := by
  unfold onSpawn
  split
  · exact change_track _ _ _ _
  · split
    · exact change_track _ _ _ _
    · exact change_restage rfl rfl
  · split
    · exact change_trackClient _ _ _
    · exact change_restage rfl rfl
  · split
    · unfold trackObserver
      split
      · exact change_finish _
      · exact change_track _ _ _ _
    · exact change_restage rfl rfl
  · exact change_restage rfl rfl

theorem change_await {label key : String} {child : ℕ} {look : Look} {found : α → Supervisor α}
    (hfound : ∀ addr, Change s (found addr)) :
    Change s (s.await text plan label key child look found) := by
  unfold await
  split
  · exact change_finish _
  · exact change_restage rfl rfl
  · exact hfound _

theorem change_onLook (look : Look) : Change s (s.onLook text plan look) := by
  unfold onLook
  split
  · exact change_await fun _ => change_restage rfl rfl
  · exact change_await fun _ => change_restage rfl rfl
  · exact change_await fun _ => change_restage rfl rfl
  · exact change_restage rfl rfl

theorem change_onProbe (healthy waitFails late : Bool) (log : String) :
    Change s (s.onProbe plan healthy waitFails late log) := by
  unfold onProbe
  split
  · split
    · exact change_restage rfl rfl
    · split
      · exact change_finish _
      · split
        · exact change_finish _
        · exact change_restage rfl rfl
  · exact change_restage rfl rfl

theorem endedWell_of_status {child : ℕ} {waitFails : Bool} {status : ExitStatus}
    (h : s.status child waitFails = some status) (hsuccess : status.success = true) :
    s.procs.EndedWell child := by
  refine ⟨status,?_,hsuccess⟩
  unfold Supervisor.status tryWait at h
  cases waitFails with
  | true => cases h
  | false => exact Option.join_eq_some_iff.mp h

/-- An outcome is given to a client that was asked for and has ended well. -/
theorem change_pollClient {k : ℕ} {c : ClientChild} (hk : s.clients[k]? = some c)
    (stillRunning : List String) (waitFails : Bool) (log : String) :
    Change s (s.pollClient plan k stillRunning c waitFails log) := by
  unfold pollClient
  split_ifs
  · exact change_restage rfl rfl
  · split
    · exact change_restage rfl rfl
    · rename_i status hstatus
      split_ifs with hsuccess
      · refine ⟨le_rfl,fun _ => Iff.rfl,"",fun c' hc' => ?_⟩
        rcases List.mem_or_eq_of_mem_set hc' with hc' | rfl
        · exact follows_of_mem hc' _
        · exact .inl ⟨c,List.mem_of_getElem? hk,rfl,rfl,
            .inr ⟨_,rfl,rfl,endedWell_of_status hstatus hsuccess⟩⟩
      · exact change_finish _

theorem change_onPoll (waitFails : Bool) (log : String) :
    Change s (s.onPoll plan waitFails log) := by
  unfold onPoll
  split
  · split
    · rename_i hk
      exact change_pollClient hk _ _ _
    · exact change_restage rfl rfl
  · split
    · split_ifs
      · exact change_restage rfl rfl
      · exact change_restage rfl rfl
    · exact change_restage rfl rfl
  · exact change_restage rfl rfl

theorem change_onClock (late : Bool) : Change s (s.onClock plan late) := by
  unfold onClock
  split
  · split_ifs
    · split
      · exact change_finish _
      · exact change_restage rfl rfl
    · exact change_finish _
    · exact change_restage rfl rfl
  · exact change_restage rfl rfl

theorem change_step {e : ProcessEvent} (he : ∀ pid status, e ≠ .exits pid status) :
    Change s (s.step text plan e) := by
  cases e with
  | exits pid status => exact absurd rfl (he pid status)
  | createsDir answer =>
    change Change s (s.onCreateDir plan answer)
    unfold onCreateDir
    split
    · exact change_restage rfl rfl
    · exact change_finish _
    · exact change_restage rfl rfl
  | spawns answer => exact change_onSpawn answer
  | looks look => exact change_onLook look
  | probes healthy waitFails late log => exact change_onProbe healthy waitFails late log
  | polls waitFails log => exact change_onPoll waitFails log
  | clock late => exact change_onClock late

/-- What outcomes and the summary say of the clients. -/
structure Accounted (s : Supervisor α) : Prop where
  outcome : ∀ c ∈ s.clients, ∀ o, c.outcome = some o →
    o.clientId = c.clientId ∧ s.procs.EndedWell c.child
  unique : ∀ c ∈ s.clients, ∀ c' ∈ s.clients, c.child = c'.child → c.clientId = c'.clientId
  summary : ∀ summary, s.stage = .returned (.ok summary) →
    summary.clients = s.clients.filterMap ClientChild.outcome

theorem accounted_start : (start : Supervisor α).Accounted where
  outcome _ hc := absurd hc List.not_mem_nil
  unique _ hc := absurd hc List.not_mem_nil
  summary _ h := by simp [start] at h

theorem clients_finish_onClock {late : Bool} {summary : ProcessSummary α}
    (hs : s.stage.isOk = false) (h : (s.onClock plan late).stage = .returned (.ok summary)) :
    summary.clients = (s.onClock plan late).clients.filterMap ClientChild.outcome := by
  have hok : (s.onClock plan late).stage.isOk = true := by
    rw [h]
    rfl
  unfold onClock at h ⊢
  split at h
  · split_ifs at h ⊢
    · split at h
      · have hsummary := Except.ok.inj (Stage.returned.inj h)
        rw [← hsummary]
        rfl
      · rw [h] at hs
        cases hs
    · cases Stage.returned.inj h
    · have hpoll : plan.pollStage s.clients 0 [] = .returned (.ok summary) := h
      have hnot : (plan.pollStage s.clients 0 [] : Stage α).isReturned = false :=
        ProcessPlan.isReturned_pollStage 0 []
      rw [hpoll] at hnot
      cases hnot
  · rw [h] at hs
    cases hs

theorem Accounted.change (h : s.Accounted) (hsound : s.Sound) (hchange : Change s t)
    (hsummary : ∀ summary, t.stage = .returned (.ok summary) →
      summary.clients = t.clients.filterMap ClientChild.outcome) : t.Accounted where
  outcome c hc o ho := by
    obtain ⟨started,hfollows⟩ := hchange.clients
    rw [hchange.endedWell]
    rcases hfollows c hc with ⟨c',hc',hchild,hid,hsame | ⟨o',ho',hoid,hended⟩⟩ | ⟨hnone,-⟩
    · obtain ⟨hoid,hended⟩ := h.outcome c' hc' o (hsame.symm.trans ho)
      exact ⟨hoid.trans hid,hchild ▸ hended⟩
    · obtain rfl := Option.some.inj (ho.symm.trans ho')
      exact ⟨hoid,hended⟩
    · exact absurd ho (hnone ▸ nofun)
  unique c₁ hc₁ c₂ hc₂ hchild := by
    obtain ⟨started,hfollows⟩ := hchange.clients
    rcases hfollows c₁ hc₁ with ⟨c₁',hc₁',hchild₁,hid₁,-⟩ | ⟨-,hchild₁,hid₁⟩
    · rcases hfollows c₂ hc₂ with ⟨c₂',hc₂',hchild₂,hid₂,-⟩ | ⟨-,hchild₂,hid₂⟩
      · rw [← hid₁, ← hid₂]
        exact h.unique c₁' hc₁' c₂' hc₂' (hchild₁.trans (hchild.trans hchild₂.symm))
      · have hlt := hsound.clientLt c₁' hc₁'
        omega
    · rcases hfollows c₂ hc₂ with ⟨c₂',hc₂',hchild₂,hid₂,-⟩ | ⟨-,hchild₂,hid₂⟩
      · have hlt := hsound.clientLt c₂' hc₂'
        omega
      · exact hid₁.trans hid₂.symm
  summary := hsummary

theorem Accounted.exits (h : s.Accounted) (pid : ℕ) (status : ExitStatus) :
    Accounted { s with procs := s.procs.ends pid status } where
  outcome c hc o ho :=
    (h.outcome c hc o ho).imp_right fun hended => ProcTable.endedWell_ends.mpr (.inl hended)
  unique := h.unique
  summary := h.summary

/-- Only the clock can end the waiting loop with a summary. -/
theorem Accounted.summary_step (h : s.Accounted) {e : ProcessEvent} {summary : ProcessSummary α}
    (hs : (s.step text plan e).stage = .returned (.ok summary)) :
    summary.clients = (s.step text plan e).clients.filterMap ClientChild.outcome := by
  by_cases hr : s.Returned
  · obtain ⟨-,heq | ⟨pid,status,heq⟩⟩ := @step_of_returned α text plan s hr e
    · rw [heq] at hs ⊢
      exact h.summary summary hs
    · rw [heq] at hs ⊢
      exact h.summary summary hs
  · have hnot := Stage.isOk_of_not_isReturned (Bool.eq_false_of_not_eq_true hr)
    have hok : (s.step text plan e).stage.isOk = true := by
      rw [hs]
      rfl
    have hconcludes : s.concludes e = true := (isOk_step hnot e).symm.trans hok
    cases e with
    | clock late => exact clients_finish_onClock hnot hs
    | _ => cases hconcludes

theorem Accounted.step (h : s.Accounted) (hsound : s.Sound) (e : ProcessEvent) :
    (s.step text plan e).Accounted := by
  rcases e.exits_or with ⟨pid,status,rfl⟩ | he
  · exact h.exits pid status
  · exact h.change hsound (change_step he) fun summary hs => h.summary_step hs

end Supervisor
end ConfluxFL
