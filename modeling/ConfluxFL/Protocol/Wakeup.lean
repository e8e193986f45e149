import ConfluxFL.Protocol.Flushing

/-! No wake-up is lost. The quorum check and the wait are separate steps, but a push that lands
between them leaves a permit, and one that lands later wakes the flusher: as long as the buffer
holds a quorum, either something is pending for the flusher or some push has yet to notify. -/
namespace ConfluxFL.Flushing
variable {ι δ : Type}

/-- The flusher sleeps with nothing on its way while the open buffer holds a quorum. -/
def Stalled (s : Flushing ι δ) : Prop :=
  s.flusher = .waiting ∧ s.notify.waiter = .parked ∧ s.notify.permit = false ∧
    (∃ ds, s.buffer.state = .opened ds ∧ s.buffer.quorum ≤ ds.length) ∧
    ∀ i delta, s.pushes i ≠ .notifying delta

/-- The open buffer holds a quorum. -/
def Full (s : Flushing ι δ) : Prop :=
  ∃ ds, s.buffer.state = .opened ds ∧ s.buffer.quorum ≤ ds.length

/-- Some push is between its critical section and its notification. -/
def Notifying (s : Flushing ι δ) : Prop := ∃ i delta, s.pushes i = .notifying delta

/-- From its failed check until its next one, a full buffer has left something for the flusher
or is about to. -/
structure Wakeful (s : Flushing ι δ) : Prop where
  sound : s.notify.Sound
  heard : s.flusher = .reading ∨ s.flusher = .waiting → s.Full →
    s.notify.pending = true ∨ s.Notifying

theorem wakeful_new (round quorum : ℕ) : Wakeful (new round quorum : Flushing ι δ) where
  sound := nofun
  heard h := by simp [new] at h

variable [DecidableEq ι] {s t : Flushing ι δ}

/-- Another caller's move does not finish a notification. -/
theorem Notifying.setPush (h : s.Notifying) {i : ι} {phase : PushPhase δ}
    (hold : ∀ delta, s.pushes i ≠ .notifying delta) : (s.setPush i phase).Notifying := by
  obtain ⟨j,delta,hj⟩ := h
  have hne : j ≠ i := by
    rintro rfl
    exact hold delta hj
  exact ⟨j,delta,by rw [setPush_ne s phase hne]; exact hj⟩

theorem Wakeful.setPush (h : Wakeful s) {i : ι} {phase : PushPhase δ}
    (hold : ∀ delta, s.pushes i ≠ .notifying delta) : Wakeful (s.setPush i phase) where
  sound := h.sound
  heard hphase hfull := (h.heard hphase hfull).imp id fun hn => hn.setPush hold

theorem Wakeful.moves [HasRound δ] (h : Wakeful s) (hmove : s.Moves t) : Wakeful t := by
  cases hmove with
  | stays => exact h
  | called idle phase_eq => exact h.setPush (by simp [idle])
  | refused locking => exact h.setPush (by simp [locking])
  | @entered i delta ds locking opened =>
    exact ⟨h.sound,fun _ _ => .inr ⟨i,delta,setPush_self _ _ _⟩⟩
  | notified notifying =>
    exact ⟨s.notify.sound_notifyOne,fun _ _ => .inl s.notify.pending_notifyOne⟩
  | expires => exact ⟨h.sound,h.heard⟩
  | quorum checking opened met =>
    refine ⟨h.sound,fun hphase => ?_⟩
    simp [close] at hphase
  | timeout taking =>
    refine ⟨h.sound,fun hphase => ?_⟩
    simp [close] at hphase
  | unmet checking unmet =>
    refine ⟨h.sound,?_⟩
    rintro _ ⟨ds,hds,hq⟩
    have hlt := unmet ds hds
    change s.buffer.quorum ≤ ds.length at hq
    omega
  | taking reading => exact ⟨h.sound,fun hphase => by simp at hphase⟩
  | waiting reading => exact ⟨h.sound,fun _ => h.heard (.inl reading)⟩
  | woken waiting ready => exact ⟨h.sound.poll,fun hphase => by simp at hphase⟩
  | parked waiting unready =>
    refine ⟨h.sound.poll,fun _ hfull => ?_⟩
    rw [Notify.pending_poll unready]
    exact h.heard (.inr waiting) hfull
  | timedOut waiting => exact ⟨s.notify.sound_drop,fun hphase => by simp at hphase⟩

theorem wakeful_after [HasRound δ] (round quorum : ℕ) (events : List (FlushEvent ι δ)) :
    Wakeful (Run.after step (new round quorum) events) :=
  Run.after_of_kept Wakeful (wakeful_new round quorum) fun s e h => h.moves (s.step_moves e)

/-- A flusher that waits over a full buffer flushes on quorum with its next two steps, once
nobody is about to notify it. -/
theorem Wakeful.flushes [HasRound δ] (h : Wakeful s) (hwaiting : s.flusher = .waiting)
    (hfull : s.Full) (hquiet : ¬s.Notifying) :
    ∃ deltas, ((s.step .flusher).step .flusher).flusher =
      .done ⟨s.buffer.round,.quorum,deltas⟩ := by
  have hready := h.sound.poll_eq_true ((h.heard (.inr hwaiting) hfull).resolve_right hquiet)
  obtain ⟨ds,hds,hq⟩ := hfull
  have hclose : s.buffer.closeIfQuorumMet = some (ds,s.buffer.close) := by
    simp [RoundBuffer.closeIfQuorumMet, hds, hq]
  refine ⟨ds,?_⟩
  simp [step, advance, hwaiting, hready, hclose, close]

/-- In no state that any interleaving reaches is the flusher asleep over a full buffer with no
permit stored and no push about to notify. -/
theorem not_stalled_after [HasRound δ] (round quorum : ℕ) (events : List (FlushEvent ι δ)) :
    ¬Stalled (Run.after step (new round quorum) events) := by
  have hwakeful := wakeful_after round quorum events
  rintro ⟨hwaiting,hparked,hpermit,hfull,hquiet⟩
  rcases hwakeful.heard (.inr hwaiting) hfull with hpending | ⟨i,delta,hi⟩
  · simp [Notify.pending, hparked, hpermit] at hpending
  · exact hquiet i delta hi

end ConfluxFL.Flushing
