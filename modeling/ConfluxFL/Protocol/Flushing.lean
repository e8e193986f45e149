import ConfluxFL.Lib.Notify
import ConfluxFL.Lib.Run
import ConfluxFL.Buffer

/-! The round buffer under any interleaving of its pushers and its one flusher. Every visit to
the lock is one step; between visits a pusher has yet to notify and the flusher has yet to read
the clock or to wait. -/
namespace ConfluxFL
variable {ι δ : Type}

/-- Where a call of `push` stands. -/
inductive PushPhase (δ : Type) where
  | idle
  | locking (delta : δ)
  | notifying (delta : δ)
  | returned (delta : δ) (result : Except BufferError Unit)

/-- Where the call of `await_flush` stands. -/
inductive FlusherPhase (δ : Type) where
  | checking
  | reading
  | taking
  | waiting
  | done (result : FlushResult δ)

/-- One buffer with its callers. `entered` lists the pushes that found the buffer open, in the
order of their critical sections, and is read by no step. -/
structure Flushing (ι δ : Type) where
  buffer : RoundBuffer δ
  notify : Notify
  expired : Bool
  flusher : FlusherPhase δ
  pushes : ι → PushPhase δ
  entered : List (ι × δ)

/-- What may happen next. Any pusher moves at any time, the deadline passes at any time, and
the flusher moves whenever it is scheduled. -/
inductive FlushEvent (ι δ : Type) where
  | call (i : ι) (delta : δ)
  | enter (i : ι)
  | notify (i : ι)
  | deadline
  | flusher
  | timer

namespace Flushing

def new (round quorum : ℕ) : Flushing ι δ :=
  ⟨.new round quorum,.new,false,.checking,fun _ => .idle,[]⟩

variable [DecidableEq ι]

def setPush (s : Flushing ι δ) (i : ι) (phase : PushPhase δ) : Flushing ι δ :=
  { s with pushes := Function.update s.pushes i phase }

@[simp] theorem setPush_self (s : Flushing ι δ) (i : ι) (phase : PushPhase δ) :
    (s.setPush i phase).pushes i = phase := by
  simp [setPush]

theorem setPush_ne (s : Flushing ι δ) {i j : ι} (phase : PushPhase δ) (h : j ≠ i) :
    (s.setPush i phase).pushes j = s.pushes j := by
  simp [setPush, h]

theorem setPush_cases {s : Flushing ι δ} {i j : ι} {phase p : PushPhase δ}
    (h : (s.setPush i phase).pushes j = p) : j = i ∧ phase = p ∨ s.pushes j = p := by
  by_cases hj : j = i
  · rw [hj, setPush_self] at h
    exact .inl ⟨hj,h⟩
  · rw [setPush_ne s phase hj] at h
    exact .inr h

/-- The round is compared before the lock is taken. -/
def call [HasRound δ] (s : Flushing ι δ) (i : ι) (delta : δ) : Flushing ι δ :=
  if HasRound.round delta ≠ s.buffer.round then
    s.setPush i (.returned delta (.error (.wrongRound s.buffer.round (HasRound.round delta))))
  else s.setPush i (.locking delta)

/-- A push inside the lock. -/
def enter [HasRound δ] (s : Flushing ι δ) (i : ι) (delta : δ) : Flushing ι δ :=
  match s.buffer.push delta with
  | .ok buffer =>
    { s with buffer := buffer, entered := s.entered++[(i,delta)] }.setPush i (.notifying delta)
  | .error e => s.setPush i (.returned delta (.error e))

def notifyOne (s : Flushing ι δ) (i : ι) (delta : δ) : Flushing ι δ :=
  { s with notify := s.notify.notifyOne }.setPush i (.returned delta (.ok ()))

/-- The flusher closes the buffer with what was taken from it. -/
def close (s : Flushing ι δ) (reason : FlushReason) (taken : List δ × RoundBuffer δ) :
    Flushing ι δ :=
  { s with buffer := taken.2, flusher := .done ⟨s.buffer.round,reason,taken.1⟩ }

/-- The flusher's own next step. -/
def advance (s : Flushing ι δ) : Flushing ι δ :=
  match s.flusher with
  | .checking =>
    match s.buffer.closeIfQuorumMet with
    | some taken => s.close .quorum taken
    | none => { s with flusher := .reading }
  | .reading => { s with flusher := if s.expired then .taking else .waiting }
  | .taking => s.close .timeout s.buffer.closeAndTake
  | .waiting =>
    { s with notify := s.notify.poll.2
             flusher := if s.notify.poll.1 then .checking else .waiting }
  | .done _ => s

/-- The timer of the wait goes off. -/
def timeOut (s : Flushing ι δ) : Flushing ι δ :=
  match s.flusher with
  | .waiting =>
    if s.expired then { s with notify := s.notify.drop, flusher := .checking } else s
  | _ => s

/-- An event that is not possible changes nothing. -/
def step [HasRound δ] (s : Flushing ι δ) : FlushEvent ι δ → Flushing ι δ
  | .call i delta =>
    match s.pushes i with
    | .idle => s.call i delta
    | _ => s
  | .enter i =>
    match s.pushes i with
    | .locking delta => s.enter i delta
    | _ => s
  | .notify i =>
    match s.pushes i with
    | .notifying delta => s.notifyOne i delta
    | _ => s
  | .deadline => { s with expired := true }
  | .flusher => s.advance
  | .timer => s.timeOut

variable [HasRound δ]

/-- Everything a step can do. -/
inductive Moves (s : Flushing ι δ) : Flushing ι δ → Prop
  | stays : Moves s s
  | called {i : ι} {phase : PushPhase δ} (idle : s.pushes i = .idle)
      (phase_eq : (∃ delta, phase = .locking delta ∧ HasRound.round delta = s.buffer.round) ∨
        ∃ delta e, phase = .returned delta (.error e)) : Moves s (s.setPush i phase)
  | entered {i : ι} {delta : δ} {ds : List δ} (locking : s.pushes i = .locking delta)
      (opened : s.buffer.state = .opened ds) :
      Moves s ({ s with buffer := ⟨s.buffer.round,s.buffer.quorum,.opened (ds++[delta])⟩
                        entered := s.entered++[(i,delta)] }.setPush i (.notifying delta))
  | refused {i : ι} {delta : δ} {e : BufferError} (locking : s.pushes i = .locking delta) :
      Moves s (s.setPush i (.returned delta (.error e)))
  | notified {i : ι} {delta : δ} (notifying : s.pushes i = .notifying delta) :
      Moves s (s.notifyOne i delta)
  | expires : Moves s { s with expired := true }
  | quorum {ds : List δ} (checking : s.flusher = .checking) (opened : s.buffer.state = .opened ds)
      (met : s.buffer.quorum ≤ ds.length) : Moves s (s.close .quorum (ds,s.buffer.close))
  | unmet (checking : s.flusher = .checking)
      (unmet : ∀ ds, s.buffer.state = .opened ds → ds.length < s.buffer.quorum) :
      Moves s { s with flusher := .reading }
  | taking (reading : s.flusher = .reading) : Moves s { s with flusher := .taking }
  | waiting (reading : s.flusher = .reading) : Moves s { s with flusher := .waiting }
  | timeout (taking : s.flusher = .taking) : Moves s (s.close .timeout s.buffer.closeAndTake)
  | woken (waiting : s.flusher = .waiting) (ready : s.notify.poll.1 = true) :
      Moves s { s with notify := s.notify.poll.2, flusher := .checking }
  | parked (waiting : s.flusher = .waiting) (unready : s.notify.poll.1 = false) :
      Moves s { s with notify := s.notify.poll.2, flusher := .waiting }
  | timedOut (waiting : s.flusher = .waiting) :
      Moves s { s with notify := s.notify.drop, flusher := .checking }

theorem moves_call (s : Flushing ι δ) {i : ι} (delta : δ) (idle : s.pushes i = .idle) :
    s.Moves (s.call i delta) := by
  unfold call
  split
  · exact .called idle (.inr ⟨delta,_,rfl⟩)
  · rename_i h
    exact .called idle (.inl ⟨delta,rfl,not_not.mp h⟩)

theorem moves_enter (s : Flushing ι δ) {i : ι} {delta : δ} (locking : s.pushes i = .locking delta) :
    s.Moves (s.enter i delta) := by
  unfold enter
  cases h : s.buffer.push delta with
  | ok buffer =>
    obtain ⟨_,ds,hds,rfl⟩ := RoundBuffer.push_ok_iff.mp h
    exact .entered locking hds
  | error e => exact .refused locking

theorem moves_advance (s : Flushing ι δ) : s.Moves s.advance := by
  unfold advance
  cases hf : s.flusher with
  | done result => exact .stays
  | taking => exact .timeout hf
  | reading =>
    dsimp only
    split
    · exact .taking hf
    · exact .waiting hf
  | waiting =>
    dsimp only
    split
    · exact .woken hf ‹_›
    · exact .parked hf (Bool.not_eq_true _ ▸ ‹_›)
  | checking =>
    dsimp only
    cases hs : s.buffer.state with
    | closed =>
      have hnone : s.buffer.closeIfQuorumMet = none := by simp [RoundBuffer.closeIfQuorumMet, hs]
      rw [hnone]
      exact .unmet hf (by simp [hs])
    | opened ds =>
      by_cases hq : s.buffer.quorum ≤ ds.length
      · have hsome : s.buffer.closeIfQuorumMet = some (ds,s.buffer.close) := by
          simp [RoundBuffer.closeIfQuorumMet, hs, hq]
        rw [hsome]
        exact .quorum hf hs hq
      · have hnone : s.buffer.closeIfQuorumMet = none := by
          simp [RoundBuffer.closeIfQuorumMet, hs, hq]
        rw [hnone]
        refine .unmet hf fun ds' hds => ?_
        cases hs.symm.trans hds
        omega

theorem step_moves (s : Flushing ι δ) (e : FlushEvent ι δ) : s.Moves (s.step e) := by
  cases e with
  | call i delta =>
    dsimp only [step]
    split
    · exact s.moves_call delta ‹_›
    · exact .stays
  | enter i =>
    dsimp only [step]
    split
    · exact s.moves_enter ‹_›
    · exact .stays
  | notify i =>
    dsimp only [step]
    split
    · exact .notified ‹_›
    · exact .stays
  | deadline => exact .expires
  | flusher => exact s.moves_advance
  | timer =>
    dsimp only [step, timeOut]
    split
    · split
      · exact .timedOut ‹_›
      · exact .stays
    · exact .stays

/-- What holds between the buffer and its callers, for a buffer of this round and quorum. -/
structure Linearized (round quorum : ℕ) (s : Flushing ι δ) : Prop where
  ofRound : s.buffer.round = round
  ofQuorum : s.buffer.quorum = quorum
  /-- A push is in the lock's order exactly when it was taken, with the delta it carried. -/
  taken : ∀ i delta, (i,delta) ∈ s.entered ↔
    s.pushes i = .notifying delta ∨ s.pushes i = .returned delta (.ok ())
  once : (s.entered.map Prod.fst).Nodup
  enteredRound : ∀ x ∈ s.entered, HasRound.round x.2 = round
  /-- Only a push for this round gets as far as the lock. -/
  locking : ∀ i delta, s.pushes i = .locking delta → HasRound.round delta = round
  collected : (∀ result, s.flusher ≠ .done result) → s.buffer.state = .opened (s.entered.map Prod.snd)
  flushed : ∀ result, s.flusher = .done result → s.buffer.state = .closed ∧
    result.round = round ∧ result.deltas = s.entered.map Prod.snd ∧
      (result.reason = .quorum → quorum ≤ result.deltas.length)

omit [DecidableEq ι] in
theorem linearized_new (round quorum : ℕ) :
    Linearized round quorum (new round quorum : Flushing ι δ) where
  ofRound := rfl
  ofQuorum := rfl
  taken i delta := by simp [new]
  once := List.nodup_nil
  enteredRound x h := nomatch h
  locking i delta h := nomatch h
  collected _ := rfl
  flushed result h := nomatch h

section Step
variable {round quorum : ℕ} {s : Flushing ι δ}

/-- Moving a push that was not taken to a phase that is not either keeps everything. -/
theorem Linearized.setPush (h : Linearized round quorum s) {i : ι} {phase : PushPhase δ}
    (hold : ∀ delta, s.pushes i ≠ .notifying delta ∧ s.pushes i ≠ .returned delta (.ok ()))
    (hnew : ∀ delta, phase ≠ .notifying delta ∧ phase ≠ .returned delta (.ok ()))
    (hlock : ∀ delta, phase = .locking delta → HasRound.round delta = round) :
    Linearized round quorum (s.setPush i phase) where
  ofRound := h.ofRound
  ofQuorum := h.ofQuorum
  taken j delta := by
    by_cases hj : j = i
    · subst hj
      have htaken := h.taken j delta
      simp only [(hold delta).1, (hold delta).2, or_self, iff_false] at htaken
      simp [Flushing.setPush, (hnew delta).1, (hnew delta).2, htaken]
    · rw [setPush_ne s phase hj]
      exact h.taken j delta
  once := h.once
  enteredRound := h.enteredRound
  locking j delta hj := by
    rcases setPush_cases hj with ⟨-,hp⟩ | hj
    · exact hlock delta hp
    · exact h.locking j delta hj
  collected := h.collected
  flushed := h.flushed

theorem Linearized.entered (h : Linearized round quorum s) {i : ι} {delta : δ} {ds : List δ}
    (locking : s.pushes i = .locking delta) (opened : s.buffer.state = .opened ds) :
    Linearized round quorum ({ s with
      buffer := ⟨s.buffer.round,s.buffer.quorum,.opened (ds++[delta])⟩
      entered := s.entered++[(i,delta)] }.setPush i (.notifying delta)) := by
  have hcollected : ds = s.entered.map Prod.snd ∧ ∀ result, s.flusher ≠ .done result := by
    have hdone : ∀ result, s.flusher ≠ .done result := by
      intro result hr
      have hclosed := (h.flushed result hr).1
      rw [opened] at hclosed
      cases hclosed
    have hstate := h.collected hdone
    rw [opened, BufferState.opened.injEq] at hstate
    exact ⟨hstate,hdone⟩
  have hfresh : ∀ d, (i,d) ∉ s.entered := by
    intro d hd
    have hphase := (h.taken i d).mp hd
    simp [locking] at hphase
  refine ⟨h.ofRound,h.ofQuorum,fun j d => ?_,?_,fun x hx => ?_,fun j d hj => ?_,fun _ => ?_,
    fun result hr => ?_⟩
  · change (j,d) ∈ s.entered++[(i,delta)] ↔ _
    by_cases hj : j = i
    · subst hj
      rw [setPush_self, List.mem_append, List.mem_singleton]
      simp only [hfresh d, Prod.mk.injEq, true_and, false_or, PushPhase.notifying.injEq,
        reduceCtorEq, or_false]
      exact eq_comm
    · rw [setPush_ne _ _ hj, List.mem_append, List.mem_singleton, Prod.mk.injEq]
      simp only [hj, false_and, or_false]
      exact h.taken j d
  · change ((s.entered++[(i,delta)]).map Prod.fst).Nodup
    rw [List.map_append, List.nodup_append]
    refine ⟨h.once,by simp,?_⟩
    intro j hj k hk hjk
    obtain ⟨⟨j',d⟩,hmem,hj'⟩ := List.mem_map.mp hj
    have hki : k = i := by simpa using hk
    have hji : j' = i := hj'.trans (hjk.trans hki)
    exact hfresh d (hji ▸ hmem)
  · change x ∈ s.entered++[(i,delta)] at hx
    rcases List.mem_append.mp hx with hx | hx
    · exact h.enteredRound x hx
    · rw [List.mem_singleton.mp hx]
      exact h.locking i delta locking
  · rcases setPush_cases hj with ⟨-,hp⟩ | hj
    · cases hp
    · exact h.locking j d hj
  · change BufferState.opened (ds++[delta]) =
      .opened ((s.entered++[(i,delta)]).map Prod.snd)
    rw [List.map_append, hcollected.1]
    rfl
  · exact absurd hr (hcollected.2 result)

theorem Linearized.notified (h : Linearized round quorum s) {i : ι} {delta : δ}
    (notifying : s.pushes i = .notifying delta) :
    Linearized round quorum (s.notifyOne i delta) := by
  refine ⟨h.ofRound,h.ofQuorum,fun j d => ?_,h.once,h.enteredRound,fun j d hj => ?_,h.collected,
    h.flushed⟩
  · change (j,d) ∈ s.entered ↔ _
    rw [h.taken j d, notifyOne]
    by_cases hj : j = i
    · subst hj
      rw [setPush_self]
      simp [notifying]
    · rw [setPush_ne _ _ hj]
  · rcases setPush_cases hj with ⟨-,hp⟩ | hj
    · cases hp
    · exact h.locking j d hj

omit [DecidableEq ι] in
/-- The flusher moves between phases in which it has not flushed yet. -/
theorem Linearized.setFlusher (h : Linearized round quorum s) {phase : FlusherPhase δ}
    (notify : Notify) (hold : ∀ result, s.flusher ≠ .done result)
    (hnew : ∀ result, phase ≠ .done result) :
    Linearized round quorum { s with notify := notify, flusher := phase } :=
  ⟨h.ofRound,h.ofQuorum,h.taken,h.once,h.enteredRound,h.locking,fun _ => h.collected hold,
    fun result hr => absurd hr (hnew result)⟩

omit [DecidableEq ι] in
theorem Linearized.close (h : Linearized round quorum s) {reason : FlushReason}
    (hreason : reason = .quorum → quorum ≤ s.entered.length) :
    Linearized round quorum (s.close reason (s.entered.map Prod.snd,s.buffer.close)) := by
  refine ⟨h.ofRound,h.ofQuorum,h.taken,h.once,h.enteredRound,h.locking,?_,?_⟩
  · intro hnot
    exact absurd rfl (hnot _)
  · intro result hr
    cases hr
    exact ⟨rfl,h.ofRound,rfl,fun hq => by simpa using hreason hq⟩

theorem Linearized.moves {t : Flushing ι δ} (h : Linearized round quorum s) (hmove : s.Moves t) :
    Linearized round quorum t := by
  cases hmove with
  | stays => exact h
  | called idle phase_eq =>
    refine h.setPush (by simp [idle]) ?_ ?_
    · intro delta
      rcases phase_eq with ⟨d,rfl,_⟩ | ⟨d,e,rfl⟩ <;> simp
    · intro delta hphase
      rcases phase_eq with ⟨d,rfl,hd⟩ | ⟨d,e,rfl⟩
      · cases hphase
        exact hd.trans h.ofRound
      · cases hphase
  | entered locking opened => exact h.entered locking opened
  | refused locking => exact h.setPush (by simp [locking]) (by simp) (by simp)
  | notified notifying => exact h.notified notifying
  | expires => exact ⟨h.ofRound,h.ofQuorum,h.taken,h.once,h.enteredRound,h.locking,h.collected,h.flushed⟩
  | quorum checking opened met =>
    have hold : ∀ result, s.flusher ≠ .done result := by simp [checking]
    have hstate := h.collected hold
    rw [opened, BufferState.opened.injEq] at hstate
    subst hstate
    refine h.close fun _ => ?_
    rw [h.ofQuorum, List.length_map] at met
    exact met
  | unmet checking unmet => exact h.setFlusher _ (by simp [checking]) (by simp)
  | taking reading => exact h.setFlusher _ (by simp [reading]) (by simp)
  | waiting reading => exact h.setFlusher _ (by simp [reading]) (by simp)
  | timeout taking =>
    have hold : ∀ result, s.flusher ≠ .done result := by simp [taking]
    have htake : s.buffer.closeAndTake = (s.entered.map Prod.snd,s.buffer.close) := by
      simp [RoundBuffer.closeAndTake, RoundBuffer.deltas, h.collected hold]
    rw [htake]
    exact h.close nofun
  | woken waiting ready => exact h.setFlusher _ (by simp [waiting]) (by simp)
  | parked waiting unready => exact h.setFlusher _ (by simp [waiting]) (by simp)
  | timedOut waiting => exact h.setFlusher _ (by simp [waiting]) (by simp)

end Step

theorem linearized_after (round quorum : ℕ) (events : List (FlushEvent ι δ)) :
    Linearized round quorum (Run.after step (new round quorum) events) :=
  Run.after_of_kept (Linearized round quorum) (linearized_new round quorum)
    fun s e h => h.moves (s.step_moves e)

omit [DecidableEq ι] in
/-- The wait of the sequential model is what every interleaving comes to: the pushes that were
taken, in the order of the lock, and then the closing check. -/
theorem awaitFlush_of_done {round quorum : ℕ} {s : Flushing ι δ} (h : Linearized round quorum s)
    {result : FlushResult δ} (hdone : s.flusher = .done result) :
    ∃ timedOut, (RoundBuffer.new round quorum).awaitFlush (s.entered.map Prod.snd) timedOut =
      (result,s.buffer) := by
  obtain ⟨hclosed,hround,hdeltas,hreason⟩ := h.flushed result hdone
  have hall : (s.entered.map Prod.snd).filter (fun d => HasRound.round d = round) =
      s.entered.map Prod.snd := by
    rw [List.filter_eq_self]
    intro d hd
    obtain ⟨x,hx,rfl⟩ := List.mem_map.mp hd
    exact decide_eq_true (h.enteredRound x hx)
  have hbuffer : s.buffer = ⟨round,quorum,.closed⟩ := by
    rw [← h.ofRound, ← h.ofQuorum, ← hclosed]
  obtain ⟨r,reason,deltas⟩ := result
  dsimp only at hround hdeltas hreason
  subst hround hdeltas
  cases reason with
  | quorum =>
    refine ⟨false,?_⟩
    rw [RoundBuffer.awaitFlush_new, hall, hbuffer]
    simpa using hreason rfl
  | timeout =>
    refine ⟨true,?_⟩
    rw [RoundBuffer.awaitFlush_new, hall, hbuffer]
    simp

/-- Who changes what: the order grows when a push passes the lock, and only then; a call and a
refusal touch nothing but the caller's own phase; and a push that reaches the lock after the
flush is refused because the buffer is closed. -/
structure RefusesLate (s : Flushing ι δ) (e : FlushEvent ι δ) : Prop where
  ordered : (s.step e).entered = s.entered ∨ ∃ i delta, s.pushes i = .locking delta ∧
    (s.step e).pushes i = .notifying delta ∧ (s.step e).entered = s.entered++[(i,delta)]
  called : ∀ i delta, e = .call i delta → ∃ phase, s.step e = s.setPush i phase
  refused : ∀ i delta err, (s.step e).pushes i = .returned delta (.error err) →
    s.pushes i = .returned delta (.error err) ∨
      s.step e = s.setPush i (.returned delta (.error err))
  late : ∀ i delta result, s.flusher = .done result → e = .enter i → s.pushes i = .locking delta →
    (s.step e).pushes i = .returned delta (.error .closed)

theorem Moves.ordered {s t : Flushing ι δ} (h : s.Moves t) : t.entered = s.entered ∨
    ∃ i delta, s.pushes i = .locking delta ∧ t.pushes i = .notifying delta ∧
      t.entered = s.entered++[(i,delta)] := by
  cases h with
  | @entered i delta ds locking opened =>
    exact .inr ⟨i,delta,locking,setPush_self _ _ _,rfl⟩
  | _ => exact .inl rfl

theorem Moves.refusal {s t : Flushing ι δ} (h : s.Moves t) {i : ι} {delta : δ} {err : BufferError}
    (hi : t.pushes i = .returned delta (.error err)) :
    s.pushes i = .returned delta (.error err) ∨
      t = s.setPush i (.returned delta (.error err)) := by
  cases h with
  | called idle phase_eq =>
    rcases setPush_cases hi with ⟨rfl,rfl⟩ | hi
    · exact .inr rfl
    · exact .inl hi
  | refused locking =>
    rcases setPush_cases hi with ⟨rfl,hp⟩ | hi
    · cases hp
      exact .inr rfl
    · exact .inl hi
  | entered locking opened =>
    rcases setPush_cases hi with ⟨-,hp⟩ | hi
    · cases hp
    · exact .inl hi
  | notified notifying =>
    rcases setPush_cases hi with ⟨-,hp⟩ | hi
    · cases hp
    · exact .inl hi
  | _ => exact .inl hi

theorem refusesLate_step {round quorum : ℕ} {s : Flushing ι δ} (h : Linearized round quorum s)
    (e : FlushEvent ι δ) : RefusesLate s e := by
  refine ⟨(s.step_moves e).ordered,?_,fun i delta err => (s.step_moves e).refusal,?_⟩
  · rintro i delta rfl
    dsimp only [step]
    split
    · unfold call
      split
      · exact ⟨_,rfl⟩
      · exact ⟨_,rfl⟩
    · exact ⟨s.pushes i,by simp [setPush]⟩
  · rintro i delta result hdone rfl locking
    have hclosed := (h.flushed result hdone).1
    have hround := (h.locking i delta locking).trans h.ofRound.symm
    have hpush : s.buffer.push delta = .error .closed := by
      simp [RoundBuffer.push, hround, hclosed]
    simp [step, locking, enter, hpush]

/-- Whatever the interleaving, the flushed batch is the sequence of deltas whose push was taken,
in the order of the lock, each of them once, and reason `quorum` means that the quorum was
reached; refused pushes change nothing, and after the flush every push is refused. -/
theorem flushing_linearizable (round quorum : ℕ) (events : List (FlushEvent ι δ)) :
    Linearized round quorum (Run.after step (new round quorum) events) ∧
      Run.Always step RefusesLate (new round quorum) events := by
  refine ⟨linearized_after round quorum events,?_⟩
  refine Run.Always.of_invariant (Linearized round quorum) (linearized_new round quorum)
    (Run.always_of_forall_mem (p := fun _ => True) fun _ _ => trivial) ?_
  exact fun s e h _ => ⟨refusesLate_step h e,h.moves (s.step_moves e)⟩

end Flushing
end ConfluxFL
