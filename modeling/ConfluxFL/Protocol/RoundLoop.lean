import ConfluxFL.Server.Health

/-! The server's round loop as its clients see it: a round number, a buffer, and where the
current attempt stands. What an attempt computes is left out; every run of a serving process is a
run of this machine. -/
namespace ConfluxFL

inductive LoopPhase (δ : Type) where
  | idle
  | collecting
  | closing (batch : List δ)
  | stopped
  deriving DecidableEq, Repr

/-- How an attempt ends: with a checkpoint, with an error the loop retries, or for good. -/
inductive Ending | completed | transient | fatal
  deriving DecidableEq, Repr

structure RoundLoop (δ : Type) where
  round : ℕ
  buffer : Option (RoundBuffer δ)
  phase : LoopPhase δ

/-- What the loop does by itself. -/
inductive LoopMove where
  | opens (quorum : ℕ)
  | failsToOpen (ending : Ending)
  | flush (timedOut : Bool)
  | dies
  | finish (ending : Ending)
  deriving DecidableEq, Repr

inductive LoopEvent (δ : Type) where
  | move (m : LoopMove)
  | push (delta : δ)

namespace RoundLoop
variable {δ : Type}

def start : RoundLoop δ := ⟨1,none,.idle⟩

/-- A fresh buffer for the current round. -/
def opens (l : RoundLoop δ) (quorum : ℕ) : RoundLoop δ :=
  match l.phase with
  | .idle => { l with buffer := some (.new l.round quorum), phase := .collecting }
  | _ => l

/-- An attempt that ends before it opened a buffer. -/
def failsToOpen (l : RoundLoop δ) (ending : Ending) : RoundLoop δ :=
  match l.phase,ending with
  | .idle,.fatal => { l with phase := .stopped }
  | _,_ => l

/-- Close the buffer, on quorum if it is met or on timeout. -/
def flush (l : RoundLoop δ) (timedOut : Bool) : RoundLoop δ :=
  match l.phase,l.buffer with
  | .collecting,some b =>
    match if timedOut then some b.closeAndTake else b.closeIfQuorumMet with
    | some (batch,b') => { l with buffer := some b', phase := .closing batch }
    | none => l
  | _,_ => l

def dies (l : RoundLoop δ) : RoundLoop δ := { l with phase := .stopped }

/-- Only a completed attempt advances the round and drops its buffer. -/
def finish (l : RoundLoop δ) (ending : Ending) : RoundLoop δ :=
  match l.phase,ending with
  | .closing _,.completed => ⟨l.round+1,none,.idle⟩
  | .closing _,.transient => { l with phase := .idle }
  | .closing _,.fatal => { l with phase := .stopped }
  | _,_ => l

def move (l : RoundLoop δ) : LoopMove → RoundLoop δ
  | .opens quorum => l.opens quorum
  | .failsToOpen ending => l.failsToOpen ending
  | .flush timedOut => l.flush timedOut
  | .dies => l.dies
  | .finish ending => l.finish ending

def step [HasRound δ] (l : RoundLoop δ) : LoopEvent δ → RoundLoop δ
  | .move m => l.move m
  | .push delta => { l with buffer := l.buffer.map fun b => b.pushed delta }

/-- What the current attempt has accepted. -/
def attempt (l : RoundLoop δ) : List δ :=
  match l.phase with
  | .collecting => (l.buffer.map RoundBuffer.deltas).getD []
  | .closing batch => batch
  | _ => []

/-- The batch an attempt has flushed and works on. -/
def flushed (l : RoundLoop δ) : List δ :=
  match l.phase with
  | .closing batch => batch
  | _ => []

theorem flushed_sublist (l : RoundLoop δ) : l.flushed.Sublist l.attempt := by
  obtain ⟨round,buffer,phase⟩ := l
  cases phase with
  | closing batch => exact List.Sublist.refl batch
  | _ => exact List.nil_sublist _

/-- A flush takes everything a collecting attempt has, or does nothing. -/
theorem flush_cases (l : RoundLoop δ) (timedOut : Bool) : l.flush timedOut = l ∨
    l.phase = .collecting ∧ ∃ b, l.buffer = some b ∧
      l.flush timedOut = ⟨l.round,some b.close,.closing b.deltas⟩ := by
  obtain ⟨round,buffer,phase⟩ := l
  cases phase with
  | collecting =>
    cases buffer with
    | none => exact .inl rfl
    | some b =>
      cases timedOut with
      | true => exact .inr ⟨rfl,b,rfl,rfl⟩
      | false =>
        rcases b.closeIfQuorumMet_cases with hnone | htake
        · left
          simp only [flush, Bool.false_eq_true, if_false, hnone]
        · right
          refine ⟨rfl,b,rfl,?_⟩
          simp only [flush, Bool.false_eq_true, if_false, htake, RoundBuffer.closeAndTake]
  | _ => exact .inl rfl

theorem attempt_flush (l : RoundLoop δ) (timedOut : Bool) :
    (l.flush timedOut).attempt = l.attempt := by
  rcases l.flush_cases timedOut with heq | ⟨hphase,b,hb,heq⟩
  · rw [heq]
  · rw [heq, attempt, attempt, hphase, hb]
    rfl

/-- The loop adds nothing to an attempt by itself. -/
theorem attempt_move (l : RoundLoop δ) (m : LoopMove) : (l.move m).attempt.Sublist l.attempt := by
  cases m with
  | opens quorum =>
    simp only [move, opens]
    split
    · exact List.nil_sublist _
    · exact List.Sublist.refl _
  | failsToOpen ending =>
    simp only [move, failsToOpen]
    split
    · exact List.nil_sublist _
    · exact List.Sublist.refl _
  | flush timedOut =>
    rw [move, attempt_flush]
  | dies => exact List.nil_sublist _
  | finish ending =>
    simp only [move, finish]
    split
    · exact List.nil_sublist _
    · exact List.nil_sublist _
    · exact List.nil_sublist _
    · exact List.Sublist.refl _

section Attempt
variable [HasRound δ]

/-- A push adds to the attempt that collects. -/
theorem attempt_push (round : ℕ) (phase : LoopPhase δ) {b b' : RoundBuffer δ} {x : δ}
    (h : b.push x = .ok b') :
    (⟨round,some b',phase⟩ : RoundLoop δ).attempt =
      (⟨round,some b,phase⟩ : RoundLoop δ).attempt++(match phase with
        | .collecting => [x]
        | _ => []) := by
  cases phase with
  | collecting =>
    obtain ⟨_,ds,hstate,rfl⟩ := RoundBuffer.push_ok_iff.mp h
    simp only [attempt, Option.map_some, Option.getD_some, RoundBuffer.deltas, hstate]
  | idle => rfl
  | closing batch => exact (List.append_nil batch).symm
  | stopped => rfl

theorem after_pushes (round : ℕ) (b : RoundBuffer δ) (arrivals : List δ) :
    Run.after step ⟨round,some b,.collecting⟩ (arrivals.map LoopEvent.push) =
      ⟨round,some (arrivals.foldl RoundBuffer.pushed b),.collecting⟩ := by
  induction arrivals generalizing b with
  | nil => rfl
  | cons x arrivals ih => exact ih (b.pushed x)

/-- The events of an attempt that is not cut short. -/
def attemptEvents (quorum : ℕ) (arrivals : List δ) (timedOut : Bool) (ending : Ending) :
    List (LoopEvent δ) :=
  .move (.opens quorum)::(arrivals.map .push++[.move (.flush timedOut),.move (.finish ending)])

section Uncut
variable (round quorum : ℕ) (buffer : Option (RoundBuffer δ)) (arrivals : List δ)
  {timedOut : Bool} (ending : Ending)

theorem after_flush
    (h : timedOut = false → quorum ≤ (arrivals.filter fun x => HasRound.round x = round).length) :
    (Run.after step ⟨round,some (.new round quorum),.collecting⟩ (arrivals.map .push)).flush
        timedOut =
      ⟨round,some ⟨round,quorum,.closed⟩,
        .closing (arrivals.filter fun x => HasRound.round x = round)⟩ := by
  rw [after_pushes, RoundBuffer.new, RoundBuffer.foldl_pushed, List.nil_append]
  cases timedOut with
  | true => rfl
  | false =>
    have hq := h rfl
    simp only [flush, Bool.false_eq_true, if_false, RoundBuffer.closeIfQuorumMet, if_pos hq]
    rfl

theorem after_attempt
    (h : timedOut = false → quorum ≤ (arrivals.filter fun x => HasRound.round x = round).length) :
    Run.after step ⟨round,buffer,.idle⟩ (attemptEvents quorum arrivals timedOut ending) =
      (⟨round,some ⟨round,quorum,.closed⟩,
        .closing (arrivals.filter fun x => HasRound.round x = round)⟩ : RoundLoop δ).finish
        ending := by
  rw [← after_flush round quorum arrivals h, attemptEvents, Run.after_cons, Run.after_append]
  rfl

/-- Such an attempt hands over the arrivals for its round, in order. -/
theorem always_attempt
    (h : timedOut = false → quorum ≤ (arrivals.filter fun x => HasRound.round x = round).length) :
    Run.Always step (fun l _ => ∀ batch, l.phase = .closing batch →
      l.round = round ∧ batch = arrivals.filter fun x => HasRound.round x = round)
      ⟨round,buffer,.idle⟩ (attemptEvents quorum arrivals timedOut ending) := by
  have hpush (b : RoundBuffer δ) (xs : List δ) : Run.Always step (fun l _ => ∀ batch,
      l.phase = .closing batch →
        l.round = round ∧ batch = arrivals.filter fun x => HasRound.round x = round)
      ⟨round,some b,.collecting⟩ (xs.map .push) := by
    induction xs generalizing b with
    | nil => trivial
    | cons x xs ih => exact ⟨by simp,ih (b.pushed x)⟩
  refine ⟨by simp,Run.always_append.mpr ⟨hpush _ _,?_,?_,trivial⟩⟩
  · change ∀ batch, (Run.after step ⟨round,some (.new round quorum),.collecting⟩ _).phase = _ → _
    rw [after_pushes]
    simp
  · intro batch hbatch
    change ((Run.after step ⟨round,some (.new round quorum),.collecting⟩ (arrivals.map .push)).flush
      timedOut).phase = _ at hbatch
    change ((Run.after step ⟨round,some (.new round quorum),.collecting⟩ (arrivals.map .push)).flush
      timedOut).round = _ ∧ _
    rw [after_flush round quorum arrivals h] at hbatch ⊢
    cases hbatch
    exact ⟨rfl,rfl⟩

end Uncut
end Attempt

section Map
variable {δ' : Type} (f : δ → δ')

def mapBuffer (b : RoundBuffer δ) : RoundBuffer δ' :=
  ⟨b.round,b.quorum,
    match b.state with
    | .opened deltas => .opened (deltas.map f)
    | .closed => .closed⟩

def mapPhase : LoopPhase δ → LoopPhase δ'
  | .idle => .idle
  | .collecting => .collecting
  | .closing batch => .closing (batch.map f)
  | .stopped => .stopped

/-- The same loop, seen with less of what it collects. -/
def map (l : RoundLoop δ) : RoundLoop δ' := ⟨l.round,l.buffer.map (mapBuffer f),mapPhase f l.phase⟩

end Map
end RoundLoop

section Refinement
open Fallible RoundM
variable {κ : Type} {d : Deployment κ} {env : RoundEnv} {s t : Server κ}

/-- A server as its clients see it. -/
def Server.view (s : Server κ) (phase : LoopPhase Submission) : RoundLoop Submission :=
  ⟨s.round,s.currentBuffer,phase⟩

/-- What the loop does after an attempt that ends like this. -/
def phaseAfter {α : Type} : EStateM.Result Stop (Server κ) α → LoopPhase Submission
  | .ok _ _ => .idle
  | .error (.err e) _ => if e.isTransient then .idle else .stopped
  | .error (.panic _) _ => .stopped
  | .error .crash _ => .stopped

def endingOf {α : Type} : EStateM.Result Stop (Server κ) α → Ending
  | .ok _ _ => .completed
  | .error (.err e) _ => if e.isTransient then .transient else .fatal
  | .error (.panic _) _ => .fatal
  | .error .crash _ => .fatal

def Server.slot (s : Server κ) : ℕ × Option (RoundBuffer Submission) := (s.round,s.currentBuffer)

/-- An attempt that does not open leaves the buffer that was there. -/
theorem openRound_error_slot {stop : Stop} (h : openRound d env s = .error stop t) :
    t.slot = s.slot := by
  obtain h | ⟨_,s₁,hget,h⟩ := bind_error_iff.mp h
  · cases h
  cases hget
  obtain h | ⟨_,s₂,hbudget,h⟩ := bind_error_iff.mp h
  · exact keeps_checkPrivacyBudget.error h
  have h₂ : s₂.slot = s.slot := keeps_checkPrivacyBudget.ok hbudget
  obtain h | ⟨_,s₃,hload,h⟩ := bind_error_iff.mp h
  · exact (keeps_loadLatestWeights.error h).trans h₂
  have h₃ : s₃.slot = s.slot := (keeps_loadLatestWeights.ok hload).trans h₂
  obtain h | ⟨_,s₄,hactive,h⟩ := bind_error_iff.mp h
  · exact ((keeps_ask env.active _).error h).trans h₃
  have h₄ : s₄.slot = s.slot := ((keeps_ask env.active _).ok hactive).trans h₃
  obtain h | ⟨_,s₅,_,h⟩ := bind_error_iff.mp h
  · exact ((keeps_checkBatchRequirement (fun _ _ => rfl) _ _).error h).trans h₄
  cases h

theorem openRound_ok_slot {o : Opened} (h : openRound d env s = .ok o t) :
    t.slot = (s.round,some (.new s.round o.quorum)) := by
  obtain ⟨s₀,s₁,hget,h⟩ := bind_ok_iff.mp h
  cases hget
  obtain ⟨_,s₂,hbudget,h⟩ := bind_ok_iff.mp h
  obtain ⟨w,s₃,hload,h⟩ := bind_ok_iff.mp h
  obtain ⟨active,s₄,hactive,h⟩ := bind_ok_iff.mp h
  obtain ⟨_,s₅,hreq,h⟩ := bind_ok_iff.mp h
  have h₂ : s₂.slot = s.slot := keeps_checkPrivacyBudget.ok hbudget
  have h₃ : s₃.slot = s.slot := (keeps_loadLatestWeights.ok hload).trans h₂
  have h₄ : s₄.slot = s.slot := ((keeps_ask env.active _).ok hactive).trans h₃
  have h₅ : s₅.slot = s.slot :=
    ((keeps_checkBatchRequirement (fun _ _ => rfl) _ _).ok hreq).trans h₄
  have hround : s₅.round = s.round := congrArg Prod.fst h₅
  cases h
  exact Prod.ext hround rfl

/-- Committing either fails with the buffer as it was or advances and drops it. -/
theorem commitRound_slot (p : Prepared) :
    (∃ stop t, commitRound d env p s = .error stop t ∧ t.slot = s.slot) ∨
      ∃ t, commitRound d env p s = .ok p.summary t ∧ t.slot = (p.opened.round+1,none) := by
  rw [commitRound_apply]
  cases aggregatePanics d s p.batch with
  | some message => exact .inl ⟨_,_,rfl,rfl⟩
  | none =>
  dsimp only
  cases aggregateAnswer d s p.batch with
  | error e => exact .inl ⟨_,_,rfl,rfl⟩
  | ok weights =>
    have hrun (outcome : WriteOutcome) : (outcome.run (fun s => s.checkpointed p.opened.round
        weights p.batch) (aggregated d s p.batch)).slot = s.slot := by
      unfold WriteOutcome.run
      split
      · rfl
      · rfl
    cases env.save with
    | fail applied e => exact .inl ⟨_,_,rfl,hrun _⟩
    | crash applied => exact .inl ⟨_,_,rfl,hrun _⟩
    | ok =>
      dsimp only
      cases hrows : appendRows d env (p.cost d) p.admitted (committed d s p weights) with
      | error stop t =>
        have hslot : t.slot = (committed d s p weights).slot :=
          (keeps_appendRows_of fun _ _ => rfl).error hrows
        exact .inl ⟨stop,t,rfl,hslot⟩
      | ok u t => exact .inr ⟨_,rfl,rfl⟩

/-- The part of an attempt behind the flush. -/
theorem closing_slot (d : Deployment κ) (env : RoundEnv) (s : Server κ) (o : Opened) (flush : FlushResult Submission) :
    (∃ stop t, (filterBatch d env o flush >>= commitRound d env) s = .error stop t ∧
      t.slot = s.slot) ∨
    ∃ summary t, (filterBatch d env o flush >>= commitRound d env) s = .ok summary t ∧
      t.slot = (o.round+1,none) := by
  have hkeep : Keeps Server.slot (filterBatch d env o flush) :=
    keeps_filterBatch (fun _ _ => rfl) (fun _ _ => rfl) o flush
  rw [bind_apply]
  cases hf : filterBatch d env o flush s with
  | error stop t => exact .inl ⟨stop,t,rfl,hkeep.error hf⟩
  | ok p s₁ =>
    have hs : s₁.slot = s.slot := hkeep.ok hf
    have hround : p.opened = o := (filterBatch_ok hf).1
    rcases commitRound_slot p with ⟨stop,t,hc,ht⟩ | ⟨t,hc,ht⟩
    · exact .inl ⟨stop,t,hc,ht.trans hs⟩
    · rw [hround] at ht
      exact .inr ⟨p.summary,t,hc,ht⟩

/-- An attempt in the order its phases run. -/
theorem runRound_phases : runRound d env s = (openRound d env >>= fun o =>
    flushRound env o >>= fun flush => filterBatch d env o flush >>= commitRound d env) s := by
  unfold runRound prepareBatch
  rw [bind_assoc]
  simp only [bind_assoc]

section Simulation
variable {δ : Type} (f : δ → Submission)

theorem finish_view {α : Type} {result : EStateM.Result Stop (Server κ) α} {round quorum : ℕ}
    (batch : List δ)
    (h : (∃ stop t, result = .error stop t ∧ t.slot = (round,some ⟨round,quorum,.closed⟩)) ∨
      ∃ a t, result = .ok a t ∧ t.slot = (round+1,none)) :
    ((⟨round,some ⟨round,quorum,.closed⟩,.closing batch⟩ : RoundLoop δ).finish
      (endingOf result)).map f = (stateOf result).view (phaseAfter result) := by
  rcases h with ⟨stop,t,rfl,h⟩ | ⟨a,t,rfl,h⟩
  · obtain ⟨hr,hb⟩ := Prod.mk.inj h
    cases stop with
    | crash =>
      rw [stateOf, Server.view, hr, hb]
      rfl
    | panic message =>
      rw [stateOf, Server.view, hr, hb]
      rfl
    | err e =>
      rw [stateOf, Server.view, hr, hb]
      cases he : e.isTransient with
      | true =>
        simp only [endingOf, phaseAfter, he, if_true]
        rfl
      | false =>
        simp only [endingOf, phaseAfter, he, Bool.false_eq_true, if_false]
        rfl
  · obtain ⟨hr,hb⟩ := Prod.mk.inj h
    rw [stateOf, Server.view, hr, hb]
    rfl

theorem failsToOpen_view {α : Type} {stop : Stop} {buffer : Option (RoundBuffer δ)}
    (h : t.slot = (s.round,buffer.map (RoundLoop.mapBuffer f))) :
    ((⟨s.round,buffer,.idle⟩ : RoundLoop δ).failsToOpen
      (endingOf (.error stop t : EStateM.Result Stop (Server κ) α))).map f =
      t.view (phaseAfter (.error stop t : EStateM.Result Stop (Server κ) α)) := by
  obtain ⟨hr,hb⟩ := Prod.mk.inj h
  rw [Server.view, hr, hb]
  cases stop with
  | crash => rfl
  | panic message => rfl
  | err e =>
    cases he : e.isTransient with
    | true =>
      simp only [endingOf, phaseAfter, he, if_true]
      rfl
    | false =>
      simp only [endingOf, phaseAfter, he, Bool.false_eq_true, if_false]
      rfl

/-- Every attempt of the server is a run of the loop: when what the loop collects maps to what
the server does, some moves around the arrivals lead from what clients saw before the attempt to
what they see after it, and the batch handed over on the way is the server's. -/
theorem runRound_refines [HasRound δ] (d : Deployment κ) (env : RoundEnv) (s : Server κ)
    (hf : ∀ x, HasRound.round (f x) = HasRound.round x) {arrivals : List δ}
    (harrivals : env.arrivals = arrivals.map f) {buffer : Option (RoundBuffer δ)}
    (hbuffer : buffer.map (RoundLoop.mapBuffer f) = s.currentBuffer) :
    ∃ events : List (LoopEvent δ), (∀ x, .push x ∈ events → x ∈ arrivals) ∧
      Run.Always RoundLoop.step (fun l _ => ∀ batch, l.phase = .closing batch →
        batch.map f = env.flushed l.round) ⟨s.round,buffer,.idle⟩ events ∧
      (Run.after RoundLoop.step ⟨s.round,buffer,.idle⟩ events).map f =
        (stateOf (runRound d env s)).view (phaseAfter (runRound d env s)) := by
  rw [runRound_phases, bind_apply]
  cases hopen : openRound d env s with
  | error stop t =>
    have hslot := openRound_error_slot hopen
    rw [Server.slot, Server.slot, ← hbuffer] at hslot
    exact ⟨[.move (.failsToOpen (endingOf
      (.error stop t : EStateM.Result Stop (Server κ) RoundSummary)))],by simp,
      ⟨by simp,trivial⟩,failsToOpen_view f hslot⟩
  | ok o t =>
    obtain ⟨hr,hb⟩ := Prod.mk.inj (openRound_ok_slot hopen)
    have hround : o.round = s.round := (openRound_ok hopen).1
    dsimp only
    cases hdies : env.diesCollecting with
    | true =>
      have hflush : (flushRound env o : RoundM κ _) t = .error .crash t := by
        unfold flushRound
        rw [if_pos hdies]
        rfl
      refine ⟨[.move (.opens o.quorum),.move .dies],by simp,
        ⟨by simp,by simp [RoundLoop.step, RoundLoop.move, RoundLoop.opens],trivial⟩,?_⟩
      rw [bind_apply, hflush]
      dsimp only
      rw [stateOf, Server.view, hr, hb]
      rfl
    | false =>
      let closed : RoundBuffer Submission := ⟨s.round,o.quorum,.closed⟩
      let batch := arrivals.filter fun x => HasRound.round x = s.round
      obtain ⟨flush,hflush⟩ : ∃ flush, (flushRound env o : RoundM κ _) t =
          .ok flush { t with currentBuffer := some closed } := by
        unfold flushRound
        rw [hdies, RoundBuffer.awaitFlush_new, hround]
        exact ⟨_,rfl⟩
      rw [bind_apply, hflush]
      have hclosing := closing_slot d env { t with currentBuffer := some closed } o flush
      dsimp only
      generalize (filterBatch d env o flush >>= commitRound d env)
        { t with currentBuffer := some closed } = result at hclosing ⊢
      rw [hround, Server.slot, hr] at hclosing
      have hquorum (h : decide (batch.length < o.quorum) = false) : o.quorum ≤ batch.length :=
        not_lt.mp (of_decide_eq_false h)
      have hbatch : batch.map f = env.flushed s.round := by
        rw [RoundEnv.flushed, harrivals, List.filter_map]
        congr 1
        apply List.filter_congr
        intro x _
        exact congrArg (fun r => decide (r = s.round)) (hf x).symm
      refine ⟨RoundLoop.attemptEvents o.quorum arrivals (decide (batch.length < o.quorum))
        (endingOf result),by simp [RoundLoop.attemptEvents],?_,?_⟩
      · apply (RoundLoop.always_attempt s.round o.quorum buffer arrivals _ hquorum).mono
        intro l _ h batch' hphase
        obtain ⟨hat,rfl⟩ := h batch' hphase
        rw [hat]
        exact hbatch
      · rw [RoundLoop.after_attempt _ _ _ _ _ hquorum]
        exact finish_view f _ hclosing

end Simulation
end Refinement

section Process
open Fallible RoundM
variable {κ ι : Type}

/-- Where the loop of a process stands between its attempts. -/
def ServePhase.seen : ServePhase → LoopPhase Submission
  | .recording _ .exits => .stopped
  | .exited => .stopped
  | .panicked => .stopped
  | .died => .stopped
  | _ => .idle

/-- A serving process as its clients see it between attempts. -/
def ServeTask.seen (s : ServeTask κ ι) : RoundLoop Submission := s.server.view s.phase.seen

theorem ServeTask.seen_attempt (d : Deployment κ) (s : ServeTask κ ι) (env : RoundEnv) (now : ℕ) :
    (s.attempt d env now).seen =
      (stateOf (runRound d env s.server)).view (phaseAfter (runRound d env s.server)) := by
  unfold ServeTask.attempt ServeTask.seen
  cases runRound d env s.server with
  | ok summary server => rfl
  | error stop server =>
    cases stop with
    | crash => rfl
    | panic message => rfl
    | err e =>
      dsimp only
      by_cases h : e.isTransient = true
      · rw [if_pos h, phaseAfter, if_pos h]
        rfl
      · rw [if_neg h, phaseAfter, if_neg h]
        rfl

/-- Clients see no event but those the loop takes up between two attempts. -/
theorem ServeTask.seen_step [DecidableEq ι] (d : Deployment κ) (s : ServeTask κ ι) {e : ServeEvent ι}
    (h : ¬∃ env now, e = .proceeds env now ∧ s.phase = .top) : (s.step d e).seen = s.seen := by
  cases e with
  | proceeds env now =>
    rw [ServeTask.step, ServeTask.onProceeds]
    split
    next hphase => exact absurd ⟨env,now,rfl,hphase⟩ h
    next => rfl
  | stores =>
    rw [ServeTask.step, ServeTask.onStores]
    split
    next c stores next hphase =>
      rw [ServeTask.seen, ServeTask.seen, hphase]
      cases next <;> rfl
    next hphase => rw [ServeTask.seen, ServeTask.seen, hphase]; rfl
    next hphase => rw [ServeTask.seen, ServeTask.seen, hphase]; rfl
    next hphase => rw [ServeTask.seen, ServeTask.seen, hphase]; rfl
    · rfl
  | wakes =>
    rw [ServeTask.step, ServeTask.onWakes]
    split
    next hphase => rw [ServeTask.seen, ServeTask.seen, hphase]; rfl
    · rfl
  | shutdown => rfl
  | reads i =>
    rw [ServeTask.step, ServeTask.onReads]
    split
    · rfl
    · split <;> rfl

variable {δ : Type} [HasRound δ] (f : δ → Submission)

omit [HasRound δ] in
theorem RoundLoop.map_eq_view {l : RoundLoop δ} {s : Server κ} (h : l.map f = s.view .idle) :
    l = ⟨s.round,l.buffer,.idle⟩ ∧ l.buffer.map (mapBuffer f) = s.currentBuffer := by
  obtain ⟨round,buffer,phase⟩ := l
  obtain ⟨hround,hbuffer,hphase⟩ := RoundLoop.mk.inj h
  dsimp only at hround hbuffer hphase
  refine ⟨?_,hbuffer⟩
  cases phase with
  | idle => rw [hround]
  | _ => cases hphase

/-- What the loop takes in, and the batch it hands over, are those of one of the events. -/
structure Accounted (events : List (ServeEvent ι)) (l : RoundLoop δ) (m : LoopEvent δ) : Prop where
  arrived : ∀ x, m = .push x → ∃ env now, .proceeds env now ∈ events ∧ f x ∈ env.arrivals
  flushed : ∀ batch, l.phase = .closing batch →
    ∃ env now, .proceeds env now ∈ events ∧ batch.map f = env.flushed l.round

omit [HasRound δ] in
theorem Accounted.mono {f : δ → Submission} {events events' : List (ServeEvent ι)}
    {l : RoundLoop δ} {m : LoopEvent δ} (h : Accounted f events l m)
    (hsub : ∀ e ∈ events, e ∈ events') : Accounted f events' l m := by
  refine ⟨fun x hx => ?_,fun batch hphase => ?_⟩
  · obtain ⟨env,now,hmem,hx⟩ := h.arrived x hx
    exact ⟨env,now,hsub _ hmem,hx⟩
  · obtain ⟨env,now,hmem,hbatch⟩ := h.flushed batch hphase
    exact ⟨env,now,hsub _ hmem,hbatch⟩

/-- An event of a process that stands where the loop stands is some moves of the loop around what
arrives. -/
theorem serveStep_refines [DecidableEq ι] (d : Deployment κ)
    (hf : ∀ x, HasRound.round (f x) = HasRound.round x) {s : ServeTask κ ι} {l : RoundLoop δ}
    (hl : l.map f = s.seen) (e : ServeEvent ι)
    (he : ∀ env now, e = .proceeds env now → ∃ arrivals : List δ, env.arrivals = arrivals.map f) :
    ∃ moves : List (LoopEvent δ), Run.Always RoundLoop.step (Accounted f [e]) l moves ∧
      (Run.after RoundLoop.step l moves).map f = (s.step d e).seen := by
  by_cases hproceeds : ∃ env now, e = .proceeds env now ∧ s.phase = .top
  · obtain ⟨env,now,rfl,hphase⟩ := hproceeds
    rw [ServeTask.seen, hphase] at hl
    obtain ⟨hidle,hbuffer⟩ := RoundLoop.map_eq_view f hl
    have hstep : s.step d (.proceeds env now) =
        if s.shutdown then s.ends s.server (.stopped none) else s.attempt d env now := by
      rw [ServeTask.step, ServeTask.onProceeds, hphase]
    by_cases hshutdown : s.shutdown = true
    · rw [hstep, if_pos hshutdown]
      refine ⟨[.move (.failsToOpen .fatal)],⟨⟨by simp,?_⟩,trivial⟩,?_⟩
      · rw [hidle]
        intro batch hclosing
        cases hclosing
      · rw [hidle]
        exact congrArg (fun b => (⟨s.server.round,b,.stopped⟩ : RoundLoop Submission)) hbuffer
    · rw [hstep, if_neg hshutdown, s.seen_attempt]
      obtain ⟨arrivals,harrivals⟩ := he env now rfl
      obtain ⟨moves,hpush,hbatch,hafter⟩ :=
        runRound_refines f d env s.server hf harrivals hbuffer
      rw [← hidle] at hbatch hafter
      refine ⟨moves,?_,hafter⟩
      have harrived : ∀ m ∈ moves, ∀ x, m = .push x → f x ∈ env.arrivals := by
        rintro _ hm x rfl
        rw [harrivals]
        exact List.mem_map_of_mem (hpush x hm)
      refine ((Run.always_of_forall_mem harrived).and hbatch).mono fun l m h => ⟨?_,?_⟩
      · exact fun x hx => ⟨env,now,List.mem_singleton_self _,h.1 x hx⟩
      · exact fun batch hphase => ⟨env,now,List.mem_singleton_self _,h.2 batch hphase⟩
  · exact ⟨[],trivial,hl.trans (s.seen_step d hproceeds).symm⟩

/-- Every run of a serving process, as its clients see it, is a run of the loop: some moves around
what arrives lead where the process stands, and every batch handed over on the way is what one of
its attempts flushed. -/
theorem serving_refines [DecidableEq ι] (d : Deployment κ)
    (hf : ∀ x, HasRound.round (f x) = HasRound.round x) (initialWeights : List F32)
    (left : Server κ) (events : List (ServeEvent ι))
    (harrivals : ∀ env now, .proceeds env now ∈ events →
      ∃ arrivals : List δ, env.arrivals = arrivals.map f) :
    ∃ moves : List (LoopEvent δ), Run.Always RoundLoop.step (Accounted f events) .start moves ∧
      (Run.after RoundLoop.step .start moves).map f =
        (Run.after (ServeTask.step d) (.start d initialWeights left) events).seen := by
  induction events using List.reverseRecOn with
  | nil => exact ⟨[],trivial,rfl⟩
  | append_singleton events e ih =>
    obtain ⟨moves,hmoves,hafter⟩ := ih fun env now h => harrivals env now (List.mem_append_left _ h)
    obtain ⟨more,hmore,hstep⟩ := serveStep_refines f d hf hafter e fun env now h =>
      harrivals env now (List.mem_append_right _ (List.mem_singleton.mpr h.symm))
    refine ⟨moves++more,Run.always_append.mpr ⟨?_,?_⟩,?_⟩
    · exact hmoves.mono fun l m h => h.mono fun _ => List.mem_append_left _
    · exact hmore.mono fun l m h => h.mono fun _ => List.mem_append_right _
    · rw [Run.after_append, Run.after_append, hstep]
      rfl

/-- A process that completes its first round and is then shut down. -/
theorem serving_refines_oneRound :
    let events : List (ServeEvent Unit) :=
      [.proceeds (.clean [.plain "a" 1 [F32.one] 10]) 60,.stores,.shutdown]
    ∃ moves : List (LoopEvent Submission),
      Run.Always RoundLoop.step (Accounted id events) .start moves ∧
        (Run.after RoundLoop.step .start moves).round = 2 := by
  intro events
  obtain ⟨moves,hmoves,hafter⟩ := serving_refines id (.noiseless fedAvg) (fun _ => rfl) []
    (.fresh (.inMemory (.new [F32.zero])) ()) events
    fun env _ _ => ⟨env.arrivals,(List.map_id _).symm⟩
  refine ⟨moves,hmoves,(congrArg RoundLoop.round hafter).trans ?_⟩
  decide +kernel

end Process
end ConfluxFL
