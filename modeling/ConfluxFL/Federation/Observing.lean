import ConfluxFL.Federation.Supervision

/-! What a streaming observer writes on its way to the callback: through a pipe to the reader
thread of that observer, through one channel to the supervisor, which empties the channel in each
turn of its waiting loop and once more when the loop is over. A line is tagged by the observer it
comes from; nothing reads the tag. -/
namespace ConfluxFL
variable {α : Type}

/-- The output of one observer; a line that is not UTF-8 is `none`. -/
structure Outlet where
  /-- Everything it has written. -/
  written : List (Option String)
  /-- What its reader has not read. -/
  pipe : List (Option String)
  /-- What its reader has read and not sent. -/
  held : Option String
  reading : Bool

namespace Outlet
variable (o : Outlet)

def new : Outlet := ⟨[],[],none,true⟩

def write (line : Option String) : Outlet :=
  { o with written := o.written++[line], pipe := o.pipe++[line] }

/-- The reader is done at the first line that is not UTF-8. -/
def read : Outlet :=
  match o.reading,o.held,o.pipe with
  | true,none,some line::pipe => { o with pipe := pipe, held := some line }
  | true,none,none::_ => { o with pipe := [], reading := false }
  | _,_,_ => o

/-- The reader has sent everything there is. -/
def Delivered : Prop := o.reading = true ∧ o.held = none ∧ o.pipe = []

end Outlet

structure Watching (α : Type) where
  supervisor : Supervisor α
  outlet : ℕ → Outlet
  channel : List (ℕ × String)
  heard : List (ℕ × String)

inductive WatchEvent where
  | supervises (e : ProcessEvent)
  | writes (i : ℕ) (line : Option String)
  | reads (i : ℕ)
  | sends (i : ℕ)

def linesOf (i : ℕ) (lines : List (ℕ × String)) : List String :=
  lines.filterMap fun p => if p.1 = i then some p.2 else none

namespace Supervisor

/-- The turn of the waiting loop that found clients and observers stopped, and returns. -/
def concludes (s : Supervisor α) : ProcessEvent → Bool
  | .clock _ =>
    match s.stage,s.grpcAddr,s.httpAddr with
    | .readClock [] true,some _,some _ => true
    | _,_,_ => false
  | _ => false

/-- The channel is emptied before the first observer is asked for, and at the end. -/
def handsOver (s : Supervisor α) (e : ProcessEvent) : Bool :=
  match s.stage,e with
  | .pollObserver 0 _,.polls _ _ => true
  | _,_ => s.concludes e

def observerChild (plan : ProcessPlan) (s : Supervisor α) (i : ℕ) : Option ℕ :=
  plan.observers[i]?.bind fun o => s.children.lookup (o.label i)

end Supervisor

namespace Watching
variable (text : AddrText α) (plan : ProcessPlan) (streamStdout : ℕ → Bool) (s : Watching α)

def start : Watching α := ⟨.start,fun _ => .new,[],[]⟩

/-- What `try_recv` yields until there is nothing more goes to the callback. What is sent while
the loop runs counts as sent before. -/
def handOver : Watching α := { s with heard := s.heard++s.channel, channel := [] }

def setOutlet (i : ℕ) (o : Outlet) : Watching α :=
  { s with outlet := Function.update s.outlet i o }

/-- A write to a pipe that nothing reads fails. -/
def writable (i : ℕ) : Bool :=
  streamStdout i && (s.outlet i).reading &&
    (s.supervisor.observerChild plan i).any fun child => decide (s.supervisor.procs.Running child)

/-- The receiver is gone when `run_watching` has returned, and the reader ends. -/
def send (i : ℕ) : Watching α :=
  match (s.outlet i).held with
  | none => s
  | some line =>
    if s.supervisor.stage.isReturned then
      s.setOutlet i { s.outlet i with held := none, reading := false }
    else { s.setOutlet i { s.outlet i with held := none } with
      channel := s.channel++[(i,line)] }

def step : WatchEvent → Watching α
  | .supervises e =>
    { (if s.supervisor.handsOver e then s.handOver else s) with
      supervisor := s.supervisor.step text plan e }
  | .writes i line =>
    if s.writable plan streamStdout i then s.setOutlet i ((s.outlet i).write line) else s
  | .reads i => s.setOutlet i (s.outlet i).read
  | .sends i => s.send i

def run (events : List WatchEvent) : Watching α :=
  Run.after (step text plan streamStdout) start events

end Watching

/-! The property, and the condition on the turn that returns. -/

def Stage.isOk : Stage α → Bool
  | .returned (.ok _) => true
  | _ => false

namespace Watching

/-- After a success the callback has had every line of every observer, once and in order. -/
def KeepsOutput (s : Watching α) : Prop :=
  s.supervisor.stage.isOk = true →
    ∀ i, (linesOf i s.heard).map some = (s.outlet i).written

/-- When the waiting loop ends, every reader has sent what its observer wrote. -/
def ReadersDone (s : Watching α) : WatchEvent → Prop
  | .supervises e => s.supervisor.concludes e = true → ∀ i, (s.outlet i).Delivered
  | _ => True

end Watching
/-! When the supervisor returns a success. -/

namespace Stage

theorem isReturned_of_isOk {stage : Stage α} (h : stage.isOk = true) : stage.isReturned = true := by
  unfold isOk at h
  split at h
  · rfl
  · exact absurd h Bool.false_ne_true

theorem isOk_of_not_isReturned {stage : Stage α} (h : stage.isReturned = false) :
    stage.isOk = false := by
  by_contra hok
  rw [isReturned_of_isOk (Bool.eq_true_of_not_eq_false hok)] at h
  cases h

end Stage

namespace Supervisor
variable {text : AddrText α} {plan : ProcessPlan} {s : Supervisor α}

/-- What a step that does not conclude leaves behind is not a success. -/
theorem isOk_track {label : String} {cmd : Spawn} {answer : SpawnAnswer} {next : ℕ → Stage α}
    (hnext : ∀ pid, (next pid).isReturned = false) :
    (s.track plan label cmd answer next).stage.isOk = false := by
  unfold track
  split
  · rfl
  · exact Stage.isOk_of_not_isReturned (hnext _)

theorem isOk_onSpawn (hs : s.stage.isOk = false) (answer : SpawnAnswer) :
    (s.onSpawn text plan answer).stage.isOk = false := by
  unfold onSpawn
  split
  · exact isOk_track fun _ => rfl
  · split
    · exact isOk_track fun _ => rfl
    · exact hs
  · split
    · unfold trackClient
      simp only
      split
      · rfl
      · exact Stage.isOk_of_not_isReturned (ProcessPlan.isReturned_clientStage _)
    · exact hs
  · split
    · unfold trackObserver
      split
      · rfl
      · exact isOk_track fun _ => ProcessPlan.isReturned_observerStage _
    · exact hs
  · exact hs

theorem isOk_await (hs : s.stage.isOk = false) {label key : String} {child : ℕ} {look : Look}
    {found : α → Supervisor α} (hfound : ∀ addr, (found addr).stage.isReturned = false) :
    (s.await text plan label key child look found).stage.isOk = false := by
  unfold await
  split
  · rfl
  · exact hs
  · exact Stage.isOk_of_not_isReturned (hfound _)

theorem isOk_onLook (hs : s.stage.isOk = false) (look : Look) :
    (s.onLook text plan look).stage.isOk = false := by
  unfold onLook
  split
  · exact isOk_await hs fun _ => rfl
  · exact isOk_await hs fun _ => rfl
  · exact isOk_await hs fun _ => ProcessPlan.isReturned_nodeStage _
  · exact hs

theorem isOk_onProbe (hs : s.stage.isOk = false) (healthy waitFails late : Bool) (log : String) :
    (s.onProbe plan healthy waitFails late log).stage.isOk = false := by
  unfold onProbe
  split
  · split
    · exact Stage.isOk_of_not_isReturned (ProcessPlan.isReturned_nodeStage _)
    · split
      · rfl
      · split
        · rfl
        · exact hs
  · exact hs

theorem isOk_onPoll (hs : s.stage.isOk = false) (waitFails : Bool) (log : String) :
    (s.onPoll plan waitFails log).stage.isOk = false := by
  unfold onPoll
  split
  · split
    · unfold pollClient
      split_ifs
      · exact Stage.isOk_of_not_isReturned (ProcessPlan.isReturned_pollStage _ _)
      · split
        · exact Stage.isOk_of_not_isReturned (ProcessPlan.isReturned_pollStage _ _)
        · split_ifs
          · exact Stage.isOk_of_not_isReturned (ProcessPlan.isReturned_pollStage _ _)
          · rfl
    · exact hs
  · split
    · split_ifs
      · exact Stage.isOk_of_not_isReturned (ProcessPlan.isReturned_observingStage _ _)
      · rfl
    · exact hs
  · exact hs

theorem concludes_eq_false (h : s.stage ≠ .readClock [] true) (e : ProcessEvent) :
    s.concludes e = false := by
  unfold concludes
  split
  · split
    · exact absurd ‹_› h
    · rfl
  · rfl

theorem isOk_onClock (hs : s.stage.isOk = false) (late : Bool) :
    (s.onClock plan late).stage.isOk = s.concludes (.clock late) := by
  unfold onClock
  split
  · rename_i stillRunning done hstage
    split_ifs with hdone hlate
    · obtain ⟨rfl,rfl⟩ := hdone
      rw [concludes, hstage]
      cases s.grpcAddr with
      | none => exact hs
      | some grpc =>
        cases s.httpAddr with
        | none => exact hs
        | some http => rfl
    · rw [concludes_eq_false]
      · rfl
      · rw [hstage]
        rintro ⟨⟩
        exact hdone ⟨rfl,rfl⟩
    · rw [concludes_eq_false]
      · exact Stage.isOk_of_not_isReturned (ProcessPlan.isReturned_pollStage _ _)
      · rw [hstage]
        rintro ⟨⟩
        exact hdone ⟨rfl,rfl⟩
  · rename_i hstage
    rw [hs, concludes_eq_false (hstage _ _)]

/-- A success is returned by the turn that concludes, and by no other step. -/
theorem isOk_step (hs : s.stage.isOk = false) (e : ProcessEvent) :
    (s.step text plan e).stage.isOk = s.concludes e := by
  cases e with
  | exits pid status => exact hs
  | createsDir answer =>
    change (s.onCreateDir plan answer).stage.isOk = false
    unfold onCreateDir
    split
    · rfl
    · rfl
    · exact hs
  | spawns answer => exact isOk_onSpawn hs answer
  | looks look => exact isOk_onLook hs look
  | probes healthy waitFails late log => exact isOk_onProbe hs healthy waitFails late log
  | polls waitFails log => exact isOk_onPoll hs waitFails log
  | clock late => exact isOk_onClock hs late

theorem concludes_of_returned (hr : s.Returned) (e : ProcessEvent) : s.concludes e = false := by
  refine concludes_eq_false (fun hstage => ?_) e
  rw [Returned, hstage] at hr
  cases hr

theorem handsOver_of_returned (hr : s.Returned) (e : ProcessEvent) : s.handsOver e = false := by
  have hc := concludes_of_returned hr e
  unfold Returned Stage.isReturned at hr
  unfold handsOver
  split
  · rename_i hstage
    rw [hstage] at hr
    cases hr
  · exact hc

theorem handsOver_of_concludes {e : ProcessEvent} (h : s.concludes e = true) :
    s.handsOver e = true := by
  unfold handsOver
  split
  · rfl
  · exact h

/-- What `Children` holds is not running once the supervisor has returned. -/
def HoldsNoRunning (s : Supervisor α) : Prop :=
  s.Returned → ∀ pid ∈ s.tracked, ¬s.procs.Running pid

theorem HoldsNoRunning.step (hs : s.Sound) (h : s.HoldsNoRunning) (e : ProcessEvent) :
    (s.step text plan e).HoldsNoRunning := by
  by_cases hr : s.Returned
  · obtain ⟨-,heq | ⟨pid',status,heq⟩⟩ := @step_of_returned α text plan s hr e
    · rwa [heq]
    · rw [heq]
      exact fun _ pid hpid hrun => h hr pid hpid hrun.of_ends
  · obtain ⟨-,hgo,-⟩ | ⟨r,hfin,-⟩ := @Sound.step α text plan s hs hr e
    · exact fun hr => absurd hr hgo
    · rw [hfin]
      exact fun _ pid hpid hrun => (ProcTable.running_kill.mp hrun).2 hpid

theorem observerChild_mem {i child : ℕ} (h : s.observerChild plan i = some child) :
    child ∈ s.tracked := by
  obtain ⟨o,-,hlookup⟩ := Option.bind_eq_some_iff.mp h
  obtain ⟨before,rest,heq,-⟩ := List.lookup_eq_some_iff.mp hlookup
  rw [Supervisor.tracked, heq, List.map_append, List.map_cons]
  exact List.mem_append_right _ List.mem_cons_self

end Supervisor

/-! Where the lines are while the supervisor runs. -/

theorem linesOf_append (i : ℕ) (l l' : List (ℕ × String)) :
    linesOf i (l++l') = linesOf i l++linesOf i l' := List.filterMap_append

theorem linesOf_singleton (i : ℕ) (line : String) : linesOf i [(i,line)] = [line] := by
  simp [linesOf]

theorem linesOf_singleton_ne {i j : ℕ} (h : j ≠ i) (line : String) :
    linesOf i [(j,line)] = [] := by
  simp [linesOf,h]

namespace Outlet
variable {o : Outlet} {passed : List String}

/-- What has been written is what went into the channel, then what the reader holds, then what
is unread; a reader that has ended met a line that is not UTF-8. -/
def Accounts (o : Outlet) (passed : List String) : Prop :=
  if o.reading then o.written = (passed++o.held.toList).map some++o.pipe
  else none ∈ o.written

theorem accounts_new : new.Accounts [] := rfl

theorem Accounts.write (h : o.Accounts passed) (line : Option String) :
    (o.write line).Accounts passed := by
  unfold Accounts at h ⊢
  change if o.reading then o.written++[line] = (passed++o.held.toList).map some++(o.pipe++[line])
    else none ∈ o.written++[line]
  split
  · rename_i hr
    rw [if_pos hr] at h
    rw [h, List.append_assoc]
  · rename_i hr
    rw [if_neg hr] at h
    exact List.mem_append_left _ h

@[simp] theorem written_read : o.read.written = o.written := by
  unfold read
  split <;> rfl

theorem Accounts.read (h : o.Accounts passed) : o.read.Accounts passed := by
  unfold Outlet.read
  split
  · rename_i line pipe hr hheld hpipe
    unfold Accounts at h ⊢
    rw [if_pos hr, hheld, hpipe] at h
    rw [if_pos hr, h]
    simp
  · rename_i pipe hr hheld hpipe
    unfold Accounts at h
    rw [if_pos hr, hheld, hpipe] at h
    change none ∈ o.written
    rw [h]
    simp
  · exact h

/-- The held line goes into the channel. -/
theorem Accounts.send (h : o.Accounts passed) {line : String} (hheld : o.held = some line) :
    Accounts { o with held := none } (passed++[line]) := by
  unfold Accounts at h ⊢
  rw [hheld] at h
  simpa using h

/-- What was passed on is all of it exactly when the reader is done. -/
theorem Accounts.eq_written_iff (h : o.Accounts passed) :
    passed.map some = o.written ↔ o.Delivered := by
  unfold Accounts at h
  unfold Delivered
  split at h
  · rename_i hr
    rw [h, List.map_append, List.append_assoc, List.self_eq_append_right, List.append_eq_nil_iff,
      List.map_eq_nil_iff, Option.toList_eq_nil_iff, and_iff_right hr]
  · rename_i hr
    refine iff_of_false (fun heq => ?_) fun hd => hr hd.1
    rw [← heq] at h
    obtain ⟨line,-,hline⟩ := List.mem_map.mp h
    cases hline

end Outlet

namespace Watching
variable {text : AddrText α} {plan : ProcessPlan} {streamStdout : ℕ → Bool} {s : Watching α}

structure Sound (s : Watching α) : Prop where
  supervisor : s.supervisor.Sound
  holds : s.supervisor.HoldsNoRunning
  accounts : ¬s.supervisor.Returned → ∀ i,
    (s.outlet i).Accounts (linesOf i s.heard++linesOf i s.channel)

theorem sound_start : (start : Watching α).Sound where
  supervisor := Supervisor.sound_start
  holds := fun hr => absurd hr Bool.false_ne_true
  accounts := fun _ _ => Outlet.accounts_new

@[simp] theorem setOutlet_self (i : ℕ) (o : Outlet) : (s.setOutlet i o).outlet i = o :=
  Function.update_self ..

theorem setOutlet_ne {i j : ℕ} (h : j ≠ i) (o : Outlet) :
    (s.setOutlet i o).outlet j = s.outlet j :=
  Function.update_of_ne h ..

/-- Handing over moves lines from the channel to the callback. -/
theorem handOver_lines (i : ℕ) : linesOf i s.handOver.heard++linesOf i s.handOver.channel =
    linesOf i s.heard++linesOf i s.channel := by
  rw [handOver, linesOf_append]
  exact List.append_nil _

/-- Before the return, what there is to hand over is what the callback is to get. -/
theorem supervises_lines (e : ProcessEvent) (i : ℕ) :
    linesOf i (s.step text plan streamStdout (.supervises e)).heard++
        linesOf i (s.step text plan streamStdout (.supervises e)).channel =
      linesOf i s.heard++linesOf i s.channel := by
  change linesOf i (if s.supervisor.handsOver e then s.handOver else s).heard++
    linesOf i (if s.supervisor.handsOver e then s.handOver else s).channel = _
  split
  · exact handOver_lines i
  · rfl

theorem supervises_outlet (e : ProcessEvent) :
    (s.step text plan streamStdout (.supervises e)).outlet = s.outlet := by
  change (if s.supervisor.handsOver e then s.handOver else s).outlet = s.outlet
  split <;> rfl

theorem Sound.supervises (h : s.Sound) (e : ProcessEvent) :
    (s.step text plan streamStdout (.supervises e)).Sound where
  supervisor := h.supervisor.next e
  holds := h.holds.step h.supervisor e
  accounts := fun hr i => by
    rw [supervises_outlet, supervises_lines]
    refine h.accounts (fun hold => hr ?_) i
    obtain ⟨-,heq | ⟨pid,status,heq⟩⟩ := @Supervisor.step_of_returned α text plan _ hold e
    · exact (congrArg Supervisor.Returned heq).mpr hold
    · exact (congrArg Supervisor.Returned heq).mpr hold

/-- A step that changes one outlet, and the lines sent only by what it says. -/
theorem Sound.setOutlet (h : s.Sound) {i : ℕ} {o : Outlet} {sent : List (ℕ × String)}
    (hsent : ∀ j, j ≠ i → linesOf j sent = [])
    (ho : ¬s.supervisor.Returned →
      o.Accounts (linesOf i s.heard++linesOf i s.channel++linesOf i sent)) :
    Sound { s.setOutlet i o with channel := s.channel++sent } where
  supervisor := h.supervisor
  holds := h.holds
  accounts := fun hr j => by
    change (Function.update s.outlet i o j).Accounts
      (linesOf j s.heard++linesOf j (s.channel++sent))
    rw [linesOf_append, ← List.append_assoc]
    by_cases hj : j = i
    · rw [hj, Function.update_self]
      exact ho hr
    · rw [Function.update_of_ne hj, hsent j hj, List.append_nil]
      exact h.accounts hr j

theorem Sound.setOutlet_kept (h : s.Sound) {i : ℕ} {o : Outlet}
    (ho : ¬s.supervisor.Returned → o.Accounts (linesOf i s.heard++linesOf i s.channel)) :
    (s.setOutlet i o).Sound := by
  have hset : Sound { s.setOutlet i o with channel := s.channel++[] } :=
    h.setOutlet (fun _ _ => rfl) fun hr => (List.append_nil _).symm ▸ ho hr
  rwa [List.append_nil] at hset

theorem Sound.not_returned_of_writable (h : s.Sound) {i : ℕ}
    (hw : s.writable plan streamStdout i = true) : ¬s.supervisor.Returned := by
  intro hr
  obtain ⟨-,hchild⟩ := Bool.and_eq_true_iff.mp hw
  obtain ⟨child,hsome,hrun⟩ := (Option.any_eq_true _ _).mp hchild
  exact h.holds hr child (Supervisor.observerChild_mem hsome) (of_decide_eq_true hrun)

theorem Sound.step (h : s.Sound) (e : WatchEvent) : (s.step text plan streamStdout e).Sound := by
  cases e with
  | supervises e => exact h.supervises e
  | writes i line =>
    rw [Watching.step]
    split
    · exact h.setOutlet_kept fun hr => (h.accounts hr i).write line
    · exact h
  | reads i => exact h.setOutlet_kept fun hr => (h.accounts hr i).read
  | sends i =>
    rw [Watching.step, Watching.send]
    split
    · exact h
    · rename_i line hheld
      split
      · rename_i hr
        exact h.setOutlet_kept fun hnot => absurd hr hnot
      · refine h.setOutlet (fun j hj => linesOf_singleton_ne (Ne.symm hj) line) fun hr => ?_
        rw [linesOf_singleton]
        exact (h.accounts hr i).send hheld

@[simp] theorem supervisor_setOutlet (i : ℕ) (o : Outlet) :
    (s.setOutlet i o).supervisor = s.supervisor := rfl

@[simp] theorem supervisor_send (i : ℕ) : (s.send i).supervisor = s.supervisor := by
  unfold send
  split
  · rfl
  · split <;> rfl

theorem written_setOutlet {i : ℕ} {o : Outlet} (ho : o.written = (s.outlet i).written) (j : ℕ) :
    ((s.setOutlet i o).outlet j).written = (s.outlet j).written := by
  by_cases hj : j = i
  · rw [hj, setOutlet_self, ho]
  · rw [setOutlet_ne hj]

/-- After the return, nothing more is heard or written. -/
theorem Sound.step_of_returned (h : s.Sound) (hr : s.supervisor.Returned) (e : WatchEvent) :
    (s.step text plan streamStdout e).heard = s.heard ∧
      (∀ i, ((s.step text plan streamStdout e).outlet i).written = (s.outlet i).written) ∧
      (s.step text plan streamStdout e).supervisor.stage = s.supervisor.stage := by
  cases e with
  | supervises e =>
    refine ⟨?_,fun i => by rw [supervises_outlet],?_⟩
    · rw [Watching.step, if_neg (by simp [Supervisor.handsOver_of_returned hr])]
    · change (s.supervisor.step text plan e).stage = _
      obtain ⟨-,heq | ⟨pid,status,heq⟩⟩ := @Supervisor.step_of_returned α text plan _ hr e
      · rw [heq]
      · rw [heq]
  | writes i line =>
    rw [Watching.step, if_neg fun hw => h.not_returned_of_writable hw hr]
    exact ⟨rfl,fun _ => rfl,rfl⟩
  | reads i => exact ⟨rfl,written_setOutlet Outlet.written_read,rfl⟩
  | sends i =>
    have hreturned : s.supervisor.stage.isReturned = true := hr
    rw [Watching.step, Watching.send]
    split
    · exact ⟨rfl,fun _ => rfl,rfl⟩
    · rw [if_pos hreturned]
      exact ⟨rfl,written_setOutlet rfl,rfl⟩

theorem keepsOutput_of_not_returned (hr : ¬s.supervisor.Returned) : s.KeepsOutput := fun hok =>
  absurd (Stage.isReturned_of_isOk hok) hr

/-- The turn that concludes hands over whatever the readers have sent. -/
theorem Sound.keepsOutput_supervises_iff (h : s.Sound) (hr : ¬s.supervisor.Returned)
    (e : ProcessEvent) : (s.step text plan streamStdout (.supervises e)).KeepsOutput ↔
      s.ReadersDone (.supervises e) := by
  have hok : (s.step text plan streamStdout (.supervises e)).supervisor.stage.isOk =
      s.supervisor.concludes e :=
    Supervisor.isOk_step (Stage.isOk_of_not_isReturned (Bool.eq_false_of_not_eq_true hr)) e
  unfold KeepsOutput ReadersDone
  rw [hok, supervises_outlet]
  refine imp_congr_right fun hc => forall_congr' fun i => ?_
  have hheard : (s.step text plan streamStdout (.supervises e)).heard = s.heard++s.channel := by
    rw [Watching.step, if_pos (Supervisor.handsOver_of_concludes hc)]
    rfl
  rw [hheard, linesOf_append]
  exact (h.accounts hr i).eq_written_iff

theorem Sound.keepsOutput_step_iff (h : s.Sound) (hk : s.KeepsOutput) (e : WatchEvent) :
    (s.step text plan streamStdout e).KeepsOutput ↔ s.ReadersDone e := by
  by_cases hr : s.supervisor.Returned
  · obtain ⟨hheard,hwritten,hstage⟩ := @Sound.step_of_returned α text plan streamStdout s h hr e
    refine iff_of_true (fun hok i => ?_) ?_
    · rw [hstage] at hok
      rw [hheard, hwritten, hk hok]
    · cases e with
      | supervises e =>
        intro hc
        rw [Supervisor.concludes_of_returned hr e] at hc
        cases hc
      | _ => trivial
  · cases e with
    | supervises e => exact h.keepsOutput_supervises_iff hr e
    | writes i line =>
      refine iff_of_true (keepsOutput_of_not_returned ?_) trivial
      rw [Watching.step]
      split <;> exact hr
    | reads i => exact iff_of_true (keepsOutput_of_not_returned hr) trivial
    | sends i =>
      refine iff_of_true (keepsOutput_of_not_returned ?_) trivial
      rwa [Watching.step, supervisor_send]

/-- In every run of the supervisor, the observers and their readers, a success has handed over
everything the observers wrote exactly when the turn that returned it was taken with every reader
done. -/
theorem keepsOutput_iff (text : AddrText α) (plan : ProcessPlan) (streamStdout : ℕ → Bool)
    (events : List WatchEvent) :
    (∀ pre, pre <+: events → (run text plan streamStdout pre).KeepsOutput) ↔
      Run.Always (step text plan streamStdout) ReadersDone start events := by
  have hstart : (start : Watching α).KeepsOutput :=
    keepsOutput_of_not_returned Bool.false_ne_true
  unfold run
  rw [Run.forall_prefix_iff, and_iff_right hstart]
  refine Run.always_iff_of_invariant (fun s => s.Sound ∧ s.KeepsOutput) ⟨sound_start,hstart⟩
    (fun s e h => h.1.keepsOutput_step_iff h.2 e) fun s e h hq => ?_
  exact ⟨h.1.step e,(h.1.keepsOutput_step_iff h.2 e).mpr hq⟩

end Watching

/-- One trainer, and an evaluator on its node. -/
def watchedPlan : ProcessPlan where
  server := ⟨"cflux",["server","start"],[]⟩
  participants := [⟨"client-0",⟨"cflux",["node","start"],[]⟩,⟨"trainer",[],[]⟩⟩]
  observers := [⟨"evaluator",0,⟨"python",["-m","evaluate"],[]⟩⟩]
  rounds := 3
  startupTimeout := 60000
  runTimeout := 1800000
  logDir := "logs"

/-- Everything starts; the evaluator writes its last line and exits, the trainer exits, and the
waiting loop asks for both before the reader has read. -/
def lastLineUnread : List WatchEvent :=
  let server : Look :=
    ⟨some ["grpc=127.0.0.1:50051","http=127.0.0.1:50052"],false,false,false,""⟩
  let node : Look := ⟨some ["local=127.0.0.1:47100"],false,false,false,""⟩
  [.supervises (.createsDir (.ok ())),.supervises (.spawns .started),.supervises (.looks server),
    .supervises (.looks server),.supervises (.probes true false false ""),
    .supervises (.spawns .started),.supervises (.looks node),.supervises (.spawns .started),
    .supervises (.spawns .started),.writes 0 (some "round=3 held_out_accuracy=0.91"),
    .supervises (.exits 3 ⟨some 0⟩),.supervises (.exits 2 ⟨some 0⟩),.supervises (.polls false ""),
    .supervises (.polls false ""),.supervises (.clock false),.reads 0,.sends 0]

/-- The line was written and the success does not have it. -/
theorem Watching.not_keepsOutput_lastLineUnread :
    (run addrText watchedPlan (fun _ => true) lastLineUnread).supervisor.stage.isOk = true ∧
      ((run addrText watchedPlan (fun _ => true) lastLineUnread).outlet 0).written =
        [some "round=3 held_out_accuracy=0.91"] ∧
      (run addrText watchedPlan (fun _ => true) lastLineUnread).heard = [] ∧
      ¬∀ pre, pre <+: lastLineUnread →
        (run addrText watchedPlan (fun _ => true) pre).KeepsOutput := by
  have hok : (run addrText watchedPlan (fun _ => true) lastLineUnread).supervisor.stage.isOk =
      true := by
    decide +kernel
  have hwritten : ((run addrText watchedPlan (fun _ => true) lastLineUnread).outlet 0).written =
      [some "round=3 held_out_accuracy=0.91"] := by
    decide +kernel
  have hheard : (run addrText watchedPlan (fun _ => true) lastLineUnread).heard = [] := by
    decide +kernel
  refine ⟨hok,hwritten,hheard,fun h => ?_⟩
  have hkeeps := h _ (List.prefix_refl _) hok 0
  rw [hwritten, hheard] at hkeeps
  cases hkeeps

end ConfluxFL
