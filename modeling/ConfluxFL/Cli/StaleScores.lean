import ConfluxFL.Cli.Scores

/-! Which scores an invocation reports. The files are read at paths that every invocation shares and
none clears, so what is reported is its own exactly when its own clients touched the files last. -/
namespace ConfluxFL

namespace Supervisor
variable {α : Type} {text : AddrText α} {plan : ProcessPlan} {s : Supervisor α}

/-- The turn that concludes has found every client stopped. -/
theorem Sound.clientsStopped_step (h : s.Sound) (hs : s.stage.isOk = true → s.ClientsStopped)
    (e : ProcessEvent) (hok : (s.step text plan e).stage.isOk = true) :
    (s.step text plan e).ClientsStopped := by
  by_cases hr : s.Returned
  · obtain ⟨-,heq | ⟨pid,status,heq⟩⟩ := @step_of_returned α text plan s hr e
    · rw [heq] at hok ⊢
      exact hs hok
    · rw [heq] at hok ⊢
      exact fun c hc hrun => hs hok c hc hrun.of_ends
  · have hnot := Stage.isOk_of_not_isReturned (Bool.eq_false_of_not_eq_true hr)
    have hconcludes : s.concludes e = true := (isOk_step hnot e).symm.trans hok
    have hstage : s.stage = .readClock [] true := by
      by_contra hne
      rw [concludes_eq_false hne] at hconcludes
      cases hconcludes
    have hfits := h.stage
    rw [hstage] at hfits
    have hstopped := h.clientsStopped (hfits rfl)
    obtain ⟨-,hgo,-⟩ | ⟨r,hfin,-⟩ := @Sound.step α text plan s h hr e
    · exact absurd (Stage.isReturned_of_isOk hok) hgo
    · rw [hfin]
      exact fun c hc hrun => hstopped c hc (ProcTable.running_kill.mp hrun).1

theorem isOk_step_of_isOk (hs : s.stage.isOk = true) (e : ProcessEvent) :
    (s.step text plan e).stage.isOk = true := by
  have hr : s.Returned := Stage.isReturned_of_isOk hs
  obtain ⟨-,heq | ⟨pid,status,heq⟩⟩ := @step_of_returned α text plan s hr e
  · rwa [heq]
  · rwa [heq]

end Supervisor

namespace FedRun
variable {α : Type} {text : AddrText α} {exe logDir : String} {r : FedRun α} {k : ℕ}

/-- A success leaves none of the clients running, and no file is read before it. -/
structure Settled (r : FedRun α) : Prop where
  sound : r.supervisor.Sound
  stopped : r.supervisor.stage.isOk = true → r.supervisor.ClientsStopped
  unread : r.readBack ≠ [] → r.supervisor.stage.isOk = true

theorem settled_begin (inv : Invocation) : (begin inv : FedRun α).Settled where
  sound := Supervisor.sound_start
  stopped := nofun
  unread h := absurd rfl h

theorem process_cases (text : AddrText α) (exe logDir : String) (r : FedRun α) (e : ProcessEvent) :
    r.process text exe logDir e = r ∨
    r.process text exe logDir e = { r with
      supervisor := r.supervisor.step text (r.invocation.plan exe logDir) e } := by
  unfold process
  split
  · split
    · exact .inr rfl
    · exact .inl rfl
  · split
    · exact .inl rfl
    · exact .inr rfl

theorem Settled.process (h : r.Settled) (e : ProcessEvent) :
    (r.process text exe logDir e).Settled := by
  rcases r.process_cases text exe logDir e with heq | heq
  · rwa [heq]
  · rw [heq]
    exact ⟨h.sound.next e,h.sound.clientsStopped_step h.stopped e,
      fun hread => Supervisor.isOk_step_of_isOk (h.unread hread) e⟩

/-- While a client of its own runs, nothing has been read. -/
theorem Settled.readBack_eq_nil (h : r.Settled) {child : ℕ} {c : ClientChild}
    (hc : r.client child = some c) : r.readBack = [] := by
  by_contra hread
  have hstopped := h.stopped (h.unread hread)
  unfold client at hc
  split at hc
  · rename_i hrun
    have hchild : c.child = child := by simpa using List.find?_some hc
    exact hstopped c (List.mem_of_find?_eq_some hc) (hchild ▸ hrun)
  · cases hc

theorem isOk_of_next {o : ProcessOutcome} (h : r.next = some o) :
    r.supervisor.stage.isOk = true := by
  unfold next at h
  split at h
  · cases h
  · obtain ⟨summary,hs,-⟩ := Option.bind_eq_some_iff.mp h
    unfold FedRun.summary at hs
    split at hs
    · rename_i hstage
      rw [hstage]
      rfl
    · cases hs

end FedRun

namespace LogDirectory
variable {α : Type} {text : AddrText α} {exe logDir : String} {d : LogDirectory α} {r : FedRun α}
  {k : ℕ}

/-- After a step of invocation `k`, a run is either that one's next state or as it was. -/
theorem run_of_set (hk : d.runs[k]? = some r) {r' s : FedRun α} {j : ℕ}
    (hj : (d.runs.set k r')[j]? = some s) : j = k ∧ s = r' ∨ j ≠ k ∧ d.runs[j]? = some s := by
  rw [List.getElem?_set, if_pos (List.getElem?_eq_some_iff.mp hk).1] at hj
  split at hj
  · rename_i hkj
    exact .inl ⟨hkj.symm,(Option.some.inj hj).symm⟩
  · rename_i hkj
    exact .inr ⟨Ne.symm hkj,hj⟩

theorem set_run_self (hk : d.runs[k]? = some r) (r' : FedRun α) :
    (d.runs.set k r')[k]? = some r' :=
  List.getElem?_set_self (List.getElem?_eq_some_iff.mp hk).1

theorem set_run_ne {j : ℕ} (hj : j ≠ k) (r' : FedRun α) :
    (d.runs.set k r')[j]? = d.runs[j]? := List.getElem?_set_ne (Ne.symm hj)

/-- What a step of any one invocation keeps. -/
theorem of_onRun {P : LogDirectory α → Prop} (h : P d) {f : FedRun α → LogDirectory α}
    (hf : ∀ r, d.runs[k]? = some r → P (f r)) : P (d.onRun k f) := by
  unfold LogDirectory.onRun
  split
  · rename_i r hk
    exact hf r hk
  · exact h

/-- What holds at every moment: a file that a client of an invocation touched last holds what the
invocation's clients last wrote there. -/
structure Kept (d : LogDirectory α) : Prop where
  settled : ∀ (k : ℕ) (r : FedRun α), d.runs[k]? = some r → r.Settled
  authored : ∀ path k, (d.files path).author = some k →
    ∃ r : FedRun α, d.runs[k]? = some r ∧ d.files path = r.own k path

theorem kept_start (old : String → Option String) : (start old : LogDirectory α).Kept where
  settled _ _ h := by simp [start] at h
  authored _ _ h := by simp [start] at h

/-- A step of one invocation that touches no file. -/
theorem Kept.setRun (h : d.Kept) (hk : d.runs[k]? = some r) (r' : FedRun α)
    (hsettled : r'.Settled) (hwrote : r'.wrote = r.wrote) : (d.setRun k r').Kept where
  settled j s hj := by
    rcases run_of_set hk hj with ⟨rfl,rfl⟩ | ⟨-,hj⟩
    · exact hsettled
    · exact h.settled j s hj
  authored path j hj := by
    obtain ⟨s,hs,hfile⟩ := h.authored path j hj
    by_cases hjk : j = k
    · subst hjk
      obtain rfl := Option.some.inj (hk.symm.trans hs)
      exact ⟨r',set_run_self hk r',hfile.trans (by rw [FedRun.own, FedRun.own, hwrote])⟩
    · exact ⟨s,(set_run_ne hjk r').trans hs,hfile⟩

/-- A write changes one path, in the directory and in what its invocation wrote. -/
theorem Kept.put (h : d.Kept) (hk : d.runs[k]? = some r) (r' : FedRun α) (hsettled : r'.Settled)
    (hwrote : r'.wrote = r.wrote) (path : String) (t : Option String) :
    (d.put k r' path t).Kept where
  settled j s hj := by
    rcases run_of_set hk hj with ⟨rfl,rfl⟩ | ⟨-,hj⟩
    · exact ⟨hsettled.sound,hsettled.stopped,hsettled.unread⟩
    · exact h.settled j s hj
  authored path' j hj := by
    simp only [LogDirectory.put] at hj ⊢
    by_cases hpath : path' = path
    · subst hpath
      rw [Function.update_self] at hj ⊢
      obtain rfl := Option.some.inj hj
      exact ⟨_,set_run_self hk _,by simp only [FedRun.own, Function.update_self]⟩
    · rw [Function.update_of_ne hpath] at hj ⊢
      obtain ⟨s,hs,hfile⟩ := h.authored path' j hj
      by_cases hjk : j = k
      · subst hjk
        obtain rfl := Option.some.inj (hk.symm.trans hs)
        refine ⟨_,set_run_self hk _,hfile.trans ?_⟩
        simp only [FedRun.own, Function.update_of_ne hpath, hwrote]
      · exact ⟨s,(set_run_ne hjk _).trans hs,hfile⟩

theorem Kept.onScores (h : d.Kept) (hk : d.runs[k]? = some r) (child : ℕ) (global : List F32) :
    (d.onScores logDir k r child global).Kept := by
  unfold LogDirectory.onScores
  split
  · have hr := h.settled k r hk
    exact h.put hk { r with scored := child::r.scored } ⟨hr.sound,hr.stopped,hr.unread⟩ rfl _ _
  · exact h

theorem Kept.onWrites (h : d.Kept) (hk : d.runs[k]? = some r) (child : ℕ) (path : String)
    (t : Option String) : (d.onWrites k r child path t).Kept := by
  unfold LogDirectory.onWrites
  split
  · exact h.put hk r (h.settled k r hk) rfl path t
  · exact h

theorem Kept.onReads (h : d.Kept) (hk : d.runs[k]? = some r) :
    (d.onReads logDir k r).Kept := by
  unfold LogDirectory.onReads
  split
  · rename_i o hnext
    have hr := h.settled k r hk
    have hok := FedRun.isOk_of_next hnext
    exact h.setRun hk _ ⟨hr.sound,hr.stopped,fun _ => hok⟩ rfl
  · exact h

theorem Kept.step (h : d.Kept) (e : LogEvent) : (d.step text exe logDir e).Kept := by
  cases e with
  | begins inv =>
    simp only [LogDirectory.step]
    split
    · refine ⟨fun k r hk => ?_,fun path k hk => ?_⟩
      · rcases List.mem_append.mp (List.mem_of_getElem? hk) with hmem | hmem
        · obtain ⟨j,hj⟩ := List.mem_iff_getElem?.mp hmem
          exact h.settled j r hj
        · rw [List.mem_singleton.mp hmem]
          exact FedRun.settled_begin inv
      · obtain ⟨r,hr,hfile⟩ := h.authored path k hk
        exact ⟨r,by rw [List.getElem?_append_left (List.getElem?_eq_some_iff.mp hr).1, hr],hfile⟩
    · exact h
  | process k e =>
    refine of_onRun h fun r hk => h.setRun hk _ ((h.settled k r hk).process e) ?_
    rcases r.process_cases text exe logDir e with heq | heq
    · rw [heq]
    · rw [heq]
  | interrupts k =>
    refine of_onRun h fun r hk => ?_
    have hr := h.settled k r hk
    exact h.setRun hk { r with interrupted := true } ⟨hr.sound,hr.stopped,hr.unread⟩ rfl
  | scores k child global => exact of_onRun h fun r hk => h.onScores hk child global
  | writes k child path t => exact of_onRun h fun r hk => h.onWrites hk child path t
  | reads k => exact of_onRun h fun r hk => h.onReads hk

/-- A step that reads no file keeps what was read genuine, as far as its invocation's clients can
no longer write once something was. -/
theorem Genuine.setRun (hg : d.Genuine logDir) (hk : d.runs[k]? = some r) (r' : FedRun α)
    (hread : r'.readBack = r.readBack) (hwrote : r.readBack ≠ [] → r'.wrote = r.wrote) :
    (d.setRun k r').Genuine logDir := by
  intro j s hj b hb
  rcases run_of_set hk hj with ⟨rfl,rfl⟩ | ⟨-,hj⟩
  · rw [hread] at hb
    rw [FedRun.own, hwrote (List.ne_nil_of_mem hb)]
    exact hg j r hk b hb
  · exact hg j s hj b hb

theorem Genuine.put (hg : d.Genuine logDir) (h : d.Kept) (hk : d.runs[k]? = some r) {child : ℕ}
    {c : ClientChild} (hc : r.client child = some c) (r' : FedRun α)
    (hread : r'.readBack = r.readBack) (path : String) (t : Option String) :
    (d.put k r' path t).Genuine logDir :=
  hg.setRun hk { r' with wrote := Function.update r'.wrote path t } hread
    fun hne => absurd ((h.settled k r hk).readBack_eq_nil hc) hne

/-- Reading one more file is genuine exactly when the file says what its own clients say. -/
theorem genuine_read_iff (hg : d.Genuine logDir) (hk : d.runs[k]? = some r) (b : ReadBack) :
    (d.setRun k { r with readBack := r.readBack++[b] }).Genuine logDir ↔
      b.file.score = (r.own k (scorePath logDir b.clientId)).score := by
  constructor
  · intro hnew
    exact hnew k _ (set_run_self hk _) b (List.mem_append_right _ List.mem_cons_self)
  · intro hb j s hj b' hb'
    rcases run_of_set hk hj with ⟨rfl,rfl⟩ | ⟨-,hj⟩
    · rcases List.mem_append.mp hb' with hb' | hb'
      · exact hg j r hk b' hb'
      · rw [List.mem_singleton.mp hb']
        exact hb
    · exact hg j s hj b' hb'

/-- A file says what the invocation's own clients say, and is theirs, exactly when they touched it
last, or neither holds a score. -/
theorem Kept.score_eq_iff (h : d.Kept) (hk : d.runs[k]? = some r) (path : String) :
    (d.files path).score = (r.own k path).score ↔
      (d.files path).author = some k ∨ (d.files path).score = none ∧ (r.own k path).score = none := by
  constructor
  · intro hscore
    cases hown : (r.own k path).score with
    | none => exact .inr ⟨hscore.trans hown,rfl⟩
    | some s =>
      left
      rw [hown] at hscore
      obtain ⟨v,-,hv⟩ := Option.map_eq_some_iff.mp hscore
      obtain ⟨v',-,hv'⟩ := Option.map_eq_some_iff.mp hown
      have hauthor := congrArg Prod.fst (hv.trans hv'.symm)
      exact hauthor
  · rintro (hauthor | ⟨hfile,hown⟩)
    · obtain ⟨s,hs,hfile⟩ := h.authored path k hauthor
      obtain rfl := Option.some.inj (hk.symm.trans hs)
      rw [hfile]
    · rw [hfile, hown]

theorem genuine_step_iff (h : d.Kept) (hg : d.Genuine logDir) (e : LogEvent) :
    (d.step text exe logDir e).Genuine logDir ↔ Fresh logDir d e := by
  cases e with
  | begins inv =>
    refine iff_of_true ?_ trivial
    simp only [LogDirectory.step]
    split
    · intro k r hk b hb
      rw [List.getElem?_append] at hk
      split at hk
      · exact hg k r hk b hb
      · obtain rfl := List.mem_singleton.mp (List.mem_of_getElem? hk)
        exact absurd hb List.not_mem_nil
    · exact hg
  | process k e =>
    refine iff_of_true (of_onRun hg fun r hk => ?_) trivial
    rcases r.process_cases text exe logDir e with heq | heq
    · rw [heq]
      exact hg.setRun hk r rfl fun _ => rfl
    · rw [heq]
      exact hg.setRun hk _ rfl fun _ => rfl
  | interrupts k =>
    exact iff_of_true (of_onRun hg fun r hk => hg.setRun hk _ rfl fun _ => rfl) trivial
  | scores k child global =>
    refine iff_of_true (of_onRun hg fun r hk => ?_) trivial
    unfold onScores
    split
    · rename_i c _ _ hc _
      exact hg.put h hk hc { r with scored := child::r.scored } rfl _ _
    · exact hg
  | writes k child path t =>
    refine iff_of_true (of_onRun hg fun r hk => ?_) trivial
    unfold onWrites
    split
    · rename_i c _ hc
      exact hg.put h hk hc r rfl path t
    · exact hg
  | reads k =>
    simp only [LogDirectory.step, LogDirectory.onRun, Fresh]
    cases hk : d.runs[k]? with
    | none => exact iff_of_true hg fun r hr => nomatch hr
    | some r =>
      simp only [Option.mem_def, Option.some.injEq, forall_eq']
      unfold onReads
      cases hnext : r.next with
      | none => exact iff_of_true hg fun o ho => nomatch ho
      | some o =>
        simp only [Option.some.injEq, forall_eq']
        rw [genuine_read_iff hg hk, h.score_eq_iff hk]

/-- Over every sequence of invocations of a directory, whatever was in it, what each reports is
what its own clients wrote exactly when every file is fresh as it is read. -/
theorem genuine_iff (text : AddrText α) (exe logDir : String) (old : String → Option String)
    (events : List LogEvent) :
    (∀ pre, pre <+: events → (after text exe logDir old pre).Genuine logDir) ↔
      Run.Always (step text exe logDir) (Fresh logDir) (start old) events := by
  unfold after
  rw [Run.forall_prefix_iff]
  have hstart : (start old : LogDirectory α).Genuine logDir := by
    intro k r hk
    simp [start] at hk
  refine (and_iff_right hstart).trans ?_
  refine Run.always_iff_of_invariant (fun d => d.Kept ∧ d.Genuine logDir) ⟨kept_start old,hstart⟩
    (fun d e h => genuine_step_iff h.1 h.2 e) fun d e h hq => ?_
  exact ⟨h.1.step e,(genuine_step_iff h.1 h.2 e).mpr hq⟩

/-- What is reported is then the score of what each client's invocation wrote for it. -/
theorem Genuine.scores_eq (hg : d.Genuine logDir) (hk : d.runs[k]? = some r) :
    r.scores = r.readBack.filterMap fun b =>
      (r.wrote (scorePath logDir b.clientId)).bind scoreIn := by
  unfold FedRun.scores
  refine List.filterMap_congr fun b hb => ?_
  have hscore := congrArg (Option.map Prod.snd) (hg k r hk b hb)
  simpa [ScoreFile.score, FedRun.own, Function.comp_def] using hscore

/-- And nothing is reported when they wrote no score. -/
theorem Genuine.report_eq_none (hg : d.Genuine logDir) (hk : d.runs[k]? = some r)
    (hnone : ∀ b ∈ r.readBack, (r.wrote (scorePath logDir b.clientId)).bind scoreIn = none) :
    scoreReport r.scores = none := by
  rw [hg.scores_eq hk, List.filterMap_eq_nil_iff.mpr hnone]
  rfl

end LogDirectory

/-- One client for one round, which runs this command. -/
def oneCommand (command : List String) : Invocation where
  clients := 1
  rounds := 1
  timeoutSecs := 300
  model := .linreg
  clientCommand := some command
  resolved := .ofDefaults .crossDevice .research
  mode := .research

/-- An invocation that succeeds: everything starts, its clients write, and the one client ends. -/
def succeeds (k : ℕ) (inv : Invocation) (writes : List LogEvent) : List LogEvent :=
  let server : Look :=
    ⟨some ["grpc=127.0.0.1:50051","http=127.0.0.1:50052"],false,false,false,""⟩
  let node : Look := ⟨some ["local=127.0.0.1:47100"],false,false,false,""⟩
  let starts : List ProcessEvent := [.createsDir (.ok ()),.spawns .started,.looks server,
    .looks server,.probes true false false "",.spawns .started,.looks node,.spawns .started]
  let ends : List ProcessEvent := [.exits 2 ⟨some 0⟩,.polls false "",.clock false]
  .begins inv::starts.map (.process k)++writes++ends.map (.process k)++[.reads k]

/-- The client of the first invocation leaves a score of 0.5, that of the second leaves none. -/
def scoreThenNone : List LogEvent :=
  succeeds 0 (oneCommand ["cflux","fed","client","--score-file","logs/client-0.score"])
      [.writes 0 2 "logs/client-0.score" (some "label=held-out MSE\nvalue=0.5\n")]++
    succeeds 1 (oneCommand ["python","trainer.py"]) []

/-- The second reports the score of the first. -/
theorem LogDirectory.not_genuine_scoreThenNone :
    ((after addrText "cflux" "logs" (fun _ => none) scoreThenNone).runs[1]?.map fun r =>
      (scoreReport r.scores,r.wrote "logs/client-0.score")) =
        some (some ⟨"held-out MSE",⟨0x3f000000⟩,1⟩,none) ∧
    ¬Genuine "logs" (after addrText "cflux" "logs" (fun _ => none) scoreThenNone) := by
  have hreport : ((after addrText "cflux" "logs" (fun _ => none) scoreThenNone).runs[1]?.map
      fun r => (scoreReport r.scores,r.wrote "logs/client-0.score")) =
        some (some ⟨"held-out MSE",⟨0x3f000000⟩,1⟩,none) := by
    decide +kernel
  have hread : ((after addrText "cflux" "logs" (fun _ => none) scoreThenNone).runs[1]?.map
      fun r => r.readBack.map ReadBack.clientId) = some ["client-0"] := by
    decide +kernel
  refine ⟨hreport,fun hg => ?_⟩
  obtain ⟨r,hk,hr⟩ := Option.map_eq_some_iff.mp hreport
  obtain ⟨hscores,hwrote⟩ := Prod.ext_iff.mp hr
  have hnone : scoreReport r.scores = none := by
    refine hg.report_eq_none hk fun b hb => ?_
    rw [hk] at hread
    have hid : b.clientId ∈ ["client-0"] :=
      Option.some.inj hread ▸ List.mem_map_of_mem hb
    rw [List.mem_singleton.mp hid]
    exact congrArg (Option.bind · scoreIn) hwrote
  rw [hnone] at hscores
  cases hscores

end ConfluxFL
