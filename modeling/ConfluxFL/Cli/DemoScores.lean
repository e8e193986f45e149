import ConfluxFL.Cli.StaleScores
import ConfluxFL.Federation.Outcomes

/-! The demo clients' scores. A demo client with a score leaves it behind before it ends well, and
only clients that ended well are in a summary; so where only such clients run, and none is left over
from before, every invocation reports the score of each of its clients. -/
namespace ConfluxFL

theorem not_mem_display {x : F32} {c : Char} (hdigit : c.isDigit = false)
    (hc : c ∉ ['-','.','N','a','i','n','f']) : c ∉ x.display.toList := by
  intro hmem
  rcases F32.mem_display hmem with h | h
  · rw [hdigit] at h
    cases h
  · exact hc h

theorem stripPrefix_label_value (text : String) :
    Decimal.stripPrefix "label=" ("value="++text) = none := by
  rw [Option.eq_none_iff_forall_ne_some]
  intro rest hrest
  have hchars := congrArg String.toList (Decimal.stripPrefix_eq_some_iff.mp hrest)
  rw [String.toList_append, String.toList_append] at hchars
  exact absurd (List.cons.inj hchars).1 (by decide)

/-- What a client writes about its score is read back, a NaN as the canonical one. -/
theorem scoreIn_scoreText {score : DemoScore} (hnewline : '\n' ∉ score.label.toList)
    (hreturn : '\r' ∉ score.label.toList) : scoreIn (scoreText score) =
      some (score.label,if score.value.isNaN then F32.nan else score.value) := by
  have htext : scoreText score =
      "label="++score.label++"\n"++("value="++score.value.display++"\n"++"") := by
    rw [← String.toList_inj]
    simp [scoreText, toString]
  have hclean {p t : String} {c : Char} (hp : c ∉ p.toList) (ht : c ∉ t.toList) :
      c ∉ (p++t).toList := by
    rw [String.toList_append]
    exact fun hmem => (List.mem_append.mp hmem).elim hp ht
  unfold scoreIn
  rw [htext, TextLines.lines_append (hclean (by decide) hnewline) (hclean (by decide) hreturn),
    TextLines.lines_append (hclean (by decide) (not_mem_display (by decide) (by decide)))
      (hclean (by decide) (not_mem_display (by decide) (by decide)))]
  have hlines : TextLines.lines "" = [] := rfl
  rw [hlines, List.foldl_cons, List.foldl_cons, List.foldl_nil, readLine,
    Decimal.stripPrefix_append]
  dsimp only
  rw [readLine, stripPrefix_label_value, Decimal.stripPrefix_append, F32.parse_display]

/-- A score that the model gives to some global model. -/
def DemoModel.Gives (model : DemoModel) (score : DemoScore) : Prop :=
  ∃ f global, model.score = some f ∧ f global = some score

/-- The labels of the demo models are single lines. -/
theorem DemoModel.Gives.label {model : DemoModel} {score : DemoScore} (h : model.Gives score) :
    '\n' ∉ score.label.toList ∧ '\r' ∉ score.label.toList := by
  obtain ⟨f,global,hf,hscore⟩ := h
  cases model with
  | stub => cases hf
  | linreg =>
    obtain rfl := Option.some.inj hf
    unfold Demo.linregScore at hscore
    split at hscore
    · rw [← Option.some.inj hscore]
      exact ⟨by simp,by simp⟩
    · cases hscore
  | logreg =>
    obtain rfl := Option.some.inj hf
    unfold Demo.logregScore at hscore
    split at hscore
    · rw [← Option.some.inj hscore]
      exact ⟨by simp,by simp⟩
    · cases hscore

/-- The clients are demo clients of a model that has a score. -/
def Invocation.Scored (inv : Invocation) : Prop :=
  inv.isDemo = true ∧ inv.model.score.isSome = true

namespace FedRun
variable {α : Type} {text : AddrText α} {exe logDir : String} {r : FedRun α}

/-- Every client that has ended well has written its score. -/
structure Vouched (r : FedRun α) : Prop where
  accounted : r.supervisor.Accounted
  scoredLt : ∀ pid ∈ r.scored, pid < r.supervisor.procs.length
  scored : r.invocation.Scored → ∀ c ∈ r.supervisor.clients,
    r.supervisor.procs.EndedWell c.child → c.child ∈ r.scored

theorem vouched_begin (inv : Invocation) : (begin inv : FedRun α).Vouched where
  accounted := Supervisor.accounted_start
  scoredLt _ h := absurd h List.not_mem_nil
  scored _ _ hc := absurd hc List.not_mem_nil

theorem isSome_client {c : ClientChild} (hc : c ∈ r.supervisor.clients)
    (hrun : r.supervisor.procs.Running c.child) : (r.client c.child).isSome = true := by
  unfold client
  rw [if_pos hrun, List.find?_isSome]
  exact ⟨c,hc,by simp⟩

/-- A client that has written its score was a client before the step; one that has just been started
has written nothing. -/
theorem Vouched.client_of_process (h : r.Vouched) (e : ProcessEvent) {c : ClientChild}
    (hc : c ∈ (r.process text exe logDir e).supervisor.clients)
    (hscored : c.child ∈ (r.process text exe logDir e).scored) :
    ∃ c' ∈ r.supervisor.clients, c'.child ∈ r.scored ∧ c'.clientId = c.clientId := by
  rcases r.process_cases text exe logDir e with heq | heq
  · rw [heq] at hc hscored
    exact ⟨c,hc,hscored,rfl⟩
  · rw [heq] at hc hscored
    rcases e.exits_or with ⟨pid,status,rfl⟩ | he
    · exact ⟨c,hc,hscored,rfl⟩
    · have hchange : Supervisor.Change r.supervisor
          (r.supervisor.step text (r.invocation.plan exe logDir) e) := Supervisor.change_step he
      obtain ⟨started,hfollows⟩ := hchange.clients
      rcases hfollows c hc with ⟨c',hc',hchild,hid,-⟩ | ⟨-,hchild,-⟩
      · exact ⟨c',hc',hchild ▸ hscored,hid⟩
      · have hlt := h.scoredLt c.child hscored
        omega

theorem Vouched.exits (h : r.Vouched) {pid : ℕ} {status : ExitStatus}
    (hmay : r.mayEnd pid status = true) : Vouched { r with
      supervisor := { r.supervisor with procs := r.supervisor.procs.ends pid status } } where
  accounted := h.accounted.exits pid status
  scoredLt pid' hpid := ProcTable.length_ends.symm ▸ h.scoredLt pid' hpid
  scored hscored c hc hended := by
    rcases ProcTable.endedWell_ends.mp hended with hended | ⟨rfl,hrun,hsuccess⟩
    · exact h.scored hscored c hc hended
    · have hclient : (r.client c.child).isSome = true := isSome_client hc hrun
      have hdemo : r.invocation.isDemo = true := hscored.1
      have hscore : r.invocation.model.score.isSome = true := hscored.2
      simpa only [mayEnd, hsuccess, hdemo, hscore, hclient, Bool.true_and, Bool.not_not,
        List.contains_iff_mem] using hmay

theorem Vouched.process (h : r.Vouched) (hsound : r.supervisor.Sound) (e : ProcessEvent) :
    (r.process text exe logDir e).Vouched := by
  rcases e.exits_or with ⟨pid,status,rfl⟩ | he
  · unfold FedRun.process
    dsimp only
    split
    · rename_i hmay
      exact h.exits hmay
    · exact h
  · rcases r.process_cases text exe logDir e with heq | heq
    · rwa [heq]
    · rw [heq]
      have hchange : Supervisor.Change r.supervisor
          (r.supervisor.step text (r.invocation.plan exe logDir) e) := Supervisor.change_step he
      refine ⟨h.accounted.step hsound e,fun pid hpid => (h.scoredLt pid hpid).trans_le
        hchange.length_le,fun hscored c hc hended => ?_⟩
      have hended' := (hchange.endedWell c.child).mp hended
      obtain ⟨started,hfollows⟩ := hchange.clients
      rcases hfollows c hc with ⟨c',hc',hchild,-,-⟩ | ⟨-,hchild,-⟩
      · rw [← hchild] at hended' ⊢
        exact h.scored hscored c' hc' hended'
      · exact absurd hended'.lt_length (hchild ▸ lt_irrefl _)

theorem ended_process (h : r.ended = true) (e : ProcessEvent) :
    (r.process text exe logDir e).ended = true := by
  rcases r.process_cases text exe logDir e with heq | heq
  · rwa [heq]
  · rw [heq]
    by_cases hr : r.supervisor.Returned
    · obtain ⟨-,hstep | ⟨pid,status,hstep⟩⟩ := @Supervisor.step_of_returned α text
        (r.invocation.plan exe logDir) r.supervisor hr e
      · rw [hstep]
        exact h
      · rw [hstep]
        exact h
    · unfold ended at h ⊢
      rw [Bool.or_eq_true] at h ⊢
      rcases h with h | h
      · exact .inl h
      · split at h
        · rename_i hstage
          exact absurd (by rw [Supervisor.Returned, hstage]; rfl) hr
        · rename_i hstage
          exact absurd (by rw [Supervisor.Returned, hstage]; rfl) hr
        · cases h

/-- An invocation that has ended reads no more file. -/
theorem next_eq_none (h : r.ended = true) : r.next = none := by
  unfold ended at h
  unfold next summary
  cases hinterrupted : r.interrupted with
  | true => rfl
  | false =>
    rw [hinterrupted, Bool.false_or] at h
    split at h
    · rename_i summary hstage
      rw [hstage]
      exact List.getElem?_eq_none (by simpa using h)
    · rename_i hstage
      rw [hstage]
      rfl
    · cases h

/-- The client whose file is read next has ended well, so it has written its score. -/
theorem Vouched.exists_of_next (h : r.Vouched) (hscored : r.invocation.Scored) {o : ProcessOutcome}
    (hnext : r.next = some o) : ∃ c ∈ r.supervisor.clients, c.clientId = o.clientId ∧
      c.child ∈ r.scored := by
  unfold next summary at hnext
  split at hnext
  · cases hnext
  · split at hnext
    · rename_i summary hstage
      have hmem : o ∈ summary.clients := List.mem_of_getElem? hnext
      rw [h.accounted.summary summary hstage] at hmem
      obtain ⟨c,hc,ho⟩ := List.mem_filterMap.mp hmem
      obtain ⟨hid,hended⟩ := h.accounted.outcome c hc o ho
      exact ⟨c,hc,hid.symm,h.scored hscored c hc hended⟩
    · cases hnext

theorem client_of_eq_some {child : ℕ} {c : ClientChild} (h : r.client child = some c) :
    c ∈ r.supervisor.clients ∧ c.child = child ∧ r.supervisor.procs.Running child := by
  unfold client at h
  split at h
  · exact ⟨List.mem_of_find?_eq_some h,by simpa using List.find?_some h,‹_›⟩
  · cases h

theorem Vouched.score (h : r.Vouched) {child : ℕ} {c : ClientChild}
    (hc : r.client child = some c) : Vouched { r with scored := child::r.scored } where
  accounted := h.accounted
  scoredLt pid hpid := by
    rcases List.mem_cons.mp hpid with rfl | hpid
    · exact (client_of_eq_some hc).2.2.lt_length
    · exact h.scoredLt pid hpid
  scored hscored c' hc' hended := List.mem_cons_of_mem _ (h.scored hscored c' hc' hended)

end FedRun

namespace LogDirectory
variable {α : Type} {text : AddrText α} {exe logDir : String} {d : LogDirectory α} {r : FedRun α}
  {k : ℕ}

/-- Only invocations whose clients score begin, and no client writes after a later one began. -/
def Undisturbed (d : LogDirectory α) : LogEvent → Prop
  | .begins inv => inv.Scored
  | .scores k _ _ => k+1 = d.runs.length
  | _ => True

instance : (e : LogEvent) → Decidable (d.Undisturbed e)
  | .begins inv => inferInstanceAs (Decidable (inv.isDemo = true ∧ inv.model.score.isSome = true))
  | .scores k _ _ => inferInstanceAs (Decidable (k+1 = d.runs.length))
  | .process _ _ => isTrue trivial
  | .interrupts _ => isTrue trivial
  | .writes _ _ _ _ => isTrue trivial
  | .reads _ => isTrue trivial

/-- The file holds a score of the model, from this invocation. -/
def Holds (k : ℕ) (r : FedRun α) (file : ScoreFile) : Prop :=
  ∃ score, r.invocation.model.Gives score ∧ file = ⟨some (scoreText score),some k⟩

/-- What holds at every moment where nothing disturbs. All invocations but the last have ended, and
the files of the last are in place. -/
structure Scoring (logDir : String) (d : LogDirectory α) : Prop where
  vouched : ∀ (k : ℕ) (r : FedRun α), d.runs[k]? = some r → r.Vouched ∧ r.invocation.Scored
  ended : ∀ (k : ℕ) (r : FedRun α), d.runs[k]? = some r → k+1 < d.runs.length → r.ended = true
  left : ∀ (k : ℕ) (r : FedRun α), d.runs[k]? = some r → k+1 = d.runs.length →
    ∀ c ∈ r.supervisor.clients, c.child ∈ r.scored →
      Holds k r (d.files (scorePath logDir c.clientId))
  told : ∀ (k : ℕ) (r : FedRun α), d.runs[k]? = some r → ∀ b ∈ r.readBack, Holds k r b.file

theorem scoring_start (old : String → Option String) :
    (start old : LogDirectory α).Scoring logDir where
  vouched _ _ h := by simp [start] at h
  ended _ _ h := by simp [start] at h
  left _ _ h := by simp [start] at h
  told _ _ h := by simp [start] at h

/-- A step of one invocation; only the last one's may touch a file. -/
theorem Scoring.update (h : d.Scoring logDir) (hk : d.runs[k]? = some r) (r' : FedRun α)
    (files : String → ScoreFile) (hinv : r'.invocation = r.invocation) (hvouched : r'.Vouched)
    (hended : r.ended = true → r'.ended = true)
    (hfiles : k+1 ≠ d.runs.length → files = d.files)
    (hleft : k+1 = d.runs.length → ∀ c ∈ r'.supervisor.clients, c.child ∈ r'.scored →
      Holds k r (files (scorePath logDir c.clientId)))
    (htold : ∀ b ∈ r'.readBack, Holds k r b.file) :
    Scoring logDir ⟨files,d.runs.set k r'⟩ := by
  have hholds (file : ScoreFile) : Holds k r' file ↔ Holds k r file := by
    unfold Holds
    rw [hinv]
  constructor
  · intro j s hj
    rcases run_of_set hk hj with ⟨rfl,rfl⟩ | ⟨-,hj⟩
    · exact ⟨hvouched,hinv ▸ (h.vouched j r hk).2⟩
    · exact h.vouched j s hj
  · intro j s hj hlt
    rw [List.length_set] at hlt
    rcases run_of_set hk hj with ⟨rfl,rfl⟩ | ⟨-,hj⟩
    · exact hended (h.ended j r hk hlt)
    · exact h.ended j s hj hlt
  · intro j s hj hlast c hc hscored
    rw [List.length_set] at hlast
    rcases run_of_set hk hj with ⟨rfl,rfl⟩ | ⟨hjk,hj⟩
    · exact (hholds _).mpr (hleft hlast c hc hscored)
    · have hsame : files = d.files := hfiles fun hlast' => hjk (by omega)
      rw [hsame]
      exact h.left j s hj hlast c hc hscored
  · intro j s hj b hb
    rcases run_of_set hk hj with ⟨rfl,rfl⟩ | ⟨-,hj⟩
    · exact (hholds b.file).mpr (htold b hb)
    · exact h.told j s hj b hb

theorem Scoring.process (h : d.Scoring logDir) (hkept : d.Kept) (hk : d.runs[k]? = some r)
    (e : ProcessEvent) : (d.setRun k (r.process text exe logDir e)).Scoring logDir := by
  have hvouched := (h.vouched k r hk).1
  have hsame : (r.process text exe logDir e).invocation = r.invocation ∧
      (r.process text exe logDir e).readBack = r.readBack := by
    rcases r.process_cases text exe logDir e with heq | heq
    · rw [heq]
      exact ⟨rfl,rfl⟩
    · rw [heq]
      exact ⟨rfl,rfl⟩
  refine h.update hk _ d.files hsame.1 (hvouched.process (hkept.settled k r hk).sound e)
    (fun hended => FedRun.ended_process hended e) (fun _ => rfl) (fun hlast c hc hscored => ?_)
    (hsame.2 ▸ h.told k r hk)
  obtain ⟨c',hc',hscored',hid⟩ := hvouched.client_of_process e hc hscored
  rw [← hid]
  exact h.left k r hk hlast c' hc' hscored'

/-- A client of the last invocation writes its score. -/
theorem Scoring.onScores (h : d.Scoring logDir) (hk : d.runs[k]? = some r)
    (hlast : k+1 = d.runs.length) (child : ℕ) (global : List F32) :
    (d.onScores logDir k r child global).Scoring logDir := by
  have hvouched := (h.vouched k r hk).1
  unfold LogDirectory.onScores
  split
  · rename_i c score _ hc hscore
    obtain ⟨f,hf,hglobal⟩ := Option.bind_eq_some_iff.mp hscore
    obtain ⟨hmem,hchild,-⟩ := FedRun.client_of_eq_some hc
    have hscored := hvouched.score hc
    refine h.update hk { r with
        scored := child::r.scored
        wrote := Function.update r.wrote (scorePath logDir c.clientId) (some (scoreText score)) }
      _ rfl ⟨hscored.accounted,hscored.scoredLt,hscored.scored⟩ id (absurd hlast) ?_
      (h.told k r hk)
    intro _ c' hc' hc''
    by_cases hpath : scorePath logDir c'.clientId = scorePath logDir c.clientId
    · rw [hpath, Function.update_self]
      exact ⟨score,⟨f,global,hf,hglobal⟩,rfl⟩
    · rw [Function.update_of_ne hpath]
      rcases List.mem_cons.mp hc'' with heq | hc''
      · have hid := hvouched.accounted.unique c' hc' c hmem (heq.trans hchild.symm)
        exact absurd (congrArg (scorePath logDir) hid) hpath
      · exact h.left k r hk hlast c' hc' hc''
  · exact h

/-- What is read next is the score that its client has left. -/
theorem Scoring.holds_next (h : d.Scoring logDir) (hk : d.runs[k]? = some r) {o : ProcessOutcome}
    (hnext : r.next = some o) : Holds k r (d.files (scorePath logDir o.clientId)) := by
  obtain ⟨hvouched,hscored⟩ := h.vouched k r hk
  have hlast : k+1 = d.runs.length := by
    have hlt := (List.getElem?_eq_some_iff.mp hk).1
    by_contra hne
    have hended := h.ended k r hk (by omega)
    rw [FedRun.next_eq_none hended] at hnext
    cases hnext
  obtain ⟨c,hc,hid,hmem⟩ := hvouched.exists_of_next hscored hnext
  rw [← hid]
  exact h.left k r hk hlast c hc hmem

theorem Scoring.onReads (h : d.Scoring logDir) (hk : d.runs[k]? = some r) :
    (d.onReads logDir k r).Scoring logDir := by
  unfold LogDirectory.onReads
  split
  · rename_i o hnext
    have hvouched := (h.vouched k r hk).1
    refine h.update hk { r with readBack := r.readBack++
        [⟨o.clientId,d.files (scorePath logDir o.clientId)⟩] } d.files rfl
      ⟨hvouched.accounted,hvouched.scoredLt,hvouched.scored⟩ (fun hended => ?_) (fun _ => rfl)
      (fun hlast => h.left k r hk hlast) fun b hb => ?_
    · rw [FedRun.next_eq_none hended] at hnext
      cases hnext
    · rcases List.mem_append.mp hb with hb | hb
      · exact h.told k r hk b hb
      · rw [List.mem_singleton.mp hb]
        exact h.holds_next hk hnext
  · exact h

theorem Scoring.begins (h : d.Scoring logDir) (hended : d.runs.all FedRun.ended = true)
    {inv : Invocation} (hinv : inv.Scored) :
    Scoring logDir { d with runs := d.runs++[FedRun.begin inv] } := by
  have hcases {j : ℕ} {s : FedRun α} (hj : (d.runs++[FedRun.begin inv])[j]? = some s) :
      d.runs[j]? = some s ∨ j = d.runs.length ∧ s = FedRun.begin inv := by
    rw [List.getElem?_append] at hj
    split at hj
    · exact .inl hj
    · obtain ⟨hlt,heq⟩ := List.getElem?_eq_some_iff.mp hj
      rw [List.length_singleton] at hlt
      refine .inr ⟨by omega,?_⟩
      rw [← heq, List.getElem_singleton]
  constructor
  · intro j s hj
    rcases hcases hj with hj | ⟨-,rfl⟩
    · exact h.vouched j s hj
    · exact ⟨FedRun.vouched_begin inv,hinv⟩
  · intro j s hj hlt
    rcases hcases hj with hj | ⟨rfl,-⟩
    · exact List.all_eq_true.mp hended s (List.mem_of_getElem? hj)
    · simp at hlt
  · intro j s hj hlast c hc
    rcases hcases hj with hj | ⟨-,rfl⟩
    · have hlt := (List.getElem?_eq_some_iff.mp hj).1
      simp at hlast
      omega
    · exact absurd hc List.not_mem_nil
  · intro j s hj b hb
    rcases hcases hj with hj | ⟨-,rfl⟩
    · exact h.told j s hj b hb
    · exact absurd hb List.not_mem_nil

theorem Scoring.step (h : d.Scoring logDir) (hkept : d.Kept) {e : LogEvent}
    (he : d.Undisturbed e) : (d.step text exe logDir e).Scoring logDir := by
  cases e with
  | begins inv =>
    simp only [LogDirectory.step]
    split
    · rename_i hended
      exact h.begins hended he
    · exact h
  | process k e => exact of_onRun h fun r hk => h.process hkept hk e
  | interrupts k =>
    refine of_onRun h fun r hk => ?_
    have hvouched := (h.vouched k r hk).1
    exact h.update hk { r with interrupted := true } d.files rfl
      ⟨hvouched.accounted,hvouched.scoredLt,hvouched.scored⟩ (fun _ => rfl) (fun _ => rfl)
      (fun hlast => h.left k r hk hlast) (h.told k r hk)
  | scores k child global => exact of_onRun h fun r hk => h.onScores hk he child global
  | writes k child path t =>
    refine of_onRun h fun r hk => ?_
    unfold onWrites
    rw [(h.vouched k r hk).2.1]
    exact h
  | reads k => exact of_onRun h fun r hk => h.onReads hk

theorem Scoring.fresh (h : d.Scoring logDir) (e : LogEvent) : Fresh logDir d e := by
  cases e with
  | reads k =>
    intro r hk o hnext
    obtain ⟨score,-,hfile⟩ := h.holds_next hk hnext
    rw [hfile]
    exact .inl rfl
  | _ => trivial

/-- Where every invocation runs demo clients of a model with a score, and none of an earlier one
writes meanwhile, every file is fresh; and every client whose file is read has left a score of the
model, which is reported. -/
theorem scores_of_undisturbed {old : String → Option String} {events : List LogEvent}
    (h : Run.Always (step text exe logDir) Undisturbed (start old) events) :
    Run.Always (step text exe logDir) (Fresh logDir) (start old) events ∧
    ∀ (k : ℕ) (r : FedRun α), (after text exe logDir old events).runs[k]? = some r →
      r.scores.length = r.readBack.length ∧ ∀ b ∈ r.readBack, ∃ score,
        r.invocation.model.Gives score ∧ b.file.author = some k ∧ b.file.text.bind scoreIn =
          some (score.label,if score.value.isNaN then F32.nan else score.value) := by
  have hstart : (start old : LogDirectory α).Kept ∧ (start old : LogDirectory α).Scoring logDir :=
    ⟨kept_start old,scoring_start old⟩
  refine ⟨h.of_invariant (fun d => d.Kept ∧ d.Scoring logDir) hstart fun _ e hd he =>
    ⟨hd.2.fresh e,hd.1.step e,hd.2.step hd.1 he⟩,fun k r hk => ?_⟩
  have hscoring := Run.after_of_invariant (fun d : LogDirectory α => d.Kept ∧ d.Scoring logDir)
    hstart h fun d e hd he => ⟨hd.1.step e,hd.2.step hd.1 he⟩
  have hread : ∀ b ∈ r.readBack, ∃ score, r.invocation.model.Gives score ∧
      b.file.author = some k ∧ b.file.text.bind scoreIn =
        some (score.label,if score.value.isNaN then F32.nan else score.value) := by
    intro b hb
    obtain ⟨score,hgives,hfile⟩ := hscoring.2.told k r hk b hb
    refine ⟨score,hgives,by rw [hfile],?_⟩
    rw [hfile]
    exact scoreIn_scoreText hgives.label.1 hgives.label.2
  refine ⟨?_,hread⟩
  unfold FedRun.scores
  rw [List.length_filterMap_eq_countP, List.countP_eq_length]
  intro b hb
  obtain ⟨score,-,-,hscore⟩ := hread b hb
  rw [hscore]
  rfl

/-- Two invocations of the demo, each with one client that leaves a score. -/
def scoreTwice : List LogEvent :=
  let demo : Invocation := { oneCommand [] with clientCommand := none }
  succeeds 0 demo [.scores 0 2 (List.replicate 4 F32.zero)]++
    succeeds 1 demo [.scores 1 2 (List.replicate 4 F32.one)]

theorem scores_of_undisturbed_twice :
    ∃ r, (after addrText "cflux" "logs" (fun _ => none) scoreTwice).runs[1]? = some r ∧
      r.readBack.map ReadBack.clientId = ["client-0"] ∧ r.scores.length = 1 ∧
      ∀ b ∈ r.readBack, b.file.author = some 1 := by
  have hread : ((after addrText "cflux" "logs" (fun _ => none) scoreTwice).runs[1]?.map fun r =>
      r.readBack.map ReadBack.clientId) = some ["client-0"] := by
    decide +kernel
  obtain ⟨r,hk,hr⟩ := Option.map_eq_some_iff.mp hread
  have hundisturbed : Run.Always (step addrText "cflux" "logs") Undisturbed
      (start fun _ => none) scoreTwice := by
    decide +kernel
  obtain ⟨hlength,hscores⟩ := (scores_of_undisturbed hundisturbed).2 1 r hk
  have hone := congrArg List.length hr
  rw [List.length_map] at hone
  refine ⟨r,hk,hr,hlength.trans hone,fun b hb => ?_⟩
  obtain ⟨-,-,hauthor,-⟩ := hscores b hb
  exact hauthor

end LogDirectory
end ConfluxFL
