import ConfluxFL.Protocol.Serving

/-! A delta that makes it into a round was trained from the weights that round loaded. A task
may pair a round number with weights saved after that number was read; but by then the round has
flushed, and a closed buffer takes nothing more. -/
namespace ConfluxFL.Serving
variable {ι : Type} {s t : Serving ι}

/-- A task read under round number `round` is not from the future, and while that round is still
open its weights are the ones the store serves. -/
def Offers (s : Serving ι) (round : ℕ) (P : List F32 → Prop) : Prop :=
  round ≤ s.round ∧ (round = s.round → s.phase.isOver = false →
    ∃ weights, s.store.loadLatestWeights = .ok weights ∧ P weights)

/-- What has been read, by the attempt and by the calls. -/
structure Reading (s : Serving ι) : Prop where
  round : ∀ round, s.phase.round? = some round → round = s.round
  weights : ∀ weights, s.phase.weights? = some weights →
    s.store.loadLatestWeights = .ok weights
  handed : ∀ task ∈ s.handed, s.Offers task.round fun weights =>
    task.modelWeights = encodeWeights weights
  gotRound : ∀ i round, s.fetches i = .gotRound round → round ≤ s.round
  gotWeights : ∀ i round weights, s.fetches i = .gotWeights round weights →
    s.Offers round (· = weights)

theorem reading_start (store : AnyStore) : Reading (start store : Serving ι) where
  round _ h := nomatch h
  weights _ h := nomatch h
  handed _ h := nomatch h
  gotRound _ _ h := nomatch h
  gotWeights _ _ _ h := nomatch h

/-- An offer survives what leaves the counter and the store alone and does not reopen a round. -/
theorem Offers.frame {round : ℕ} {P : List F32 → Prop} (h : s.Offers round P)
    (hround : t.round = s.round) (hstore : t.store = s.store)
    (hover : t.phase.isOver = false → s.phase.isOver = false) : t.Offers round P := by
  refine ⟨hround ▸ h.1,fun hr hs => ?_⟩
  rw [hstore]
  exact h.2 (hr.trans hround) (hover hs)

/-- A step that moves neither the counter nor the store. -/
theorem Reading.setPhase (h : Reading s) (hround : t.round = s.round) (hstore : t.store = s.store)
    (hfetches : t.fetches = s.fetches) (hhanded : t.handed = s.handed)
    (hover : t.phase.isOver = false → s.phase.isOver = false)
    (hr : ∀ round, t.phase.round? = some round → round = s.round)
    (hw : ∀ weights, t.phase.weights? = some weights →
      s.store.loadLatestWeights = .ok weights) : Reading t where
  round := by rw [hround]; exact hr
  weights := by rw [hstore]; exact hw
  handed := by
    rw [hhanded]
    exact fun task ht => (h.handed task ht).frame hround hstore hover
  gotRound := by
    rw [hfetches, hround]
    exact h.gotRound
  gotWeights := by
    rw [hfetches]
    exact fun i round weights hi => (h.gotWeights i round weights hi).frame hround hstore hover

/-- A task that was offered is handed out. -/
theorem Reading.hand (h : Reading s) {task : TaskResponse}
    (htask : s.Offers task.round fun weights => task.modelWeights = encodeWeights weights) :
    Reading { s with handed := s.handed++[task] } where
  round := h.round
  weights := h.weights
  handed := by
    intro task' ht
    rcases List.mem_append.mp ht with ht | ht
    · exact h.handed task' ht
    · rw [List.mem_singleton.mp ht]
      exact htask
  gotRound := h.gotRound
  gotWeights := h.gotWeights

theorem Reading.saves (h : Reading s) {round : ℕ} {weights : List F32} {batch : List Trained}
    (closing : s.phase = .closing round weights batch) (newWeights : List F32) :
    Reading { s with store := s.store.saveCheckpoint round newWeights, phase := .saved round } where
  round r hr := h.round r (by rw [closing]; exact hr)
  weights _ hw := nomatch hw
  handed task ht := ⟨(h.handed task ht).1,nofun⟩
  gotRound := h.gotRound
  gotWeights i r w hi := ⟨(h.gotWeights i r w hi).1,nofun⟩

/-- Moving the counter makes everything that was handed out before it old. -/
theorem Reading.advances (h : Reading s) {round : ℕ} (saved : s.phase = .saved round) :
    Reading { s with round := round+1, phase := .advanced } := by
  have hround : round = s.round := h.round round (by rw [saved]; rfl)
  have hold {r : ℕ} {P : List F32 → Prop} (hr : s.Offers r P) :
      Offers { s with round := round+1, phase := .advanced } r P := by
    have hle := hr.1
    refine ⟨by change r ≤ round+1; omega,fun heq => ?_⟩
    change r = round+1 at heq
    omega
  refine ⟨nofun,nofun,fun task ht => hold (h.handed task ht),fun i r hi => ?_,fun i r w hi =>
    hold (h.gotWeights i r w hi)⟩
  have hle := h.gotRound i r hi
  change r ≤ round+1
  omega

section Step
variable [DecidableEq ι]

/-- A call moves to a phase that is right about what it has read. -/
theorem Reading.setFetch (h : Reading s) {i : ι} {phase : FetchPhase}
    (hround : ∀ round, phase = .gotRound round → round ≤ s.round)
    (hweights : ∀ round weights, phase = .gotWeights round weights → s.Offers round (· = weights)) :
    Reading { s with fetches := Function.update s.fetches i phase } where
  round := h.round
  weights := h.weights
  handed := h.handed
  gotRound := by
    intro j round hj
    by_cases hji : j = i
    · subst hji
      exact hround round (by simpa using hj)
    · exact h.gotRound j round (by simpa [hji] using hj)
  gotWeights := by
    intro j round weights hj
    by_cases hji : j = i
    · subst hji
      exact hweights round weights (by simpa using hj)
    · exact h.gotWeights j round weights (by simpa [hji] using hj)

theorem Reading.step (h : Reading s) (hstep : Step s t) : Reading t := by
  cases hstep with
  | begins idle =>
    exact h.setPhase rfl rfl rfl rfl (by simp [idle, ServingPhase.isOver])
      (fun _ hr => (Option.some.inj hr).symm) nofun
  | loads begun latest =>
    refine h.setPhase rfl rfl rfl rfl (by simp [begun, ServingPhase.isOver]) (fun r hr => ?_)
      fun w hw => Option.some.inj hw ▸ latest
    exact h.round r (by rw [begun]; exact hr)
  | opens loaded quorum =>
    exact h.setPhase rfl rfl rfl rfl (by simp [loaded, ServingPhase.isOver])
      (fun r hr => h.round r (by rw [loaded]; exact hr))
      fun w hw => h.weights w (by rw [loaded]; exact hw)
  | @broadcasts round slot weights opened controlVariate =>
    have hround := h.round round (by rw [opened]; rfl)
    have hweights := h.weights weights (by rw [opened]; rfl)
    refine (h.hand ?_).setPhase rfl rfl rfl rfl (by simp [opened, ServingPhase.isOver])
      (fun r hr => h.round r (by rw [opened]; exact hr))
      fun w hw => h.weights w (by rw [opened]; exact hw)
    exact ⟨hround.le,fun _ _ => ⟨weights,hweights,rfl⟩⟩
  | flushes collecting buffer closes =>
    exact h.setPhase rfl rfl rfl rfl (by simp [collecting, ServingPhase.isOver])
      (fun r hr => h.round r (by rw [collecting]; exact hr))
      fun w hw => h.weights w (by rw [collecting]; exact hw)
  | saves closing newWeights => exact h.saves closing newWeights
  | advances saved => exact h.advances saved
  | clears advanced =>
    exact h.setPhase rfl rfl rfl rfl (by simp [advanced, ServingPhase.isOver]) nofun nofun
  | fails mayFail =>
    refine h.setPhase rfl rfl rfl rfl (fun _ => ?_) nofun nofun
    cases hp : s.phase <;> rw [hp] at mayFail <;> first | rfl | cases mayFail
  | stops => exact h.setPhase rfl rfl rfl rfl nofun nofun nofun
  | readsRound idle => exact h.setFetch (fun r hr => by cases hr; exact le_rfl) nofun
  | @readsWeights i round weights got latest =>
    refine h.setFetch nofun fun r w hr => ?_
    cases hr
    exact ⟨h.gotRound i round got,fun _ _ => ⟨weights,latest,rfl⟩⟩
  | @answers i round weights got controlVariate =>
    have hoffer := h.gotWeights i round weights got
    have hidle : Reading { s with fetches := Function.update s.fetches i .idle } :=
      h.setFetch nofun nofun
    refine hidle.hand ⟨hoffer.1,fun hr hs => ?_⟩
    obtain ⟨w,hw,rfl⟩ := hoffer.2 hr hs
    exact ⟨w,hw,rfl⟩
  | grabs idle trained current =>
    exact h.setPhase rfl rfl rfl rfl id h.round h.weights
  | pushes holding buffer taken => exact h.setPhase rfl rfl rfl rfl id h.round h.weights
  | refuses holding => exact h.setPhase rfl rfl rfl rfl id h.round h.weights

end Step

section Buffers

/-- The open buffer `slot` of this round belongs to the attempt in this phase, or to nobody once
the loop has stopped. -/
def Owns (phase : ServingPhase) (slot round : ℕ) : Prop :=
  phase = .stopped ∨ ∃ weights,
    phase = .opened round weights slot ∨ phase = .collecting round weights slot

/-- A client trains on a task it was handed. -/
def TrainedOnHanded (s : Serving ι) (x : Trained) : Prop :=
  ∀ task, x.task = some task → task ∈ s.handed

/-- What the buffers hold: only the attempt's own buffer is open, and everything in it is for
its round and was trained on a task that was handed out. -/
structure Collecting (s : Serving ι) : Prop where
  opened : ∀ slot b ds, s.buffers[slot]? = some b → b.state = .opened ds →
    Owns s.phase slot b.round ∧
      ∀ x ∈ ds, HasRound.round x = b.round ∧ s.TrainedOnHanded x
  holding : ∀ i slot x, s.submits i = .holding slot x → s.TrainedOnHanded x

theorem collecting_start (store : AnyStore) : Collecting (start store : Serving ι) where
  opened slot b ds h := by simp [start] at h
  holding i slot x h := nomatch h

theorem TrainedOnHanded.mono {x : Trained} (h : s.TrainedOnHanded x)
    (hhanded : s.handed ⊆ t.handed) : t.TrainedOnHanded x :=
  fun task ht => hhanded (h task ht)

/-- A step that leaves the buffers and the calls that hold one alone. -/
theorem Collecting.frame (h : Collecting s) (hbuffers : t.buffers = s.buffers)
    (hsubmits : t.submits = s.submits) (hhanded : s.handed ⊆ t.handed)
    (howns : ∀ slot round, Owns s.phase slot round → Owns t.phase slot round) : Collecting t where
  opened := by
    rw [hbuffers]
    intro slot b ds hb hds
    obtain ⟨hown,hall⟩ := h.opened slot b ds hb hds
    exact ⟨howns slot b.round hown,fun x hx => ⟨(hall x hx).1,(hall x hx).2.mono hhanded⟩⟩
  holding := by
    rw [hsubmits]
    exact fun i slot x hx => (h.holding i slot x hx).mono hhanded

/-- In a phase that owns no buffer none is open. -/
theorem Collecting.not_opened (h : Collecting s)
    (hphase : ∀ slot round, ¬Owns s.phase slot round) {slot : ℕ} {b : RoundBuffer Trained}
    {ds : List Trained} (hb : s.buffers[slot]? = some b) : b.state ≠ .opened ds :=
  fun hds => hphase slot b.round (h.opened slot b ds hb hds).1

theorem Collecting.opens (h : Collecting s) {round : ℕ} {weights : List F32}
    (loaded : s.phase = .loaded round weights) (quorum : ℕ) :
    Collecting { s with
      buffers := s.buffers++[.new round quorum]
      current := some s.buffers.length
      phase := .opened round weights s.buffers.length } where
  opened := by
    intro slot b ds hb hds
    change (s.buffers++[RoundBuffer.new round quorum])[slot]? = some b at hb
    by_cases hlt : slot < s.buffers.length
    · rw [List.getElem?_append_left hlt] at hb
      exact absurd hds (h.not_opened (by simp [Owns, loaded]) hb)
    · rw [List.getElem?_append_right (by omega)] at hb
      obtain ⟨hslot,hnew⟩ : slot-s.buffers.length = 0 ∧ RoundBuffer.new round quorum = b := by
        simpa [List.getElem?_singleton] using hb
      have hlen : slot = s.buffers.length := by omega
      subst hnew hlen
      refine ⟨.inr ⟨weights,.inl rfl⟩,fun x hx => ?_⟩
      cases hds
      cases hx
  holding := h.holding

theorem Closes.closed {b : RoundBuffer Trained} {taken : List Trained × RoundBuffer Trained}
    (h : Closes b taken) : taken = (b.deltas,b.close) := by
  rcases h with h | h
  · rcases b.closeIfQuorumMet_cases with hnone | hsome
    · rw [hnone] at h
      cases h
    · exact (Option.some.inj (hsome.symm.trans h)).symm
  · exact h.symm

theorem Collecting.flushes (h : Collecting s) {round slot : ℕ} {weights : List F32}
    {b : RoundBuffer Trained} (collecting : s.phase = .collecting round weights slot)
    (batch : List Trained) :
    Collecting { s with
      buffers := s.buffers.set slot b.close
      phase := .closing round weights batch } where
  opened := by
    intro k b' ds hb hds
    change (s.buffers.set slot b.close)[k]? = some b' at hb
    by_cases hk : slot = k
    · subst hk
      rw [List.getElem?_set_self'] at hb
      obtain ⟨_,_,rfl⟩ := Option.map_eq_some_iff.mp hb
      cases hds
    · rw [List.getElem?_set_ne hk] at hb
      have hown := (h.opened k b' ds hb hds).1
      simp [Owns, collecting, hk] at hown
  holding := h.holding

theorem Collecting.pushes [DecidableEq ι] (h : Collecting s) {i : ι} {slot : ℕ} {x : Trained}
    {b b' : RoundBuffer Trained} (holding : s.submits i = .holding slot x)
    (buffer : s.buffers[slot]? = some b) (taken : b.push x = .ok b') :
    Collecting { s with
      buffers := s.buffers.set slot b'
      submits := Function.update s.submits i .idle } where
  opened := by
    intro k b'' ds hb hds
    change (s.buffers.set slot b')[k]? = some b'' at hb
    by_cases hk : slot = k
    · subst hk
      rw [List.getElem?_set_self', buffer] at hb
      obtain ⟨hround,ds',hds',rfl⟩ := RoundBuffer.push_ok_iff.mp taken
      obtain ⟨hown,hall⟩ := h.opened slot b ds' buffer hds'
      cases hb
      cases hds
      refine ⟨hown,fun y hy => ?_⟩
      rcases List.mem_append.mp hy with hy | hy
      · exact hall y hy
      · rw [List.mem_singleton.mp hy]
        exact ⟨hround,h.holding i slot x holding⟩
    · rw [List.getElem?_set_ne hk] at hb
      exact h.opened k b'' ds hb hds
  holding := by
    intro j k y hj
    by_cases hji : j = i
    · subst hji
      simp at hj
    · exact h.holding j k y (by simpa [hji] using hj)

theorem Collecting.setSubmit [DecidableEq ι] (h : Collecting s) {i : ι} {phase : SubmitPhase}
    (hphase : ∀ slot x, phase = .holding slot x → s.TrainedOnHanded x) :
    Collecting { s with submits := Function.update s.submits i phase } where
  opened := h.opened
  holding := by
    intro j slot x hj
    by_cases hji : j = i
    · subst hji
      exact hphase slot x (by simpa using hj)
    · exact h.holding j slot x (by simpa [hji] using hj)

theorem Collecting.step [DecidableEq ι] (h : Collecting s) (hstep : Step s t) : Collecting t := by
  cases hstep with
  | begins idle => exact h.frame rfl rfl (List.Subset.refl _) (by simp [Owns, idle])
  | loads begun latest => exact h.frame rfl rfl (List.Subset.refl _) (by simp [Owns, begun])
  | opens loaded quorum => exact h.opens loaded quorum
  | broadcasts opened controlVariate =>
    refine h.frame rfl rfl (List.subset_append_left _ _) fun slot round hown => ?_
    simpa [Owns, opened] using hown
  | flushes collecting buffer closes =>
    rw [closes.closed]
    exact h.flushes collecting _
  | saves closing newWeights => exact h.frame rfl rfl (List.Subset.refl _) (by simp [Owns, closing])
  | advances saved => exact h.frame rfl rfl (List.Subset.refl _) (by simp [Owns, saved])
  | clears advanced => exact h.frame rfl rfl (List.Subset.refl _) (by simp [Owns, advanced])
  | fails mayFail =>
    refine h.frame rfl rfl (List.Subset.refl _) fun slot round hown => ?_
    rcases hown with hown | ⟨w,hown | hown⟩ <;> rw [hown] at mayFail <;> cases mayFail
  | stops => exact h.frame rfl rfl (List.Subset.refl _) fun _ _ _ => .inl rfl
  | readsRound idle => exact h.frame rfl rfl (List.Subset.refl _) fun _ _ => id
  | readsWeights got latest => exact h.frame rfl rfl (List.Subset.refl _) fun _ _ => id
  | answers got controlVariate =>
    exact h.frame rfl rfl (List.subset_append_left _ _) fun _ _ => id
  | grabs idle trained current =>
    refine h.setSubmit fun slot x hx => ?_
    cases hx
    exact trained
  | pushes holding buffer taken => exact h.pushes holding buffer taken
  | refuses holding => exact h.setSubmit nofun

end Buffers

/-- Every delta of the batch a round works on whose client echoes the round of its task was
trained from the weights the round loaded. -/
def Coherent (s : Serving ι) : Prop :=
  ∀ round weights batch, s.phase = .closing round weights batch → ∀ x ∈ batch, ∀ task,
    x.Echoes task → task.modelWeights = encodeWeights weights

/-- What a collecting attempt takes out of its buffer is coherent. -/
theorem coherent_deltas (hread : Reading s) (hcollect : Collecting s) {round slot : ℕ}
    {weights : List F32} {b : RoundBuffer Trained}
    (collecting : s.phase = .collecting round weights slot) (buffer : s.buffers[slot]? = some b)
    {x : Trained} (hx : x ∈ b.deltas) {task : TaskResponse} (hecho : x.Echoes task) :
    task.modelWeights = encodeWeights weights := by
  cases hstate : b.state with
  | closed => simp [RoundBuffer.deltas, hstate] at hx
  | opened ds =>
    rw [RoundBuffer.deltas, hstate] at hx
    obtain ⟨hown,hall⟩ := hcollect.opened slot b ds buffer hstate
    obtain ⟨hround,htrained⟩ := hall x hx
    have hb : b.round = round := by
      simp only [Owns, collecting, reduceCtorEq, ServingPhase.collecting.injEq, false_or] at hown
      obtain ⟨_,hr,_⟩ := hown
      exact hr.symm
    have hs : round = s.round := hread.round round (by rw [collecting]; rfl)
    have htask : task.round = s.round := by
      rw [← hecho.2, ← hs, ← hb]
      exact hround
    obtain ⟨w,hw,heq⟩ := (hread.handed task (htrained task hecho.1)).2 htask
      (by rw [collecting]; rfl)
    have hload := hread.weights weights (by rw [collecting]; rfl)
    rw [hw, Except.ok.injEq] at hload
    rw [heq, hload]

theorem Coherent.step [DecidableEq ι] (h : Coherent s) (hread : Reading s)
    (hcollect : Collecting s) (hstep : Step s t) : Coherent t := by
  cases hstep with
  | flushes collecting buffer closes =>
    rw [closes.closed]
    intro round weights batch hphase x hx task hecho
    cases hphase
    exact coherent_deltas hread hcollect collecting buffer hx hecho
  | readsRound idle => exact h
  | readsWeights got latest => exact h
  | answers got controlVariate => exact h
  | grabs idle trained current => exact h
  | pushes holding buffer taken => exact h
  | refuses holding => exact h
  | _ => nofun

/-- Whatever the interleaving, a round aggregates only deltas trained from the weights it loaded
at its start, as far as their clients echo the round of the task they trained on. -/
theorem coherent_of_reaches [DecidableEq ι] (store : AnyStore) (s : Serving ι)
    (h : Reaches (start store) s) : Coherent s := by
  have hall : Reading s ∧ Collecting s ∧ Coherent s := by
    induction h with
    | refl => exact ⟨reading_start store,collecting_start store,nofun⟩
    | tail _ hstep ih =>
      obtain ⟨hread,hcollect,hcoherent⟩ := ih
      exact ⟨hread.step hstep,hcollect.step hstep,hcoherent.step hread hcollect hstep⟩
  exact hall.2.2

section Attempts
open Fallible RoundM
variable {κ : Type} [DecidableEq ι] {d : Deployment κ} {env : RoundEnv} {srv srv' : Server κ}

/-- Submissions that were trained on tasks handed out go through the lock one after the other. -/
theorem reaches_pushes {i : ι} {slot : ℕ} (arrivals : List Trained) {b : RoundBuffer Trained}
    (hi : s.submits i = .idle) (hcurrent : s.current = some slot)
    (hb : s.buffers[slot]? = some b) (htrained : ∀ x ∈ arrivals, s.TrainedOnHanded x) :
    Reaches s { s with buffers := s.buffers.set slot (arrivals.foldl RoundBuffer.pushed b) } := by
  induction arrivals generalizing s b with
  | nil =>
    have hset : s.buffers.set slot b = s.buffers := by
      apply List.ext_getElem?
      intro k
      by_cases hk : slot = k
      · subst hk
        rw [List.getElem?_set_self', hb]
        rfl
      · rw [List.getElem?_set_ne hk]
    rw [List.foldl_nil, hset]
    exact .refl
  | cons x arrivals ih =>
    have hidle : Function.update (Function.update s.submits i (.holding slot x)) i .idle =
        s.submits := by
      rw [Function.update_idem, ← hi, Function.update_eq_self]
    have hgrab := Step.grabs hi (htrained x List.mem_cons_self) hcurrent
    have hrest : ∀ y ∈ arrivals, s.TrainedOnHanded y :=
      fun y hy => htrained y (List.mem_cons_of_mem x hy)
    have hlt : slot < s.buffers.length := (List.getElem?_eq_some_iff.mp hb).1
    rw [List.foldl_cons]
    cases hpush : b.push x with
    | ok b' =>
      have hpushed : b.pushed x = b' := by rw [RoundBuffer.pushed, hpush]
      have hstep := Step.pushes (s := { s with
        submits := Function.update s.submits i (.holding slot x) })
        (Function.update_self i _ _) hb hpush
      rw [hidle] at hstep
      have hnext := ih (s := { s with buffers := s.buffers.set slot b' }) (b := b') hi hcurrent
        (by rw [List.getElem?_set_self hlt]) hrest
      rw [List.set_set] at hnext
      rw [hpushed]
      exact .head hgrab (.head hstep hnext)
    | error e =>
      have hpushed : b.pushed x = b := by rw [RoundBuffer.pushed, hpush]
      have hstep := Step.refuses (s := { s with
        submits := Function.update s.submits i (.holding slot x) }) (Function.update_self i _ _)
      rw [hidle] at hstep
      rw [hpushed]
      exact .head hgrab (.head hstep (ih hi hcurrent hb hrest))

/-- A call of `fetch_task` that nothing disturbs. -/
theorem reaches_fetch {i : ι} {weights : List F32} (controlVariate : Option (List F32))
    (hi : s.fetches i = .idle) (hload : s.store.loadLatestWeights = .ok weights) :
    Reaches s { s with handed := s.handed++[taskOf s.round weights controlVariate] } := by
  have hround := Step.readsRound hi
  have hweights := Step.readsWeights (s := { s with
    fetches := Function.update s.fetches i (.gotRound s.round) })
    (Function.update_self i _ _) hload
  rw [Function.update_idem] at hweights
  have hanswer := Step.answers (s := { s with
    fetches := Function.update s.fetches i (.gotWeights s.round weights) })
    (Function.update_self i _ _) controlVariate
  rw [Function.update_idem, ← hi, Function.update_eq_self] at hanswer
  exact .head hround (.head hweights (.single hanswer))

/-- A process between two attempts, seen from its server. -/
structure Between (srv : Server κ) (s : Serving ι) : Prop where
  idle : s.phase = .idle
  round : s.round = srv.round
  store : s.store = srv.store

/-- Opening, collecting and flushing a round, with these submissions arriving. -/
theorem reaches_closing {i : ι} {weights : List F32} (quorum : ℕ) (arrivals : List Trained)
    (controlVariate : Option (List F32)) (hidle : s.phase = .idle) (hi : s.submits i = .idle)
    (hload : s.store.loadLatestWeights = .ok weights)
    (htrained : ∀ x ∈ arrivals, s.TrainedOnHanded x) :
    ∃ t, Reaches s t ∧ t.round = s.round ∧ t.store = s.store ∧ t.phase =
      .closing s.round weights (arrivals.filter fun x => HasRound.round x = s.round) := by
  let begun : Serving ι := { s with phase := .begun s.round }
  let loaded : Serving ι := { s with phase := .loaded s.round weights }
  let opened : Serving ι := { s with
    buffers := s.buffers++[.new s.round quorum]
    current := some s.buffers.length
    phase := .opened s.round weights s.buffers.length }
  let collecting : Serving ι := { opened with
    handed := s.handed++[taskOf s.round weights controlVariate]
    phase := .collecting s.round weights s.buffers.length }
  have hopen : Reaches s collecting :=
    .head (.begins hidle) (.head (.loads (s := begun) rfl hload)
      (.head (.opens (s := loaded) rfl quorum)
        (.single (.broadcasts (s := opened) rfl controlVariate))))
  have hbuffer : collecting.buffers[s.buffers.length]? = some (.new s.round quorum) := by
    simp [collecting, opened]
  have hpush := reaches_pushes (s := collecting) arrivals hi rfl hbuffer
    fun x hx => (htrained x hx).mono (List.subset_append_left _ _)
  have hlt : s.buffers.length < collecting.buffers.length := by simp [collecting, opened]
  have hflush := Step.flushes (s := { collecting with
    buffers := collecting.buffers.set s.buffers.length
      (arrivals.foldl RoundBuffer.pushed (.new s.round quorum)) })
    rfl (List.getElem?_set_self hlt) (.inr rfl)
  refine ⟨_,(hopen.trans hpush).tail hflush,rfl,rfl,?_⟩
  simp only [RoundBuffer.closeAndTake, RoundBuffer.new, RoundBuffer.foldl_pushed,
    RoundBuffer.deltas, List.nil_append]

/-- An attempt of the server that prepares a batch is a run of this machine, which comes by the
flushed batch with the weights the attempt loaded. -/
theorem prepareBatch_reaches {i : ι} {p : Prepared} (h : prepareBatch d env srv = .ok p srv')
    (hs : Between srv s) (hi : s.submits i = .idle) {arrivals : List Trained}
    (harrivals : arrivals.map Trained.submission = env.arrivals)
    (htrained : ∀ x ∈ arrivals, s.TrainedOnHanded x) :
    ∃ t batch, Reaches s t ∧ t.round = srv.round ∧ t.store = srv.store ∧
      t.phase = .closing srv.round p.opened.weights batch ∧
      batch.map Trained.submission = env.flushed srv.round := by
  have hload : s.store.loadLatestWeights = .ok p.opened.weights := by
    rw [hs.store]
    exact (prepareBatch_ok h).loaded
  obtain ⟨t,hreach,hround,hstore,hphase⟩ := reaches_closing p.opened.quorum arrivals none hs.idle
    hi hload htrained
  rw [hs.round] at hround hphase
  refine ⟨t,_,hreach,hround,hstore.trans hs.store,hphase,?_⟩
  rw [RoundEnv.flushed, ← harrivals, List.filter_map]
  rfl

/-- Every attempt whose store and log operations all succeed is a run of this machine from
before the attempt to after it. -/
theorem runRound_reaches {i : ι} (hsave : env.save = .ok)
    (hrows : ∀ n, env.rowsStop n = none) (hs : Between srv s) (hi : s.submits i = .idle)
    {arrivals : List Trained} (harrivals : arrivals.map Trained.submission = env.arrivals)
    (htrained : ∀ x ∈ arrivals, s.TrainedOnHanded x) :
    ∃ t, Reaches s t ∧ Between (stateOf (runRound d env srv)) t := by
  have hattempt := runRound_attempt d env srv
  revert hattempt
  generalize runRound d env srv = result
  intro hattempt
  have hkept {t t' : Server κ} (hcore : t.core = srv.core) (hround : t'.round = t.round)
      (hstore : t'.store = t.store) : ∃ t₁, Reaches s t₁ ∧ Between t' t₁ := by
    refine ⟨s,.refl,hs.idle,?_,?_⟩
    · exact hs.round.trans (hround.trans (congrArg Core.round hcore)).symm
    · exact hs.store.trans (hstore.trans (congrArg Core.store hcore)).symm
  cases hattempt with
  | stopped core => exact hkept core rfl rfl
  | refused ready answer => exact hkept (keeps_prepareBatch.ok ready) rfl rfl
  | unsaved ready answer save => simp [hsave, WriteOutcome.stop] at save
  | @unrecorded p srv₁ t weights stop ready answer save rows =>
    by_cases hp : d.persistentAccounting = true
    · have hstop : stopOf (appendRows d env (p.cost d) p.admitted (committed d srv₁ p weights)) =
          env.rowsStop p.admitted.length := appendRows_stop hp
      simp [rows, stopOf, hrows] at hstop
    · simp [appendRows, hp] at rows
  | @completed p srv₁ t weights ready answer save rows =>
    obtain ⟨z,batch,hreach,hround,hstore,hphase,_⟩ :=
      prepareBatch_reaches ready hs hi harrivals htrained
    obtain ⟨hstore',_⟩ := checkpointed_durable ready (keeps_appendRows.ok rows)
    have hadvance := Step.advances (s := { z with
      store := z.store.saveCheckpoint srv.round weights, phase := .saved srv.round }) rfl
    have hclear := Step.clears (s := { z with
      store := z.store.saveCheckpoint srv.round weights
      round := srv.round+1, phase := .advanced }) rfl
    refine ⟨_,((hreach.tail (.saves hphase weights)).tail hadvance).tail hclear,rfl,?_,?_⟩
    · change srv.round+1 = p.opened.round+1
      rw [(prepareBatch_ok ready).round]
    · change z.store.saveCheckpoint srv.round weights = t.store
      rw [hstore', hstore]

/-- A store with one model of one weight. -/
def oneWeight : AnyStore := .inMemory (.new [F32.one])

/-- A submission trained on the first task. -/
def trainedOnFirst : Trained := ⟨.plain "a" 1 [F32.zero] 10,some (taskOf 1 [F32.one] none)⟩

/-- A client fetches the first task, trains on it and makes it into the first round. -/
theorem coherent_firstRound : ∃ s : Serving Unit, Reaches (start oneWeight) s ∧
    s.phase = .closing 1 [F32.one] [trainedOnFirst] ∧ Coherent s := by
  have hfetch : Reaches (start oneWeight) { (start oneWeight : Serving Unit) with
      handed := [taskOf 1 [F32.one] none] } := reaches_fetch (i := ()) none rfl rfl
  obtain ⟨s,hclose,_,_,hphase⟩ := reaches_closing (s := { (start oneWeight : Serving Unit) with
      handed := [taskOf 1 [F32.one] none] }) (i := ()) 1 [trainedOnFirst] none rfl rfl rfl (by
        intro x hx task htask
        rw [List.mem_singleton.mp hx] at htask
        cases htask
        exact List.mem_singleton_self _)
  have hreach := hfetch.trans hclose
  exact ⟨s,hreach,hphase,coherent_of_reaches oneWeight s hreach⟩

end Attempts
end ConfluxFL.Serving
