import ConfluxFL.Clients.Session

/-! When the two SDKs run alike. Before a difference the sessions are the same, but for a round
that Python has given up and Rust is about to ask for; what either has done is never undone. -/
namespace ConfluxFL

theorem chunkStep_eq (chunkBytes : ℕ) : max 4 (chunkBytes/4*4) = chunkStep chunkBytes := by
  unfold chunkStep
  omega

theorem pythonCount_eq (chunkBytes len : ℕ) :
    max 1 ((len+chunkStep chunkBytes-1)/chunkStep chunkBytes) = chunkCount chunkBytes len :=
  max_comm ..

section Chunks
variable {clientId : String} {round : ℕ} {result : TrainResult} {chunkBytes : ℕ}

theorem pythonChunkAt_eq (hv : result.controlVariate ≠ some [])
    (hcount : chunkCount chunkBytes (encodeWeights result.weights).length < 2^32) {index : ℕ}
    (hi : index < chunkCount chunkBytes (encodeWeights result.weights).length) :
    pythonChunkAt clientId round result chunkBytes index =
      chunkAt clientId round result chunkBytes index := by
  have hfilter : (result.controlVariate.filter fun v => v ≠ []) = result.controlVariate := by
    cases h : result.controlVariate with
    | none => rfl
    | some v =>
      have hne : v ≠ [] := fun hnil => hv (by rw [h, hnil])
      simp [Option.filter, hne]
  simp only [pythonChunkAt, chunkAt, chunkStep_eq, pythonCount_eq, hfilter,
    Nat.mod_eq_of_lt hcount, Nat.mod_eq_of_lt (hi.trans hcount)]

/-- The two SDKs cut a result alike when the count of its chunks fits its field and its control
variate is not empty. -/
theorem pythonChunks_eq_iff : pythonChunks clientId round result chunkBytes =
      some (buildChunks clientId round result chunkBytes) ↔
    chunkCount chunkBytes (encodeWeights result.weights).length < 2^32 ∧
      result.controlVariate ≠ some [] := by
  have hpos : 0 < chunkCount chunkBytes (encodeWeights result.weights).length :=
    lt_max_of_lt_right one_pos
  simp only [pythonChunks, buildChunks, chunkStep_eq, pythonCount_eq]
  split_ifs with hcount
  · rw [Option.some_inj, List.map_inj_left, and_iff_right hcount]
    constructor
    · intro heq hv
      have hfirst := congrArg DeltaChunk.controlVariate (heq 0 (List.mem_range.mpr hpos))
      simp only [pythonChunkAt, chunkAt, hv] at hfirst
      cases hfirst
    · exact fun hv index hi => pythonChunkAt_eq hv hcount (List.mem_range.mp hi)
  · exact iff_of_false (by simp) fun h => hcount h.1

/-- The count of the chunks fits its field as long as the weights fit as many chunks. -/
theorem chunkCount_lt_iff (chunkBytes len : ℕ) : chunkCount chunkBytes (4*len) < 2^32 ↔
    len ≤ (2^32-1)*(max chunkBytes 4/4) := by
  have hpos := chunkStep_pos chunkBytes
  have hstep : chunkStep chunkBytes = max chunkBytes 4/4*4 := rfl
  have hceil : (4*len+chunkStep chunkBytes-1)/chunkStep chunkBytes < 2^32 ↔
      4*len+chunkStep chunkBytes-1 < 2^32*chunkStep chunkBytes := Nat.div_lt_iff_lt_mul hpos
  rw [chunkCount, max_lt_iff, hceil]
  omega

/-- Of a result that both can build, with weights, the two SDKs make the same chunks exactly when
its weights fit as many chunks as the count can name. -/
theorem pythonChunks_eq_iff_of_buildable (h : result.Buildable) (hne : result.weights ≠ []) :
    pythonChunks clientId round result chunkBytes =
        some (buildChunks clientId round result chunkBytes) ↔
      result.weights.length ≤ (2^32-1)*(max chunkBytes 4/4) := by
  have hvariate : result.controlVariate ≠ some [] := by
    intro hv
    have hlength := h.controlVariate [] hv
    exact hne (List.length_eq_zero_iff.mp hlength.symm)
  rw [pythonChunks_eq_iff, and_iff_left hvariate, length_encodeWeights, chunkCount_lt_iff]

/-- Three weights and their variate in chunks of one weight and a half: Python and Rust cut them
into three chunks each. -/
theorem pythonChunks_eq_iff_of_buildable_three : pythonChunks "c1" 4
      ⟨[F32.one,F32.zero,F32.one],7,some 3,none,some [F32.zero,F32.one,F32.zero]⟩ 6 =
        some (buildChunks "c1" 4
          ⟨[F32.one,F32.zero,F32.one],7,some 3,none,some [F32.zero,F32.one,F32.zero]⟩ 6) ↔
      3 ≤ (2^32-1)*(max 6 4/4) :=
  pythonChunks_eq_iff_of_buildable ⟨by decide,by decide,by rintro v ⟨⟩; rfl⟩ (by decide)

/-- 2^32 weights in chunks of one weight each: the message of Python does not take the count, and
Rust announces none. -/
theorem pythonChunks_ne_wrapped : pythonChunks "c1" 1
      ⟨List.replicate (2^32) F32.zero,1,none,none,none⟩ 4 ≠
    some (buildChunks "c1" 1 ⟨List.replicate (2^32) F32.zero,1,none,none,none⟩ 4) := by
  intro heq
  have hlt := (pythonChunks_eq_iff.mp heq).1
  rw [length_encodeWeights, chunkCount_lt_iff, List.length_replicate] at hlt
  omega

end Chunks

namespace Session
variable {σ : Type} {app : ClientApp σ} {config : RunConfig} {s t p : Session σ}

/-- How a run ended, if it did. -/
def outcome (s : Session σ) : Option (Except ClientError ℕ) :=
  match s.phase with
  | .returned => some (.ok s.completed)
  | .failed e => some (.error e)
  | _ => none

/-- The two runs call the app and submit alike, end alike, and give no round up that the server
is still on. -/
structure ClientsAgree (p t : Session σ) : Prop where
  calls : p.calls = t.calls
  outcome : p.outcome = t.outcome
  writtenOff : ∀ w ∈ p.writtenOff++t.writtenOff, w.2 ≠ w.1

/-- The session is polling, and the task is one it trains on. -/
def Trains (app : ClientApp σ) (s : Session σ) (task : TaskResponse) (result : TrainResult) :
    Prop :=
  s.phase = .polling ∧ some task.round ≠ s.lastRound ∧ (s.trainOn app task).2 = .ok result

/-- The visit gives the SDKs no room to differ: where a result is refused the server moves on to
another round, and one that is taken is cut alike. -/
def Alike (app : ClientApp σ) (config : RunConfig) (s : Session σ) (v : RoundOpening × ℕ) : Prop :=
  ∀ result, s.Trains app v.1.task result →
    match v.1.answer with
    | none => v.2 ≠ v.1.task.round
    | some _ => chunkCount config.chunkBytes (encodeWeights result.weights).length < 2^32 ∧
        result.controlVariate ≠ some []

theorem writtenOff_trainOn (task : TaskResponse) :
    (s.trainOn app task).1.writtenOff = s.writtenOff := by
  unfold trainOn
  split
  · rfl
  · split
    · rfl
    · split <;> rfl

/-- Over one opening the two either do the same, or have the same result to submit. -/
theorem top_cases (h : s.NotRefused) (v : RoundOpening × ℕ) :
    ((∀ result, ¬s.Trains app v.1.task result) ∧
        s.pythonStep app config v = s.rustTop app config v.1 ∧
        (s.rustTop app config v.1).NotRefused ∧
        (s.rustTop app config v.1).writtenOff = s.writtenOff) ∨
      ∃ result, s.Trains app v.1.task result ∧
        s.pythonStep app config v = (s.trainOn app v.1.task).1.pythonOffer app config
          v.1.task.round v.2
          (pythonChunks config.clientId v.1.task.round result config.chunkBytes) v.1.answer ∧
        s.rustTop app config v.1 = (s.trainOn app v.1.task).1.rustOffer app config v.1.task.round
          (buildChunks config.clientId v.1.task.round result config.chunkBytes) v.1.answer := by
  unfold pythonStep rustTop Trains
  split
  · rename_i hphase
    split_ifs with hround
    · exact .inl ⟨fun _ hr => hr.2.1 hround,rfl,h,rfl⟩
    · have hw := @writtenOff_trainOn σ app s v.1.task
      cases hr : s.trainOn app v.1.task with
      | mk s' r =>
        rw [hr] at hw
        cases r with
        | error e =>
          exact .inl ⟨fun _ hr' => (by cases hr'.2.2),rfl,fun _ _ => SessionPhase.noConfusion,hw⟩
        | ok result => exact .inr ⟨result,⟨hphase,hround,rfl⟩,rfl,rfl⟩
  · rename_i hphase
    exact .inl ⟨fun _ hr => hphase hr.1,rfl,h,rfl⟩

/-- Python at an opening it has not come to, and Rust, which may still have a refused round to
ask about; Python has given that one up. -/
def Related (app : ClientApp σ) (config : RunConfig) (openings : List RoundOpening)
    (p t : Session σ) : Prop :=
  p.NotRefused ∧ p = t ∨ ∃ round chunks, t.phase = .refused round chunks ∧
    roundAfter round openings ≠ round ∧
    p = t.writeOff app config round (roundAfter round openings)

theorem Related.notRefused {openings : List RoundOpening} (h : Related app config openings p t) :
    p.NotRefused := by
  obtain ⟨h,-⟩ | ⟨round,chunks,-,-,rfl⟩ := h
  · exact h
  · exact notRefused_writeOff round _

theorem Related.eq_of_nil (h : Related app config [] p t) : p = t := by
  obtain ⟨-,h⟩ | ⟨round,chunks,-,hne,-⟩ := h
  · exact h
  · exact (hne rfl).elim

/-- Rust gives a round up where Python has done so, and goes on from there. -/
theorem Related.rustStep_eq {o : RoundOpening} {openings : List RoundOpening}
    (h : Related app config (o::openings) p t) (now : ℕ) :
    t.rustStep app config (o,now) = p.rustTop app config o := by
  obtain ⟨h,rfl⟩ | ⟨round,chunks,hphase,hne,rfl⟩ := h
  · unfold rustStep
    split
    · rename_i round chunks hphase
      exact (h round chunks hphase).elim
    · rfl
  · unfold rustStep
    rw [hphase]
    exact if_pos hne

/-- A visit that leaves no room keeps the sessions related. -/
theorem Related.step {o : RoundOpening} {openings : List RoundOpening}
    (h : Related app config (o::openings) p t)
    (hv : p.Alike app config (o,roundAfter o.task.round openings)) :
    Related app config openings (p.pythonStep app config (o,roundAfter o.task.round openings))
      (t.rustStep app config (o,roundAfter o.task.round openings)) := by
  rw [h.rustStep_eq]
  obtain ⟨-,heq,hnot,-⟩ | ⟨result,htrains,hpython,hrust⟩ :=
    @top_cases σ app config p h.notRefused (o,roundAfter o.task.round openings)
  · rw [heq]
    exact .inl ⟨hnot,rfl⟩
  · have halike := hv result htrains
    rw [hpython, hrust]
    cases ho : o.answer with
    | none =>
      rw [ho] at halike
      exact .inr ⟨o.task.round,_,rfl,halike,by cases pythonChunks .. <;> rfl⟩
    | some ack =>
      rw [ho] at halike
      rw [pythonChunks_eq_iff.mpr halike]
      exact .inl ⟨notRefused_take o.task.round _ ack,rfl⟩

/-- No round was given up that the server was still on. -/
def MovedOn (s : Session σ) : Prop := ∀ w ∈ s.writtenOff, w.2 ≠ w.1

/-- What a run has called and given up stays on record. -/
structure Grows (s t : Session σ) : Prop where
  calls : s.calls <+: t.calls
  writtenOff : s.writtenOff <+: t.writtenOff

theorem Grows.refl : s.Grows s := ⟨List.prefix_rfl,List.prefix_rfl⟩

theorem Grows.trans {u : Session σ} (h : s.Grows t) (h' : t.Grows u) : s.Grows u :=
  ⟨h.calls.trans h'.calls,h.writtenOff.trans h'.writtenOff⟩

theorem grows_call (c : ClientCall) (a : σ) : s.Grows (s.call c a) :=
  ⟨List.prefix_append ..,List.prefix_rfl⟩

theorem grows_phase (phase : SessionPhase) : s.Grows { s with phase := phase } :=
  ⟨List.prefix_rfl,List.prefix_rfl⟩

theorem grows_trainOn (task : TaskResponse) : s.Grows (s.trainOn app task).1 := by
  unfold trainOn
  split
  · exact .refl
  · have hstart : s.Grows (s.startRound app task.round) := grows_call ..
    split
    · exact hstart.trans (grows_call ..)
    · split
      · exact hstart
      · exact (hstart.trans (grows_call ..)).trans (grows_call ..)

theorem calls_take (round : ℕ) (chunks : List DeltaChunk) (ack : SubmitAck) :
    (s.take app config round chunks ack).calls =
      s.calls++[.submitted chunks ack]++[.roundEnd round ack.accepted] := rfl

theorem grows_take (round : ℕ) (chunks : List DeltaChunk) (ack : SubmitAck) :
    s.Grows (s.take app config round chunks ack) :=
  ⟨by rw [calls_take, List.append_assoc]; exact List.prefix_append ..,List.prefix_rfl⟩

theorem grows_writeOff (round now : ℕ) : s.Grows (s.writeOff app config round now) :=
  ⟨List.prefix_append ..,List.prefix_append ..⟩

theorem grows_rustOffer (round : ℕ) (chunks : List DeltaChunk) (answer : Option SubmitAck) :
    s.Grows (s.rustOffer app config round chunks answer) := by
  cases answer with
  | some ack => exact grows_take ..
  | none => exact grows_phase _

theorem grows_pythonOffer (round now : ℕ) (chunks : Option (List DeltaChunk))
    (answer : Option SubmitAck) : s.Grows (s.pythonOffer app config round now chunks answer) := by
  unfold pythonOffer
  split
  · exact grows_take ..
  · exact grows_writeOff ..

theorem grows_rustTop (o : RoundOpening) : s.Grows (s.rustTop app config o) := by
  unfold rustTop
  split
  · split_ifs
    · exact .refl
    · have h := @grows_trainOn σ app s o.task
      split
      · rename_i heq
        rw [heq] at h
        exact h.trans (grows_phase _)
      · rename_i heq
        rw [heq] at h
        exact h.trans (grows_rustOffer ..)
  · exact .refl

theorem grows_rustStep (v : RoundOpening × ℕ) : s.Grows (s.rustStep app config v) := by
  unfold rustStep
  split
  · split_ifs
    · exact (grows_writeOff ..).trans (grows_rustTop _)
    · exact grows_rustOffer ..
  · exact grows_rustTop _

theorem grows_pythonStep (v : RoundOpening × ℕ) : s.Grows (s.pythonStep app config v) := by
  unfold pythonStep
  split
  · split_ifs
    · exact .refl
    · have h := @grows_trainOn σ app s v.1.task
      split
      · rename_i heq
        rw [heq] at h
        exact h.trans (grows_phase _)
      · rename_i heq
        rw [heq] at h
        exact h.trans (grows_pythonOffer ..)
  · exact .refl

/-- The records show a difference. -/
def Differ (p t : Session σ) : Prop := (∃ w ∈ p.writtenOff, w.2 = w.1) ∨
  ∃ calls a b, a ≠ b ∧ calls++[a] <+: p.calls ∧ calls++[b] <+: t.calls

theorem Differ.grows {p' t' : Session σ} (h : Differ p t) (hp : p.Grows p') (ht : t.Grows t') :
    Differ p' t' := by
  obtain ⟨w,hw,heq⟩ | ⟨calls,a,b,hne,ha,hb⟩ := h
  · exact .inl ⟨w,hp.writtenOff.subset hw,heq⟩
  · exact .inr ⟨calls,a,b,hne,ha.trans hp.calls,hb.trans ht.calls⟩

/-- A difference on record is one for good. -/
theorem Differ.not_agree (h : Differ p t) : ¬ClientsAgree p t := by
  intro hagree
  obtain ⟨w,hw,heq⟩ | ⟨calls,a,b,hne,ha,hb⟩ := h
  · exact hagree.writtenOff w (List.mem_append_left _ hw) heq
  · rw [hagree.calls] at ha
    have hlen : (calls++[a]).length = (calls++[b]).length := by simp
    have heq := (List.prefix_of_prefix_length_le ha hb hlen.le).eq_of_length hlen
    exact hne (List.cons.inj (List.append_cancel_left heq)).1

theorem grows_after {step : Session σ → RoundOpening × ℕ → Session σ}
    (hstep : ∀ (s : Session σ) (v : RoundOpening × ℕ), s.Grows (step s v))
    (vs : List (RoundOpening × ℕ)) : s.Grows (Run.after step s vs) :=
  Run.after_of_kept (Grows s) .refl fun t v h => h.trans (hstep t v)

/-- A visit that leaves room makes a difference. -/
theorem differ_of_not_alike (h : p.NotRefused) {v : RoundOpening × ℕ} (hv : ¬p.Alike app config v) :
    Differ (p.pythonStep app config v) (p.rustTop app config v.1) := by
  obtain ⟨hnone,-,-⟩ | ⟨result,htrains,hpython,hrust⟩ := @top_cases σ app config p h v
  · exact (hv fun result hr => (hnone result hr).elim).elim
  · have hone : ∀ result', p.Trains app v.1.task result' → result' = result := fun result' h' =>
      Except.ok.inj (h'.2.2.symm.trans htrains.2.2)
    rw [hpython, hrust]
    cases ho : v.1.answer with
    | none =>
      have hnow : v.2 = v.1.task.round := by
        by_contra hne
        refine hv fun result' _ => ?_
        rw [ho]
        exact hne
      refine .inl ⟨(v.1.task.round,v.2),?_,hnow⟩
      cases pythonChunks .. <;> exact List.mem_append_right _ (List.mem_singleton.mpr rfl)
    | some ack =>
      have hcut : pythonChunks config.clientId v.1.task.round result config.chunkBytes ≠
          some (buildChunks config.clientId v.1.task.round result config.chunkBytes) := by
        intro heq
        refine hv fun result' h' => ?_
        rw [ho, hone result' h']
        exact pythonChunks_eq_iff.mp heq
      refine .inr ⟨(p.trainOn app v.1.task).1.calls,?_⟩
      cases hp : pythonChunks config.clientId v.1.task.round result config.chunkBytes with
      | none =>
        exact ⟨_,_,ClientCall.noConfusion,List.prefix_rfl,List.prefix_append ..⟩
      | some chunks =>
        refine ⟨_,_,fun heq => hcut ?_,List.prefix_append ..,List.prefix_append ..⟩
        rw [hp, (ClientCall.submitted.inj heq).1]

/-- A visit that leaves no room gives no round up too early. -/
theorem MovedOn.pythonStep (h : s.MovedOn) (hn : s.NotRefused) {v : RoundOpening × ℕ}
    (hv : s.Alike app config v) : (s.pythonStep app config v).MovedOn := by
  obtain ⟨-,heq,-,hw⟩ | ⟨result,htrains,hpython,-⟩ := @top_cases σ app config s hn v
  · rwa [MovedOn, heq, hw]
  · have hw : (s.trainOn app v.1.task).1.writtenOff = s.writtenOff := writtenOff_trainOn _
    have halike := hv result htrains
    rw [hpython]
    cases ho : v.1.answer with
    | none =>
      rw [ho] at halike
      have heq : ((s.trainOn app v.1.task).1.pythonOffer app config v.1.task.round v.2
          (pythonChunks config.clientId v.1.task.round result config.chunkBytes) none).writtenOff =
          s.writtenOff++[(v.1.task.round,v.2)] := by
        rw [← hw]
        cases pythonChunks .. <;> rfl
      intro w hmem
      rw [heq] at hmem
      rcases List.mem_append.mp hmem with hmem | hmem
      · exact h w hmem
      · rw [List.mem_singleton.mp hmem]
        exact halike
    | some ack =>
      rw [ho] at halike
      rw [pythonChunks_eq_iff.mpr halike]
      intro w hmem
      exact h w (hw ▸ hmem)

theorem Related.agree_iff {openings : List RoundOpening} (h : Related app config openings p t)
    (hp : p.MovedOn) :
    ClientsAgree (Run.after (pythonStep app config) p (visits openings))
        (Run.after (rustStep app config) t (visits openings)) ↔
      Run.Always (pythonStep app config) (Alike app config) p (visits openings) := by
  induction openings generalizing p t with
  | nil =>
    obtain rfl := h.eq_of_nil
    refine iff_of_true ⟨rfl,rfl,fun w hw => ?_⟩ trivial
    exact hp w ((List.mem_append.mp hw).elim id id)
  | cons o openings ih =>
    rw [visits, Run.after_cons, Run.after_cons, Run.Always]
    by_cases hv : p.Alike app config (o,roundAfter o.task.round openings)
    · rw [and_iff_right hv]
      exact ih (h.step hv) (hp.pythonStep h.notRefused hv)
    · refine iff_of_false (Differ.not_agree ?_) fun hall => hv hall.1
      rw [h.rustStep_eq]
      exact (differ_of_not_alike h.notRefused hv).grows (grows_after (fun _ => grows_pythonStep) _)
        (grows_after (fun _ => grows_rustStep) _)

/-- Over every course of the server, the two SDKs run one app alike exactly when every result
that is refused is followed by another round, and every result that is taken has a number of
chunks that fits its field and no empty control variate. -/
theorem clients_agree_iff (app : ClientApp σ) (config : RunConfig) (a : σ)
    (openings : List RoundOpening) :
    ClientsAgree (python app config a openings) (rust app config a openings) ↔
      Run.Always (pythonStep app config) (Alike app config) (start config a) (visits openings) :=
  Related.agree_iff (.inl ⟨notRefused_loopHead,rfl⟩) fun _ hw => (List.not_mem_nil hw).elim

end Session

/-- An app that hands back the weights it was given. -/
def echoApp : ClientApp Unit where
  onRoundStart _ _ := ()
  onControlVariate _ _ := ()
  train _ weights _ := ((),⟨weights,1,none,none,none⟩)
  onRoundEnd _ _ _ := ()
  buildable _ _ _ := ⟨Nat.one_lt_two_pow (by decide),nofun,nofun⟩

/-- Round 1 closes before the client submits, fails, and opens again. -/
def reopened : List RoundOpening :=
  [⟨⟨"task-1",1,encodeWeights [F32.one],none⟩,none⟩,
    ⟨⟨"task-1",1,encodeWeights [F32.one],none⟩,some ⟨true,""⟩⟩]

/-- Rust offers its result again and is done; Python waits for another round. -/
theorem Session.not_agree_reopened :
    (rust echoApp ⟨"client-0",1,2^20⟩ () reopened).outcome = some (.ok 1) ∧
      (python echoApp ⟨"client-0",1,2^20⟩ () reopened).outcome = none ∧
      (python echoApp ⟨"client-0",1,2^20⟩ () reopened).writtenOff = [(1,1)] ∧
      ¬ClientsAgree (python echoApp ⟨"client-0",1,2^20⟩ () reopened)
        (rust echoApp ⟨"client-0",1,2^20⟩ () reopened) := by
  have hrust : (rust echoApp ⟨"client-0",1,2^20⟩ () reopened).outcome = some (.ok 1) := by
    decide +kernel
  have hpython : (python echoApp ⟨"client-0",1,2^20⟩ () reopened).outcome = none := by
    decide +kernel
  refine ⟨hrust,hpython,by decide +kernel,fun h => ?_⟩
  have houtcome := h.outcome
  rw [hrust, hpython] at houtcome
  cases houtcome

end ConfluxFL
