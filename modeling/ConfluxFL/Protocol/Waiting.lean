import ConfluxFL.Protocol.System

/-! Who waits for whom. A client that was told its submission was taken polls until the round
number changes; the loop may throw the batch away and open the same round again. -/
namespace ConfluxFL
variable {ι δ : Type}

/-- What the loop can do by itself: nothing, open, stop, flush, complete, or retry. -/
theorem RoundLoop.move_cases (l : RoundLoop δ) (m : LoopMove) :
    l.move m = l ∨
      (l.phase = .idle ∧ ∃ quorum, l.move m = ⟨l.round,some (.new l.round quorum),.collecting⟩) ∨
      l.move m = { l with phase := .stopped } ∨
      (l.phase = .collecting ∧ ∃ b, l.buffer = some b ∧
        l.move m = ⟨l.round,some b.close,.closing b.deltas⟩) ∨
      ∃ batch, l.phase = .closing batch ∧
        (l.move m = ⟨l.round+1,none,.idle⟩ ∨
          m = .finish .transient ∧ l.move m = { l with phase := .idle }) := by
  obtain ⟨round,buffer,phase⟩ := l
  cases m with
  | opens quorum =>
    cases phase with
    | idle => exact .inr (.inl ⟨rfl,quorum,rfl⟩)
    | _ => exact .inl rfl
  | failsToOpen ending =>
    cases phase with
    | idle =>
      cases ending with
      | fatal => exact .inr (.inr (.inl rfl))
      | _ => exact .inl rfl
    | _ => exact .inl rfl
  | flush timedOut =>
    rcases flush_cases ⟨round,buffer,phase⟩ timedOut with heq | hflush
    · exact .inl heq
    · exact .inr (.inr (.inr (.inl hflush)))
  | dies => exact .inr (.inr (.inl rfl))
  | finish ending =>
    cases phase with
    | closing batch =>
      cases ending with
      | completed => exact .inr (.inr (.inr (.inr ⟨batch,rfl,.inl rfl⟩)))
      | transient => exact .inr (.inr (.inr (.inr ⟨batch,rfl,.inr ⟨rfl,rfl⟩⟩)))
      | fatal => exact .inr (.inr (.inl rfl))
    | _ => exact .inl rfl

theorem RoundLoop.round_le_move (l : RoundLoop δ) (m : LoopMove) :
    l.round ≤ (l.move m).round := by
  rcases l.move_cases m with heq | ⟨_,_,heq⟩ | heq | ⟨_,_,_,heq⟩ | ⟨_,_,heq | ⟨_,heq⟩⟩
  all_goals simp [heq]

/-- What an attempt has taken is thrown away, goes into the next round's model, or stays; unless
the loop stops. -/
theorem RoundLoop.move_carries (l : RoundLoop δ) (m : LoopMove) :
    (l.move m).phase = .stopped ∨ l.phase ≠ .stopped ∧ ∀ x ∈ l.attempt, x ∈ l.thrownAway m ∨
      l.round < (l.move m).round ∨ (l.move m).round = l.round ∧ x ∈ (l.move m).attempt := by
  rcases l.move_cases m with heq | ⟨hphase,quorum,heq⟩ | heq | ⟨hphase,b,hb,heq⟩ |
    ⟨batch,hphase,heq | ⟨rfl,heq⟩⟩
  · rw [heq]
    by_cases hstopped : l.phase = .stopped
    · exact .inl hstopped
    · exact .inr ⟨hstopped,fun x hx => .inr (.inr ⟨rfl,hx⟩)⟩
  · refine .inr ⟨by simp [hphase],fun x hx => ?_⟩
    rw [attempt, hphase] at hx
    cases hx
  · rw [heq]
    exact .inl rfl
  · refine .inr ⟨by simp [hphase],fun x hx => .inr (.inr ?_)⟩
    rw [attempt, hphase, hb] at hx
    rw [heq]
    exact ⟨rfl,hx⟩
  · rw [heq]
    exact .inr ⟨by simp [hphase],fun x hx => .inr (.inl (Nat.lt_succ_self _))⟩
  · refine .inr ⟨by simp [hphase],fun x hx => .inl ?_⟩
    rw [attempt, hphase] at hx
    simp only [thrownAway, hphase]
    exact hx

/-- The buffer is open while the loop collects, for the loop's round, and only then. -/
structure Shaped (l : RoundLoop (Copy ι)) : Prop where
  collecting : l.phase = .collecting → ∃ b ds, l.buffer = some b ∧ b.round = l.round ∧
    b.state = .opened ds
  closed : l.phase ≠ .collecting → l.phase ≠ .stopped → ∀ b, l.buffer = some b →
    b.state = .closed
  rounds : ∀ x ∈ l.attempt, x.delta.round = l.round

theorem Shaped.move {l : RoundLoop (Copy ι)} (h : Shaped l) (m : LoopMove) : Shaped (l.move m) := by
  rcases l.move_cases m with heq | ⟨_,quorum,heq⟩ | heq | ⟨hphase,b,hb,heq⟩ |
    ⟨batch,hphase,heq | ⟨_,heq⟩⟩
  · rwa [heq]
  · rw [heq]
    exact ⟨fun _ => ⟨_,[],rfl,rfl,rfl⟩,fun hne => absurd rfl hne,
      fun x hx => absurd hx List.not_mem_nil⟩
  · rw [heq]
    refine ⟨?_,fun _ hne => absurd rfl hne,fun x hx => absurd hx List.not_mem_nil⟩
    intro hcollecting
    cases hcollecting
  · have hbatch : l.attempt = b.deltas := by rw [RoundLoop.attempt, hphase, hb]; rfl
    rw [heq]
    refine ⟨?_,?_,fun x hx => h.rounds x (hbatch ▸ hx)⟩
    · intro hcollecting
      cases hcollecting
    · intro _ _ b' hb'
      cases hb'
      rfl
  · rw [heq]
    refine ⟨?_,?_,fun x hx => absurd hx List.not_mem_nil⟩
    · intro hcollecting
      cases hcollecting
    · intro _ _ b' hb'
      cases hb'
  · have hclosed := h.closed (by rw [hphase]; simp) (by rw [hphase]; simp)
    rw [heq]
    refine ⟨?_,fun _ _ b hb => hclosed b hb,fun x hx => absurd hx List.not_mem_nil⟩
    intro hcollecting
    cases hcollecting

/-- A submission is taken by a loop that collects its round, or after the loop stopped. -/
theorem Shaped.push {l : RoundLoop (Copy ι)} (h : Shaped l) {x : Copy ι}
    {b b' : RoundBuffer (Copy ι)} (hb : l.buffer = some b) (hpush : b.push x = .ok b') :
    Shaped { l with buffer := some b' } ∧ (l.phase = .stopped ∨
      x.delta.round = l.round ∧
        RoundLoop.attempt { l with buffer := some b' } = l.attempt++[x]) := by
  obtain ⟨round,buffer,phase⟩ := l
  obtain rfl : buffer = some b := hb
  obtain ⟨hround,ds,hstate,rfl⟩ := RoundBuffer.push_ok_iff.mp hpush
  have hattempt := RoundLoop.attempt_push round phase hpush
  cases phase with
  | collecting =>
    obtain ⟨b₀,ds₀,hb₀,hr₀,_⟩ := h.collecting rfl
    obtain rfl : b = b₀ := Option.some.inj hb₀
    have hxr : x.delta.round = round := Eq.trans hround hr₀
    refine ⟨⟨fun _ => ⟨_,_,rfl,hr₀,rfl⟩,fun hne => absurd rfl hne,?_⟩,.inr ⟨hxr,hattempt⟩⟩
    intro y hy
    rw [hattempt] at hy
    rcases List.mem_append.mp hy with hy | hy
    · exact h.rounds y hy
    · rw [List.mem_singleton.mp hy]
      exact hxr
  | idle =>
    have hclosed := h.closed (by simp) (by simp) b rfl
    rw [hstate] at hclosed
    cases hclosed
  | closing batch =>
    have hclosed := h.closed (by simp) (by simp) b rfl
    rw [hstate] at hclosed
    cases hclosed
  | stopped =>
    refine ⟨⟨nofun,fun _ hne => absurd rfl hne,?_⟩,.inl rfl⟩
    exact fun x hx => absurd hx List.not_mem_nil

namespace System

/-- The acceptance the run a client waits for has passed on. -/
def acceptance (s : System ι) (i : ι) : Option (Copy ι) :=
  match (s.parties i).pending with
  | some c =>
    match s.net.calls[c]? with
    | some call =>
      match call.status with
      | .answered acceptance => acceptance
      | _ => none
    | none => none
  | none => none

/-- A client that waits past the round the server collects has its submission in the open buffer,
and the two sides never all wait for each other. -/
structure NotStuck (s : System ι) : Prop where
  recorded : ∀ i b ds, s.loop.phase = .collecting → s.loop.buffer = some b →
    b.state = .opened ds → (s.client i).lastRound = some b.round →
    ∃ x ∈ ds, x.owner = i ∧ x.delta.round = b.round
  someoneWorks : Nonempty ι → ∀ b, s.loop.phase = .collecting → s.loop.buffer = some b →
    b.state = .opened [] →
    ¬ ∀ i, (s.client i).phase = .polling ∧ (s.client i).lastRound = some b.round

/-- A retried round throws away no submission whose client was told it was taken, or is told so
while the round stands. -/
def Honoured (s : System ι) : SystemEvent ι → Prop
  | .server m => ∀ x ∈ s.loop.thrownAway m, (s.client x.owner).lastRound ≠ some s.loop.round
  | .returns i => ∀ x ∈ s.acceptance i, x.request.number ∈ s.discarded →
      x.delta.round < s.loop.round
  | _ => True

instance (s : System ι) : (e : SystemEvent ι) → Decidable (s.Honoured e)
  | .server m => inferInstanceAs (Decidable
      (∀ x ∈ s.loop.thrownAway m, (s.client x.owner).lastRound ≠ some s.loop.round))
  | .returns i => inferInstanceAs (Decidable
      (∀ x ∈ s.acceptance i, x.request.number ∈ s.discarded → x.delta.round < s.loop.round))
  | .serveFetch _ => .isTrue trivial
  | .receiveFetch _ _ => .isTrue trivial
  | .fetchFails _ => .isTrue trivial
  | .submit _ _ => .isTrue trivial
  | .submitFails _ => .isTrue trivial
  | .attempt _ => .isTrue trivial
  | .deliver _ => .isTrue trivial
  | .answer _ => .isTrue trivial
  | .attemptFails _ => .isTrue trivial

/-- What the server took, what it threw away, and what each client believes of it. -/
structure Waiting (s : System ι) : Prop where
  shaped : Shaped s.loop
  accepted : ∀ x ∈ s.net.accepted, s.loop.phase = .stopped ∨ x.request.number ∈ s.discarded ∨
    x.delta.round < s.loop.round ∨ x ∈ s.loop.attempt
  recorded : ∀ i r, (s.client i).lastRound = some r → s.loop.phase = .stopped ∨
    r < s.loop.round ∨ r = s.loop.round ∧ ∃ x ∈ s.loop.attempt, x.owner = i
  offered : ∀ i o, (s.client i).phase.offer = some o → o.1 ≤ s.loop.round
  fetched : ∀ i f, (s.parties i).fetched = some f →
    f ≤ s.loop.round ∧ ∀ o, (s.client i).phase.offer = some o → o.1 ≤ f

theorem Waiting.notStuck {s : System ι} (h : s.Waiting) : s.NotStuck := by
  have hrecorded : ∀ i b ds, s.loop.phase = .collecting → s.loop.buffer = some b →
      b.state = .opened ds → (s.client i).lastRound = some b.round →
      ∃ x ∈ ds, x.owner = i ∧ x.delta.round = b.round := by
    intro i b ds hphase hb hstate hlast
    obtain ⟨b',ds',hb',hround,_⟩ := h.shaped.collecting hphase
    obtain rfl : b' = b := Option.some.inj (hb'.symm.trans hb)
    have hattempt : s.loop.attempt = ds := by
      rw [RoundLoop.attempt, hphase, hb]
      simp [RoundBuffer.deltas, hstate]
    rcases h.recorded i b'.round hlast with hstopped | hlt | ⟨_,x,hx,howner⟩
    · rw [hphase] at hstopped
      cases hstopped
    · omega
    · exact ⟨x,hattempt ▸ hx,howner,(h.shaped.rounds x hx).trans hround.symm⟩
  refine ⟨hrecorded,?_⟩
  rintro ⟨i⟩ b hphase hb hstate hall
  obtain ⟨x,hx,_⟩ := hrecorded i b [] hphase hb hstate (hall i).2
  cases hx

theorem waiting_start (fleet : Fleet ι) : (start fleet).Waiting := by
  refine ⟨⟨nofun,fun _ _ b hb => (nomatch hb),fun x hx => absurd hx List.not_mem_nil⟩,
    fun x hx => absurd hx List.not_mem_nil,fun i r hr => (nomatch hr),?_,fun i f hf => (nomatch hf)⟩
  intro i o ho
  have hnone : ((start fleet).client i).phase.offer = none := ClientState.offer_loopHead _
  rw [hnone] at ho
  cases ho

section Step
variable {s : System ι}

theorem Waiting.serve (h : s.Waiting) {m : LoopMove} (hm : s.Honoured (.server m)) :
    (s.serve m).Waiting := by
  have hround := s.loop.round_le_move m
  refine ⟨h.shaped.move m,?_,?_,?_,?_⟩
  · intro x hx
    rcases s.loop.move_carries m with hstopped | ⟨hrunning,hcarry⟩
    · exact .inl hstopped
    · right
      rcases h.accepted x hx with hs | hd | hlt | hmem
      · exact absurd hs hrunning
      · exact .inl (List.mem_append_left _ hd)
      · exact .inr (.inl (hlt.trans_le hround))
      · rcases hcarry x hmem with hthrown | hlt | ⟨_,hmem⟩
        · exact .inl (List.mem_append_right _ (List.mem_map.mpr ⟨x,hthrown,rfl⟩))
        · rw [h.shaped.rounds x hmem]
          exact .inr (.inl hlt)
        · exact .inr (.inr hmem)
  · intro i r hr
    rcases s.loop.move_carries m with hstopped | ⟨hrunning,hcarry⟩
    · exact .inl hstopped
    · right
      rcases h.recorded i r hr with hs | hlt | ⟨rfl,x,hmem,howner⟩
      · exact absurd hs hrunning
      · exact .inl (hlt.trans_le hround)
      · rcases hcarry x hmem with hthrown | hlt | ⟨hsame,hmem⟩
        · rw [← howner] at hr
          exact absurd hr (hm x hthrown)
        · exact .inl hlt
        · exact .inr ⟨hsame.symm,x,hmem,howner⟩
  · intro i o ho
    exact (h.offered i o ho).trans hround
  · intro i f hf
    exact ⟨(h.fetched i f hf).1.trans hround,(h.fetched i f hf).2⟩

/-- Steps of clients and bridges: one client may have changed. -/
theorem Waiting.setParty [DecidableEq ι] (h : s.Waiting) {i : ι} {p : Party} {n : Network ι}
    {abandoned : List ℕ} (hn : n.accepted = s.net.accepted)
    (hrecorded : ∀ r, p.state.lastRound = some r → s.loop.phase = .stopped ∨
      r < s.loop.round ∨ r = s.loop.round ∧ ∃ x ∈ s.loop.attempt, x.owner = i)
    (hoffered : ∀ o, p.state.phase.offer = some o → o.1 ≤ s.loop.round)
    (hfetched : ∀ f, p.fetched = some f →
      f ≤ s.loop.round ∧ ∀ o, p.state.phase.offer = some o → o.1 ≤ f) :
    Waiting { s with parties := Function.update s.parties i p, net := n, abandoned := abandoned } := by
  refine ⟨h.shaped,by rw [hn]; exact h.accepted,?_,?_,?_⟩
  · intro i' r hr
    by_cases hi : i' = i
    · subst hi
      simp only [client, Function.update_self] at hr
      exact hrecorded r hr
    · simp only [client, Function.update_of_ne hi] at hr
      exact h.recorded i' r hr
  · intro i' o ho
    by_cases hi : i' = i
    · subst hi
      simp only [client, Function.update_self] at ho
      exact hoffered o ho
    · simp only [client, Function.update_of_ne hi] at ho
      exact h.offered i' o ho
  · intro i' f hf
    by_cases hi : i' = i
    · subst hi
      simp only [client, Function.update_self] at hf ⊢
      exact hfetched f hf
    · simp only [client, Function.update_of_ne hi] at hf ⊢
      exact h.fetched i' f hf

theorem Waiting.deliver (h : s.Waiting) (number : ℕ) : (s.deliver number).Waiting := by
  rcases s.net.deliver_cases number s.loop.buffer with heq | ⟨q,_,heq | ⟨x,b,b',_,hb,hpush,heq⟩⟩
  · have hs : s.deliver number = s := by rw [System.deliver, heq]
    rwa [hs]
  · have hs : s.deliver number = { s with net := s.net.refused q } := by rw [System.deliver, heq]
    rw [hs]
    exact ⟨h.shaped,h.accepted,h.recorded,h.offered,h.fetched⟩
  · have hs : s.deliver number =
        { s with net := s.net.taken q x, loop := { s.loop with buffer := some b' } } := by
      rw [System.deliver, heq]
    rw [hs]
    obtain ⟨hshaped,hstopped | ⟨hround,hattempt⟩⟩ := h.shaped.push hb hpush
    · exact ⟨hshaped,fun _ _ => .inl hstopped,fun _ _ _ => .inl hstopped,h.offered,h.fetched⟩
    · refine ⟨hshaped,?_,?_,h.offered,h.fetched⟩
      · intro y hy
        rw [hattempt]
        rcases List.mem_append.mp hy with hy | hy
        · rcases h.accepted y hy with hs | hd | hlt | hmem
          · exact .inl hs
          · exact .inr (.inl hd)
          · exact .inr (.inr (.inl hlt))
          · exact .inr (.inr (.inr (List.mem_append_left _ hmem)))
        · exact .inr (.inr (.inr (List.mem_append_right _ hy)))
      · intro i r hr
        rw [hattempt]
        rcases h.recorded i r hr with hs | hlt | ⟨heq,y,hmem,howner⟩
        · exact .inl hs
        · exact .inr (.inl hlt)
        · exact .inr (.inr ⟨heq,y,List.mem_append_left _ hmem,howner⟩)

variable [DecidableEq ι] {fleet : Fleet ι}

theorem Waiting.receiveFetch (h : s.Waiting) (i : ι) (trained : Option TrainResult) :
    (s.receiveFetch fleet i trained).Waiting := by
  unfold System.receiveFetch
  split
  · rename_i f hf
    obtain ⟨hle,hoffer⟩ := h.fetched i f hf
    have hrecorded := h.recorded i
    have hoffered := h.offered i
    refine h.setParty rfl ?_ ?_ nofun
    · intro r
      dsimp only
      unfold ClientState.onTask
      split
      · split
        · exact hrecorded r
        · cases trained with
          | none => exact hrecorded r
          | some result => exact hrecorded r
      · rename_i round' chunks hphase
        split
        · rename_i hne
          -- the round has moved on past the one the client was refused for
          intro hr
          have hlt : round' ≤ f := hoffer (round',chunks) (by rw [hphase]; rfl)
          cases hr
          exact .inr (.inl (by omega))
        · exact hrecorded r
      · exact hrecorded r
    · intro o
      dsimp only
      unfold ClientState.onTask
      split
      · split
        · exact hoffered o
        · cases trained with
          | none => exact nofun
          | some result =>
            intro ho
            cases ho
            exact hle
      · rename_i round' chunks hphase
        split
        · intro ho
          dsimp only at ho
          rw [ClientState.offer_loopHead] at ho
          cases ho
        · intro ho
          exact hoffered o (by rw [hphase]; exact ho)
      · exact hoffered o
  · exact h

/-- A client learns that its submission was refused, or was taken by an attempt that did not
throw it away while its round stood. -/
theorem Waiting.returned (h : s.Waiting) (hsound : s.Sound fleet) {i : ι} {c : ℕ}
    {abandoned : List ℕ} (accepted : Bool) (hpending : (s.parties i).pending = some c)
    (hx : accepted = true → ∃ x, x ∈ s.net.accepted ∧ x.request.call = c ∧
      (x.request.number ∈ s.discarded → x.delta.round < s.loop.round)) :
    Waiting { s with
      parties := Function.update s.parties i { s.parties i with
        state := (s.client i).onSubmit (fleet.config i) accepted
        pending := none }
      abandoned := abandoned } := by
  obtain ⟨⟨round,raw,hphase⟩,j,hj,howner,htrain⟩ := hsound.offered.pending i c hpending
  have hoffer : (s.client i).phase.offer = some (round,raw) := by rw [client, hphase]; rfl
  have hraw : raw = j.raw := by
    subst howner
    exact hsound.offered.inHand j (List.mem_of_getElem? hj) htrain (round,raw) hoffer
  have hfor : ForRound round raw := hsound.offered.forRound i (round,raw) hoffer
  have hcont : (s.client i).Continues ((s.client i).onSubmit (fleet.config i) accepted) :=
    ClientState.continues_onSubmit accepted
  have hkeep (o : ℕ × List DeltaChunk)
      (ho : ((s.client i).onSubmit (fleet.config i) accepted).phase.offer = some o) :
      (s.client i).phase.offer = some o := hcont.offer_eq_some ho
  refine h.setParty rfl ?_ ?_ ?_
  · intro r hr
    simp only [ClientState.onSubmit, client, hphase] at hr
    cases accepted with
    | false => exact h.recorded i r hr
    | true =>
      obtain ⟨x,hmem,hcall,hdiscarded⟩ := hx rfl
      obtain ⟨hjob,hdelta⟩ := hsound.traced.received x (hsound.traced.accepted hmem)
      rw [hcall, hj] at hjob
      have hxj : x.request.job = j := (Option.some.inj hjob).symm
      have hxround : x.delta.round = round := by
        rw [hxj] at hdelta
        apply round_of_reassemble hdelta
        rcases hsound.offered.made j (List.mem_of_getElem? hj) with hnil | ⟨noise,hmade⟩
        · rw [hnil]
          exact fun c hc => absurd hc List.not_mem_nil
        · rw [← hraw] at hmade
          exact applyLocalPrivacy_round hfor hmade
      obtain rfl : round = r := Option.some.inj hr
      rcases h.accepted x hmem with hs | hd | hlt | hattempt
      · exact .inl hs
      · exact .inr (.inl (hxround ▸ hdiscarded hd))
      · exact .inr (.inl (hxround ▸ hlt))
      · refine .inr (.inr ⟨hxround ▸ h.shaped.rounds x hattempt,x,hattempt,?_⟩)
        rw [Copy.owner, hxj, howner]
  · intro o ho
    exact h.offered i o (hkeep o ho)
  · intro f hf
    exact ⟨(h.fetched i f hf).1,fun o ho => (h.fetched i f hf).2 o (hkeep o ho)⟩

theorem Waiting.step (h : s.Waiting) (hsound : s.Sound fleet) {e : SystemEvent ι}
    (he : s.Honoured e) : (s.step fleet e).Waiting := by
  cases e with
  | server m => exact h.serve he
  | serveFetch i =>
    have hfetch : (s.setParty i { s.parties i with fetched := some s.loop.round }).Waiting := by
      refine h.setParty rfl (h.recorded i) (h.offered i) ?_
      intro f hf
      cases hf
      exact ⟨le_rfl,h.offered i⟩
    rw [System.step]
    rcases s.serveFetch_cases i with heq | heq <;> rw [heq]
    · exact hfetch
    · exact h
  | receiveFetch i trained => exact h.receiveFetch i trained
  | fetchFails i =>
    have hlast : (s.client i).onFetchError.lastRound = (s.client i).lastRound := by
      unfold ClientState.onFetchError
      split <;> rfl
    refine h.setParty rfl ?_ ?_ ?_
    · intro r hr
      rw [hlast] at hr
      exact h.recorded i r hr
    · intro o ho
      exact h.offered i o (ClientState.continues_onFetchError.offer_eq_some ho)
    · intro f hf
      cases hf
  | submit i noise =>
    simp only [System.step, System.submit]
    split
    · exact h.setParty rfl (h.recorded i) (h.offered i) (h.fetched i)
    · exact h
  | submitFails i =>
    simp only [System.step, System.submitFails]
    split
    · rename_i c hpending
      apply h.returned hsound false hpending
      intro hfalse
      cases hfalse
    · exact h
  | attempt c =>
    exact ⟨h.shaped,by simpa only [System.step, Network.accepted_attempt] using h.accepted,
      h.recorded,h.offered,h.fetched⟩
  | deliver number => exact h.deliver number
  | answer number =>
    exact ⟨h.shaped,by simpa only [System.step, Network.accepted_answer] using h.accepted,
      h.recorded,h.offered,h.fetched⟩
  | attemptFails c =>
    exact ⟨h.shaped,by simpa only [System.step, Network.accepted_attemptFails] using h.accepted,
      h.recorded,h.offered,h.fetched⟩
  | returns i =>
    rw [System.step]
    rcases s.returns_cases fleet i with heq | ⟨c,call,acceptance,hpending,hcall,hstatus,heq⟩ <;>
      rw [heq]
    · exact h
    · apply h.returned hsound acceptance.isSome hpending
      intro hsome
      obtain ⟨x,rfl⟩ := Option.isSome_iff_exists.mp hsome
      obtain ⟨hmem,hxcall⟩ := hsound.traced.answered c call x hcall hstatus
      refine ⟨x,hmem,hxcall,he x ?_⟩
      simp only [System.acceptance, hpending, hcall, hstatus, Option.mem_def]

end Step

/-- In every run in which a retried round throws away no submission that was acknowledged, no
round is stuck at any point. -/
theorem notStuck_of_honoured [DecidableEq ι] (fleet : Fleet ι) (events : List (SystemEvent ι))
    (h : Run.Always (step fleet) Honoured (start fleet) events) (pre : List (SystemEvent ι))
    (hpre : pre <+: events) : (run fleet pre).NotStuck := by
  obtain ⟨post,rfl⟩ := hpre
  have hinv := Run.after_of_invariant (fun s => s.Sound fleet ∧ s.Waiting)
    ⟨sound_start fleet,waiting_start fleet⟩ (Run.always_append.mp h).1
    fun s e hs he => ⟨hs.1.step e,hs.2.step hs.1 he⟩
  exact hinv.2.notStuck

/-- One client trains, submits, and is told that its submission was taken. -/
def acknowledged : List (SystemEvent Unit) :=
  [.serveFetch (),.receiveFetch () (some ⟨[F32.one],1,none,none,none⟩),.submit () fun _ => F32.zero,
    .attempt 0,.deliver 0,.answer 0,.returns ()]

/-- A first attempt closes and fails with nothing in it. -/
def afterEmptyAttempt : List (SystemEvent Unit) :=
  [.server (.opens 0),.server (.flush false),.server (.finish .transient),.server (.opens 2)]++
    acknowledged

theorem notStuck_afterEmptyAttempt :
    Run.Always (step (.single none)) Honoured (start (.single none)) afterEmptyAttempt ∧
      (run (.single none) afterEmptyAttempt).NotStuck := by
  have hrun : Run.Always (step (.single none)) Honoured (start (.single none))
      afterEmptyAttempt := by
    decide +kernel
  exact ⟨hrun,notStuck_of_honoured _ _ hrun _ (List.prefix_refl _)⟩

/-- The acknowledged batch is thrown away and the same round opens again. -/
def afterRetry : List (SystemEvent Unit) :=
  .server (.opens 1)::(acknowledged++
    [.server (.flush false),.server (.finish .transient),.server (.opens 1)])

theorem not_notStuck_afterRetry : ¬ (run (.single none) afterRetry).NotStuck := by
  intro h
  have hphase : (run (.single none) afterRetry).loop.phase = .collecting := by decide +kernel
  have hbuffer : (run (.single none) afterRetry).loop.buffer = some ⟨1,1,.opened []⟩ := by
    decide +kernel
  have hclient : ((run (.single none) afterRetry).client ()).phase = .polling ∧
      ((run (.single none) afterRetry).client ()).lastRound = some 1 := by
    decide +kernel
  exact h.someoneWorks ⟨()⟩ _ hphase hbuffer rfl fun _ => hclient

end System
end ConfluxFL
