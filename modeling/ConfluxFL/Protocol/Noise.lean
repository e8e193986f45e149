import ConfluxFL.Protocol.System

/-! One training result, one noised version. A bridge transforms once for all its attempts, so
the copies of one of its runs agree; a client that resubmits starts another run, which draws
again. -/
namespace ConfluxFL
variable {ι : Type}

/-- Noise was drawn in at most one run for each result. -/
def DrawnOnce (fleet : Fleet ι) (jobs : List (Job ι)) : Prop :=
  ∀ (c c' : ℕ) (j j' : Job ι), jobs[c]? = some j → jobs[c']? = some j' → j.owner = j'.owner →
    j.train = j'.train → drawsNoise (fleet.privacy j.owner) = true → c = c'

/-- All copies of a result that reached the server carry the same bytes, and noise was drawn
once for them. -/
structure OneVersion (fleet : Fleet ι) (s : System ι) : Prop where
  weights : ∀ x ∈ s.net.received, ∀ y ∈ s.net.received, x.owner = y.owner → x.train = y.train →
    x.delta.weights = y.delta.weights
  draws : DrawnOnce fleet s.net.jobs

/-- The client is about to hand over a result that a bridge has been handed before. -/
def System.Resubmits (s : System ι) (i : ι) : Prop :=
  (s.parties i).pending = none ∧ (∃ round raw, (s.client i).phase = .submitting round raw) ∧
    ∃ j ∈ s.net.jobs, j.owner = i ∧ j.train = (s.client i).trained

/-- No result is handed over again to a node that draws noise. -/
def NoisedOnce (fleet : Fleet ι) (s : System ι) : SystemEvent ι → Prop
  | .submit i _ => drawsNoise (fleet.privacy i) = true → ¬ s.Resubmits i
  | _ => True

section Draws
variable {fleet : Fleet ι} {s : System ι}

/-- Two runs for one result send the same chunks when nothing is drawn. -/
theorem chunks_eq_of_noiseless {j j' : Job ι} (h : Offered fleet s.parties s.net.jobs)
    (hj : j ∈ s.net.jobs) (hj' : j' ∈ s.net.jobs) (hne : j.chunks ≠ []) (hne' : j'.chunks ≠ [])
    (howner : j.owner = j'.owner) (htrain : j.train = j'.train)
    (hquiet : drawsNoise (fleet.privacy j.owner) = false) : j.chunks = j'.chunks := by
  obtain ⟨noise,hmade⟩ := (h.made j hj).resolve_left hne
  obtain ⟨noise',hmade'⟩ := (h.made j' hj').resolve_left hne'
  rw [← howner, ← h.same j hj j' hj' howner htrain,
    applyLocalPrivacy_of_noiseless hquiet noise' noise, hmade] at hmade'
  exact Except.ok.inj hmade'

theorem chunks_ne_nil {chunks : List DeltaChunk} {delta : ClientDelta}
    (h : reassemble chunks = some delta) : chunks ≠ [] := by
  rintro rfl
  cases h

theorem System.Sound.oneVersion (h : s.Sound fleet) (hdrawn : DrawnOnce fleet s.net.jobs) :
    OneVersion fleet s := by
  refine ⟨?_,hdrawn⟩
  intro x hx y hy howner htrain
  obtain ⟨hxj,hxd⟩ := h.traced.received x hx
  obtain ⟨hyj,hyd⟩ := h.traced.received y hy
  have hchunks : x.request.job.chunks = y.request.job.chunks := by
    cases hdraws : drawsNoise (fleet.privacy x.request.job.owner) with
    | true =>
      have hcall := hdrawn _ _ _ _ hxj hyj howner htrain hdraws
      rw [hcall, hyj] at hxj
      rw [Option.some.inj hxj]
    | false =>
      exact chunks_eq_of_noiseless h.offered (List.mem_of_getElem? hxj) (List.mem_of_getElem? hyj)
        (chunks_ne_nil hxd) (chunks_ne_nil hyd) howner htrain hdraws
  rw [hchunks, hyd] at hxd
  rw [Option.some.inj hxd]

/-- A run for a result no run was for before keeps the draws apart. -/
theorem drawnOnce_append {jobs : List (Job ι)} {j : Job ι} (h : DrawnOnce fleet jobs)
    (hnew : drawsNoise (fleet.privacy j.owner) = true →
      ∀ j' ∈ jobs, j'.owner = j.owner → j'.train ≠ j.train) : DrawnOnce fleet (jobs++[j]) := by
  have hlast (c : ℕ) (j' : Job ι) (hc : (jobs++[j])[c]? = some j') :
      jobs[c]? = some j' ∨ c = jobs.length ∧ j' = j := by
    rcases Nat.lt_or_ge c jobs.length with hlt | hge
    · rw [List.getElem?_append_left hlt] at hc
      exact .inl hc
    · rw [List.getElem?_append_right hge, List.getElem?_singleton] at hc
      split at hc
      · exact .inr ⟨by omega,(Option.some.inj hc).symm⟩
      · cases hc
  intro c c' a b ha hb howner htrain hdraws
  rcases hlast c a ha with ha' | ⟨hc,hja⟩
  · rcases hlast c' b hb with hb' | ⟨hc',hjb⟩
    · exact h c c' a b ha' hb' howner htrain hdraws
    · rw [howner, hjb] at hdraws
      rw [hjb] at howner htrain
      exact absurd htrain (hnew hdraws a (List.mem_of_getElem? ha') howner)
  · rcases hlast c' b hb with hb' | ⟨hc',hjb⟩
    · rw [hja] at howner htrain hdraws
      exact absurd htrain.symm (hnew hdraws b (List.mem_of_getElem? hb') howner.symm)
    · rw [hc, hc']

variable [DecidableEq ι]

theorem drawnOnce_step (h : DrawnOnce fleet s.net.jobs) {e : SystemEvent ι}
    (he : NoisedOnce fleet s e) : DrawnOnce fleet (s.step fleet e).net.jobs := by
  rcases s.jobs_step fleet e with heq | ⟨i,noise,round,raw,chunks,rfl,hphase,hpending,heq⟩
  · rw [heq]
    exact h
  · rw [heq]
    apply drawnOnce_append h
    intro hdraws j hj howner htrain
    exact he hdraws ⟨hpending,⟨round,raw,hphase⟩,j,hj,howner,htrain⟩

/-- A result handed over again draws again. -/
theorem not_drawnOnce_of_resubmits {i : ι} (noise : ℕ → F32) (h : s.Resubmits i)
    (hdraws : drawsNoise (fleet.privacy i) = true) :
    ¬ DrawnOnce fleet (s.step fleet (.submit i noise)).net.jobs := by
  obtain ⟨hpending,⟨round,raw,hphase⟩,j,hj,rfl,htrain⟩ := h
  obtain ⟨c,hc⟩ := List.mem_iff_getElem?.mp hj
  obtain ⟨hlt,_⟩ := List.getElem?_eq_some_iff.mp hc
  obtain ⟨chunks,status,hcall,_,_⟩ := BridgeCall.submit_spec (Copy ι)
    (fleet.privacy j.owner) noise j.owner (s.client j.owner).trained raw
  have hjobs : (s.step fleet (.submit j.owner noise)).net.jobs =
      s.net.jobs++[⟨j.owner,(s.client j.owner).trained,raw,chunks⟩] := by
    simp only [System.step, System.submit, hphase, hpending, hcall]
    exact List.map_append
  rw [hjobs]
  intro hdrawn
  have hold : (s.net.jobs++[⟨j.owner,(s.client j.owner).trained,raw,chunks⟩])[c]? = some j := by
    rw [List.getElem?_append_left hlt, hc]
  have hnew := hdrawn c s.net.jobs.length j _ hold List.getElem?_concat_length rfl htrain hdraws
  omega

/-- In every run, all copies of a result are one noised version at every point exactly when no
result is handed over again to a node that draws noise. -/
theorem oneVersion_iff_noisedOnce (fleet : Fleet ι) (events : List (SystemEvent ι)) :
    (∀ pre, pre <+: events → OneVersion fleet (System.run fleet pre)) ↔
      Run.Always (System.step fleet) (NoisedOnce fleet) (System.start fleet) events := by
  constructor
  · intro h
    rw [Run.always_iff_forall_split]
    intro pre e post hevents
    cases e with
    | submit i noise =>
      intro hdraws hresubmits
      apply not_drawnOnce_of_resubmits noise hresubmits hdraws
      have hnext := h (pre++[.submit i noise]) ⟨post,by rw [hevents]; simp⟩
      rw [System.run, Run.after_append] at hnext
      exact hnext.draws
    | _ => trivial
  · rintro h pre ⟨post,rfl⟩
    obtain ⟨hsound,hdrawn⟩ := Run.after_of_invariant
      (fun s => s.Sound fleet ∧ DrawnOnce fleet s.net.jobs)
      ⟨System.sound_start fleet,by simp [DrawnOnce, System.start, Network.empty, Network.jobs]⟩
      (Run.always_append.mp h).1 fun s e hs he => ⟨hs.1.step e,drawnOnce_step hs.2 he⟩
    exact hsound.oneVersion hdrawn

end Draws

/-- Two acknowledgements and a request of the first run are lost; the round still stands, so
the client offers the result again and the bridge draws again. -/
def resubmission : List (SystemEvent Unit) :=
  [.server (.opens 9),.serveFetch (),.receiveFetch () (some ⟨[F32.one],1,none,none,none⟩),
    .submit () fun _ => F32.zero,.attempt 0,.deliver 0,.attemptFails 0,.attempt 0,.deliver 1,
    .attemptFails 0,.attempt 0,.attemptFails 0,.returns (),.serveFetch (),.receiveFetch () none,
    .submit () fun _ => F32.one,.attempt 1,.deliver 3]

theorem not_oneVersion_resubmission :
    ¬ OneVersion (.single (some ⟨F32.one,F32.one⟩))
      (System.run (.single (some ⟨F32.one,F32.one⟩)) resubmission) := by
  intro h
  have hdiffer : ∃ x ∈ (System.run (.single (some ⟨F32.one,F32.one⟩)) resubmission).net.received,
      ∃ y ∈ (System.run (.single (some ⟨F32.one,F32.one⟩)) resubmission).net.received,
      x.owner = y.owner ∧ x.train = y.train ∧ x.delta.weights ≠ y.delta.weights := by
    decide +kernel
  obtain ⟨x,hx,y,hy,howner,htrain,hne⟩ := hdiffer
  exact hne (h.weights x hx y hy howner htrain)

end ConfluxFL
