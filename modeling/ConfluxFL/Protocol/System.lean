import ConfluxFL.Protocol.Network
import ConfluxFL.Protocol.RoundLoop

/-! Clients, bridges and server together: every order in which their steps, the arrival of
messages and the failures can come is a list of events. -/
namespace ConfluxFL

/-- What the clients and their nodes are set up with. -/
structure Fleet (ι : Type) where
  config : ι → RunConfig
  privacy : ι → Option GaussianClippingPrivacy

/-- One client, of two rounds. -/
def Fleet.single (privacy : Option GaussianClippingPrivacy) : Fleet Unit :=
  ⟨fun _ => ⟨"client-1",2,64⟩,fun _ => privacy⟩

/-- A client with what it waits for: the round of a task on its way, or a run of its bridge. -/
structure Party where
  state : ClientState
  fetched : Option ℕ
  pending : Option ℕ

/-- `abandoned` are the bridge runs whose client saw an error of the local hop, `discarded` the
numbers of the requests whose batch was thrown away by a retried round; both are records. -/
structure System (ι : Type) where
  loop : RoundLoop (Copy ι)
  parties : ι → Party
  net : Network ι
  abandoned : List ℕ
  discarded : List ℕ

inductive SystemEvent (ι : Type) where
  | server (m : LoopMove)
  | serveFetch (i : ι)
  | receiveFetch (i : ι) (trained : Option TrainResult)
  | fetchFails (i : ι)
  | submit (i : ι) (noise : ℕ → F32)
  | submitFails (i : ι)
  | attempt (call : ℕ)
  | deliver (number : ℕ)
  | answer (number : ℕ)
  | attemptFails (call : ℕ)
  | returns (i : ι)

/-- The batch a move throws away: that of an attempt the loop will repeat. -/
def RoundLoop.thrownAway {δ : Type} (l : RoundLoop δ) (m : LoopMove) : List δ :=
  match l.phase,m with
  | .closing batch,.finish .transient => batch
  | _,_ => []

namespace System
variable {ι : Type} [DecidableEq ι] (fleet : Fleet ι) (s : System ι)

def start : System ι :=
  ⟨.start,fun i => ⟨.start (fleet.config i),none,none⟩,.empty,[],[]⟩

def client (i : ι) : ClientState := (s.parties i).state

def setParty (i : ι) (p : Party) : System ι := { s with parties := Function.update s.parties i p }

def serve (m : LoopMove) : System ι :=
  { s with
    loop := s.loop.move m
    discarded := s.discarded++(s.loop.thrownAway m).map fun x => x.request.number }

/-- The server answers a fetch with its round number. -/
def serveFetch (i : ι) : System ι :=
  match (s.client i).phase with
  | .polling => s.setParty i { s.parties i with fetched := some s.loop.round }
  | .refused _ _ => s.setParty i { s.parties i with fetched := some s.loop.round }
  | _ => s

def receiveFetch (i : ι) (trained : Option TrainResult) : System ι :=
  match (s.parties i).fetched with
  | some round => s.setParty i { s.parties i with
      state := (s.client i).onTask (fleet.config i) round trained
      fetched := none }
  | none => s

def fetchFails (i : ι) : System ι :=
  s.setParty i { s.parties i with state := (s.client i).onFetchError, fetched := none }

/-- The client hands its chunks to the bridge. -/
def submit (i : ι) (noise : ℕ → F32) : System ι :=
  match (s.client i).phase,(s.parties i).pending with
  | .submitting _ chunks,none =>
    { s.setParty i { s.parties i with pending := some s.net.calls.length } with
      net := s.net.submit (.submit (fleet.privacy i) noise i (s.client i).trained chunks) }
  | _,_ => s

/-- The local hop fails; the bridge may go on. -/
def submitFails (i : ι) : System ι :=
  match (s.parties i).pending with
  | some c =>
    { s.setParty i { s.parties i with
        state := (s.client i).onSubmit (fleet.config i) false
        pending := none } with
      abandoned := s.abandoned++[c] }
  | none => s

def deliver (number : ℕ) : System ι :=
  { s with
    net := (s.net.deliver number s.loop.buffer).1
    loop := { s.loop with buffer := (s.net.deliver number s.loop.buffer).2 } }

/-- The bridge's answer reaches the client. -/
def returns (i : ι) : System ι :=
  match (s.parties i).pending with
  | some c =>
    match s.net.calls[c]? with
    | some call =>
      match call.status with
      | .answered acceptance => s.setParty i { s.parties i with
          state := (s.client i).onSubmit (fleet.config i) acceptance.isSome
          pending := none }
      | _ => s
    | none => s
  | none => s

def step : SystemEvent ι → System ι
  | .server m => s.serve m
  | .serveFetch i => s.serveFetch i
  | .receiveFetch i trained => s.receiveFetch fleet i trained
  | .fetchFails i => s.fetchFails i
  | .submit i noise => s.submit fleet i noise
  | .submitFails i => s.submitFails fleet i
  | .attempt c => { s with net := s.net.attempt c }
  | .deliver number => s.deliver number
  | .answer number => { s with net := s.net.answer number }
  | .attemptFails c => { s with net := s.net.attemptFails c }
  | .returns i => s.returns fleet i

/-- The state after a list of events. -/
def run (events : List (SystemEvent ι)) : System ι := Run.after (step fleet) (start fleet) events

end System

section Offered
variable {ι : Type}

/-- What the bridges were handed against what the clients have in hand: each run sends a
transform of the chunks it was handed, runs for one result were handed the same chunks, and a
client that waits for a run has the chunks of that run in hand. -/
structure Offered (fleet : Fleet ι) (parties : ι → Party) (jobs : List (Job ι)) : Prop where
  made : ∀ j ∈ jobs, j.chunks = [] ∨
    ∃ noise, applyLocalPrivacy (fleet.privacy j.owner) noise j.raw = .ok j.chunks
  trained : ∀ j ∈ jobs, j.train ≤ (parties j.owner).state.trained
  inHand : ∀ j ∈ jobs, j.train = (parties j.owner).state.trained →
    ∀ o, (parties j.owner).state.phase.offer = some o → o.2 = j.raw
  same : ∀ j ∈ jobs, ∀ j' ∈ jobs, j.owner = j'.owner → j.train = j'.train → j.raw = j'.raw
  pending : ∀ i c, (parties i).pending = some c →
    (∃ round raw, (parties i).state.phase = .submitting round raw) ∧
      ∃ j, jobs[c]? = some j ∧ j.owner = i ∧ j.train = (parties i).state.trained
  forRound : ∀ i o, (parties i).state.phase.offer = some o → ForRound o.1 o.2

namespace Offered
variable {fleet : Fleet ι} {parties : ι → Party} {jobs : List (Job ι)}

theorem start (fleet : Fleet ι) :
    Offered fleet (fun i => ⟨.start (fleet.config i),none,none⟩) [] := by
  refine ⟨by simp,by simp,by simp,by simp,by simp,?_⟩
  intro i o ho
  rw [ClientState.start, ClientState.offer_loopHead] at ho
  cases ho

variable [DecidableEq ι]

/-- One client moves on without a training. -/
theorem continues (h : Offered fleet parties jobs) {i : ι} {p : Party}
    (hcont : (parties i).state.Continues p.state)
    (hpending : ∀ c, p.pending = some c →
      (parties i).pending = some c ∧ p.state = (parties i).state) :
    Offered fleet (Function.update parties i p) jobs where
  made := h.made
  trained j hj := by
    have hle := h.trained j hj
    by_cases hi : j.owner = i
    · rw [hi] at hle ⊢
      rwa [Function.update_self, hcont.1]
    · rwa [Function.update_of_ne hi]
  inHand j hj htrain o ho := by
    by_cases hi : j.owner = i
    · rw [hi, Function.update_self] at htrain ho
      subst hi
      exact h.inHand j hj (htrain.trans hcont.1) o (hcont.offer_eq_some ho)
    · rw [Function.update_of_ne hi] at htrain ho
      exact h.inHand j hj htrain o ho
  same := h.same
  pending i' c hc := by
    by_cases hi : i' = i
    · subst hi
      rw [Function.update_self] at hc ⊢
      obtain ⟨hold,hstate⟩ := hpending c hc
      rw [hstate]
      exact h.pending i' c hold
    · rw [Function.update_of_ne hi] at hc ⊢
      exact h.pending i' c hc
  forRound i' o ho := by
    by_cases hi : i' = i
    · subst hi
      rw [Function.update_self] at ho
      exact h.forRound i' o (hcont.offer_eq_some ho)
    · rw [Function.update_of_ne hi] at ho
      exact h.forRound i' o ho

/-- One client that waited for nothing trains. -/
theorem trains (h : Offered fleet parties jobs) {i : ι} {p : Party} {round : ℕ}
    {result : TrainResult} {chunkBytes : ℕ} {clientId : String} (hpending : p.pending = none)
    (hphase : p.state.phase = .submitting round (buildChunks clientId round result chunkBytes))
    (htrained : p.state.trained = (parties i).state.trained+1) :
    Offered fleet (Function.update parties i p) jobs where
  made := h.made
  trained j hj := by
    have hle := h.trained j hj
    by_cases hi : j.owner = i
    · rw [hi] at hle ⊢
      rw [Function.update_self, htrained]
      omega
    · rwa [Function.update_of_ne hi]
  inHand j hj htrain o ho := by
    by_cases hi : j.owner = i
    · have hle := h.trained j hj
      rw [hi] at hle htrain
      rw [Function.update_self, htrained] at htrain
      omega
    · rw [Function.update_of_ne hi] at htrain ho
      exact h.inHand j hj htrain o ho
  same := h.same
  pending i' c hc := by
    by_cases hi : i' = i
    · subst hi
      rw [Function.update_self, hpending] at hc
      cases hc
    · rw [Function.update_of_ne hi] at hc ⊢
      exact h.pending i' c hc
  forRound i' o ho := by
    by_cases hi : i' = i
    · subst hi
      rw [Function.update_self, hphase] at ho
      cases ho
      exact forRound_buildChunks clientId round result chunkBytes
    · rw [Function.update_of_ne hi] at ho
      exact h.forRound i' o ho

/-- One client hands its chunks to its bridge. -/
theorem submits (h : Offered fleet parties jobs) {i : ι} {round : ℕ} {raw chunks : List DeltaChunk}
    (hphase : (parties i).state.phase = .submitting round raw)
    (hmade : chunks = [] ∨
      ∃ noise, applyLocalPrivacy (fleet.privacy i) noise raw = .ok chunks) :
    Offered fleet (Function.update parties i { parties i with pending := some jobs.length })
      (jobs++[⟨i,(parties i).state.trained,raw,chunks⟩]) := by
  let p : Party := { parties i with pending := some jobs.length }
  let j : Job ι := ⟨i,(parties i).state.trained,raw,chunks⟩
  have hoffer : (parties i).state.phase.offer = some (round,raw) := by rw [hphase]; rfl
  have hparty (i' : ι) : (Function.update parties i p i').state = (parties i').state := by
    by_cases hi : i' = i
    · subst hi
      rw [Function.update_self]
    · rw [Function.update_of_ne hi]
  have hmatch (j' : Job ι) (hj' : j' ∈ jobs) (ho : j'.owner = i) (ht : j'.train = j.train) :
      raw = j'.raw := by
    subst ho
    exact h.inHand j' hj' ht (round,raw) hoffer
  refine ⟨?_,?_,?_,?_,?_,?_⟩
  · intro j' hj'
    rcases List.mem_append.mp hj' with hj' | hj'
    · exact h.made j' hj'
    · rw [List.mem_singleton.mp hj']
      exact hmade
  · intro j' hj'
    rw [hparty]
    rcases List.mem_append.mp hj' with hj' | hj'
    · exact h.trained j' hj'
    · rw [List.mem_singleton.mp hj']
  · intro j' hj'
    rw [hparty]
    rcases List.mem_append.mp hj' with hj' | hj'
    · exact h.inHand j' hj'
    · rw [List.mem_singleton.mp hj', hoffer]
      intro _ o ho
      cases ho
      rfl
  · intro a ha b hb howners htrains
    rcases List.mem_append.mp ha with ha | ha
    · rcases List.mem_append.mp hb with hb | hb
      · exact h.same a ha b hb howners htrains
      · rw [List.mem_singleton.mp hb] at howners htrains ⊢
        exact (hmatch a ha howners htrains).symm
    · rw [List.mem_singleton.mp ha] at howners htrains ⊢
      rcases List.mem_append.mp hb with hb | hb
      · exact hmatch b hb howners.symm htrains.symm
      · rw [List.mem_singleton.mp hb]
  · intro i' c hc
    rw [hparty]
    by_cases hi : i' = i
    · subst hi
      rw [Function.update_self] at hc
      cases hc
      refine ⟨⟨round,raw,hphase⟩,j,?_,rfl,rfl⟩
      rw [List.getElem?_append_right le_rfl, Nat.sub_self, List.getElem?_cons_zero]
    · rw [Function.update_of_ne hi] at hc
      obtain ⟨hsub,j',hj',ho,ht⟩ := h.pending i' c hc
      obtain ⟨hlt,_⟩ := List.getElem?_eq_some_iff.mp hj'
      exact ⟨hsub,j',by rw [List.getElem?_append_left hlt, hj'],ho,ht⟩
  · intro i' o ho
    rw [hparty] at ho
    exact h.forRound i' o ho

end Offered
end Offered

namespace System
variable {ι : Type} {fleet : Fleet ι} {s : System ι}

/-- The system does nothing its clients and bridges did not start. -/
structure Sound (fleet : Fleet ι) (s : System ι) : Prop where
  traced : s.net.Traced
  offered : Offered fleet s.parties s.net.jobs

theorem sound_start (fleet : Fleet ι) : Sound fleet (start fleet) := ⟨.start,.start fleet⟩

variable [DecidableEq ι]

/-- A fetch is answered or it is not. -/
theorem serveFetch_cases (s : System ι) (i : ι) :
    s.serveFetch i = s.setParty i { s.parties i with fetched := some s.loop.round } ∨
      s.serveFetch i = s := by
  unfold serveFetch
  split
  · exact .inl rfl
  · exact .inl rfl
  · exact .inr rfl

/-- A client hears of the run it waits for when that run was answered. -/
theorem returns_cases (fleet : Fleet ι) (s : System ι) (i : ι) : s.returns fleet i = s ∨
    ∃ c call acceptance, (s.parties i).pending = some c ∧ s.net.calls[c]? = some call ∧
      call.status = .answered acceptance ∧
      s.returns fleet i = s.setParty i { s.parties i with
        state := (s.client i).onSubmit (fleet.config i) acceptance.isSome
        pending := none } := by
  unfold returns
  split
  · rename_i c hpending
    split
    · rename_i call hcall
      split
      · rename_i acceptance hstatus
        exact .inr ⟨c,call,acceptance,hpending,hcall,hstatus,rfl⟩
      · exact .inl rfl
    · exact .inl rfl
  · exact .inl rfl

theorem Sound.submit (h : Sound fleet s) (i : ι) (noise : ℕ → F32) :
    Sound fleet (s.submit fleet i noise) := by
  unfold System.submit
  split
  · rename_i round raw hphase _
    obtain ⟨chunks,status,hcall,hmade,hstatus⟩ := BridgeCall.submit_spec (Copy ι)
      (fleet.privacy i) noise i (s.client i).trained raw
    rw [hcall]
    constructor
    · apply h.traced.submit
      intro x hx
      rcases hstatus with rfl | rfl <;> cases hx
    · have hjobs : (s.net.submit ⟨⟨i,(s.client i).trained,raw,chunks⟩,status⟩).jobs =
          s.net.jobs++[⟨i,(s.client i).trained,raw,chunks⟩] := List.map_append
      have hlen : s.net.calls.length = s.net.jobs.length := (List.length_map _).symm
      rw [hjobs, hlen]
      exact h.offered.submits hphase hmade
  · exact h

theorem Sound.receiveFetch (h : Sound fleet s) (i : ι) (trained : Option TrainResult) :
    Sound fleet (s.receiveFetch fleet i trained) := by
  unfold System.receiveFetch
  split
  · rename_i round _
    refine ⟨h.traced,?_⟩
    rcases ClientState.onTask_cases (fleet.config i) (s.client i) round trained with
      hcont | ⟨hpolling,result,heq⟩
    · refine Offered.continues (i := i) h.offered hcont ?_
      intro c hc
      obtain ⟨⟨round',raw,hphase⟩,_⟩ := h.offered.pending i c hc
      exact ⟨hc,ClientState.onTask_of_submitting hphase⟩
    · have hidle : (s.parties i).pending = none := by
        cases hp : (s.parties i).pending with
        | none => rfl
        | some c =>
          obtain ⟨⟨round',raw,hphase⟩,_⟩ := h.offered.pending i c hp
          rw [client, hphase] at hpolling
          cases hpolling
      rw [heq]
      exact h.offered.trains hidle rfl rfl
  · exact h

theorem Sound.returned (h : Sound fleet s) (i : ι) (accepted : Bool) :
    Offered fleet (Function.update s.parties i { s.parties i with
      state := (s.client i).onSubmit (fleet.config i) accepted
      pending := none }) s.net.jobs :=
  h.offered.continues (ClientState.continues_onSubmit accepted) (by simp)

theorem Sound.step (h : Sound fleet s) (e : SystemEvent ι) : Sound fleet (s.step fleet e) := by
  cases e with
  | server m => exact ⟨h.traced,h.offered⟩
  | serveFetch i =>
    have hfetch : Sound fleet (s.setParty i { s.parties i with fetched := some s.loop.round }) :=
      ⟨h.traced,h.offered.continues ⟨rfl,.inr rfl⟩ fun c hc => ⟨hc,rfl⟩⟩
    rw [System.step]
    rcases s.serveFetch_cases i with heq | heq <;> rw [heq]
    · exact hfetch
    · exact h
  | receiveFetch i trained => exact h.receiveFetch i trained
  | fetchFails i =>
    refine ⟨h.traced,h.offered.continues ClientState.continues_onFetchError ?_⟩
    intro c hc
    obtain ⟨⟨round,raw,hphase⟩,_⟩ := h.offered.pending i c hc
    exact ⟨hc,ClientState.onFetchError_of_submitting hphase⟩
  | submit i noise => exact h.submit i noise
  | submitFails i =>
    simp only [System.step, System.submitFails]
    split
    · exact ⟨h.traced,h.returned i false⟩
    · exact h
  | attempt c =>
    refine ⟨h.traced.attempt c,?_⟩
    simpa only [System.step, Network.jobs_attempt] using h.offered
  | deliver number =>
    refine ⟨h.traced.deliver number _,?_⟩
    simpa only [System.step, System.deliver, Network.jobs_deliver] using h.offered
  | answer number =>
    refine ⟨h.traced.answer number,?_⟩
    simpa only [System.step, Network.jobs_answer] using h.offered
  | attemptFails c =>
    refine ⟨h.traced.attemptFails c,?_⟩
    simpa only [System.step, Network.jobs_attemptFails] using h.offered
  | returns i =>
    rw [System.step]
    rcases s.returns_cases fleet i with heq | ⟨c,call,acceptance,-,-,-,heq⟩ <;> rw [heq]
    · exact h
    · exact ⟨h.traced,h.returned i _⟩

/-- What a step can do to the loop and the wire; all other steps leave both alone. -/
theorem step_wire {P : RoundLoop (Copy ι) → Network ι → Prop} {e : SystemEvent ι}
    (hkeep : P s.loop s.net) (hserver : ∀ m, e = .server m → P (s.loop.move m) s.net)
    (hsubmit : ∀ i noise round raw, e = .submit i noise →
      (s.client i).phase = .submitting round raw → (s.parties i).pending = none →
      P s.loop (s.net.submit (.submit (fleet.privacy i) noise i (s.client i).trained raw)))
    (hattempt : ∀ c, P s.loop (s.net.attempt c))
    (hdeliver : ∀ number, P { s.loop with buffer := (s.net.deliver number s.loop.buffer).2 }
      (s.net.deliver number s.loop.buffer).1)
    (hanswer : ∀ number, P s.loop (s.net.answer number))
    (hfails : ∀ c, P s.loop (s.net.attemptFails c)) :
    P (s.step fleet e).loop (s.step fleet e).net := by
  cases e with
  | server m => exact hserver m rfl
  | serveFetch i =>
    simp only [System.step, System.serveFetch]
    split <;> exact hkeep
  | receiveFetch i trained =>
    simp only [System.step, System.receiveFetch]
    split <;> exact hkeep
  | fetchFails i => exact hkeep
  | submit i noise =>
    simp only [System.step, System.submit]
    split
    · rename_i round raw hphase hpending
      exact hsubmit i noise round raw rfl hphase hpending
    · exact hkeep
  | submitFails i =>
    simp only [System.step, System.submitFails]
    split <;> exact hkeep
  | attempt c => exact hattempt c
  | deliver number => exact hdeliver number
  | answer number => exact hanswer number
  | attemptFails c => exact hfails c
  | returns i =>
    simp only [System.step, System.returns]
    split
    · split
      · split <;> exact hkeep
      · exact hkeep
    · exact hkeep

/-- Only a client that hands its chunks over starts a run. -/
theorem jobs_step (fleet : Fleet ι) (s : System ι) (e : SystemEvent ι) :
    (s.step fleet e).net.jobs = s.net.jobs ∨ ∃ i noise round raw chunks, e = .submit i noise ∧
      (s.client i).phase = .submitting round raw ∧ (s.parties i).pending = none ∧
      (s.step fleet e).net.jobs = s.net.jobs++[⟨i,(s.client i).trained,raw,chunks⟩] := by
  apply step_wire (s := s) (e := e) (P := fun _ n => n.jobs = s.net.jobs ∨
    ∃ i noise round raw chunks, e = .submit i noise ∧
      (s.client i).phase = .submitting round raw ∧ (s.parties i).pending = none ∧
      n.jobs = s.net.jobs++[(⟨i,(s.client i).trained,raw,chunks⟩ : Job ι)])
  · exact .inl rfl
  · intro _ _
    exact .inl rfl
  · intro i noise round raw he hphase hpending
    obtain ⟨chunks,status,hcall,_,_⟩ := BridgeCall.submit_spec (Copy ι)
      (fleet.privacy i) noise i (s.client i).trained raw
    rw [hcall]
    exact .inr ⟨i,noise,round,raw,chunks,he,hphase,hpending,List.map_append⟩
  · intro c
    exact .inl (s.net.jobs_attempt c)
  · intro number
    exact .inl (s.net.jobs_deliver number s.loop.buffer)
  · intro number
    exact .inl (s.net.jobs_answer number)
  · intro c
    exact .inl (s.net.jobs_attemptFails c)

end System
end ConfluxFL
