import Mathlib.Data.List.Nodup
import ConfluxFL.Protocol.System

/-! How often one training result is counted. The server takes whatever arrives for its round,
so a copy whose acknowledgement was lost is sent, and taken, again; every other copy is the only
one of its result. -/
namespace ConfluxFL
variable {ι : Type}

/-- What a log holds after one more entry. -/
theorem mem_append_singleton {α : Type} {a b : α} {l : List α} : a ∈ l++[b] ↔ a ∈ l ∨ a = b := by
  rw [List.mem_append, List.mem_singleton]

/-- A bridge run waits for the answer to this request. -/
def Network.Waits (n : Network ι) (c number : ℕ) : Prop :=
  ∃ call attempts, n.calls[c]? = some call ∧ call.status = .waiting attempts number

/-- Request numbers: each request arrives once and is answered once, and unless its attempt was
lost its bridge run waits for the answer or has passed the acceptance on. -/
structure Numbered (n : Network ι) : Prop where
  requests : ∀ q ∈ n.requests, q.number < n.sent
  received : ∀ x ∈ n.received, x.request.number < n.sent
  answers : ∀ p ∈ n.answers, p.request.number < n.sent
  arrives : ∀ q ∈ n.requests, ∀ x ∈ n.received, x.request.number ≠ q.number
  answerOnce : ∀ q ∈ n.requests, ∀ p ∈ n.answers, p.request.number ≠ q.number
  waits : ∀ q ∈ n.requests, q.number ∉ n.lost → n.Waits q.call q.number
  kept : ∀ x ∈ n.accepted, x.request.number ∉ n.lost → n.Waits x.request.call x.request.number ∨
    ∃ call, n.calls[x.request.call]? = some call ∧ call.status = .answered (some x)
  refusal : ∀ p ∈ n.answers, p.acceptance = none →
    ∀ x ∈ n.accepted, x.request.number ≠ p.request.number
  distinct : (n.accepted.map fun x => x.request.number).Nodup

namespace Numbered
variable {n : Network ι}

theorem start : Numbered (.empty : Network ι) := by
  constructor <;> simp [Network.empty]

theorem submit (h : Numbered n) (call : BridgeCall ι (Copy ι)) : Numbered (n.submit call) := by
  have hcalls {c : ℕ} {old : BridgeCall ι (Copy ι)} (hc : n.calls[c]? = some old) :
      (n.submit call).calls[c]? = some old := by
    obtain ⟨hlt,_⟩ := List.getElem?_eq_some_iff.mp hc
    rw [Network.submit, List.getElem?_append_left hlt, hc]
  have hwaits {c number : ℕ} : n.Waits c number → (n.submit call).Waits c number := by
    rintro ⟨old,attempts,hold,hstatus⟩
    exact ⟨old,attempts,hcalls hold,hstatus⟩
  refine { h with waits := ?_, kept := ?_ }
  · intro q hq hlost
    exact hwaits (h.waits q hq hlost)
  · intro x hx hlost
    rcases h.kept x hx hlost with hwait | ⟨old,hold,hstatus⟩
    · exact .inl (hwaits hwait)
    · exact .inr ⟨old,hcalls hold,hstatus⟩

/-- A run that a change does not touch waits as before. -/
theorem waits_update {c c' number : ℕ} {f : BridgeCall ι (Copy ι) → BridgeCall ι (Copy ι)}
    (h : n.Waits c' number)
    (hf : ∀ call attempts, n.calls[c']? = some call → call.status = .waiting attempts number →
      c' = c → f call = call) : (n.update c f).Waits c' number := by
  obtain ⟨call,attempts,hcall,hstatus⟩ := h
  exact ⟨call,attempts,Network.getElem?_update_of_fixed hcall (hf call attempts hcall hstatus),
    hstatus⟩

theorem attempt (h : Numbered n) (c : ℕ) : Numbered (n.attempt c) := by
  unfold Network.attempt
  split
  · rename_i call hcall
    split
    · rename_i attempts hready
      have hwaits {c' number : ℕ} (hwait : n.Waits c' number) :
          (n.update c fun call => call.onAttempt n.sent).Waits c' number := by
        apply waits_update hwait
        intro call' attempts' hcall' hstatus hc
        rw [hc, hcall] at hcall'
        cases hcall'
        rw [hready] at hstatus
        cases hstatus
      constructor
      · intro q hq
        rcases mem_append_singleton.mp hq with hq | rfl
        · exact Nat.lt_succ_of_lt (h.requests q hq)
        · exact Nat.lt_succ_self _
      · intro x hx
        exact Nat.lt_succ_of_lt (h.received x hx)
      · intro p hp
        exact Nat.lt_succ_of_lt (h.answers p hp)
      · intro q hq x hx
        rcases mem_append_singleton.mp hq with hq | rfl
        · exact h.arrives q hq x hx
        · exact (h.received x hx).ne
      · intro q hq p hp
        rcases mem_append_singleton.mp hq with hq | rfl
        · exact h.answerOnce q hq p hp
        · exact (h.answers p hp).ne
      · intro q hq hlost
        rcases mem_append_singleton.mp hq with hq | rfl
        · exact hwaits (h.waits q hq hlost)
        · refine ⟨call.onAttempt n.sent,attempts+1,Network.getElem?_update_self hcall,?_⟩
          unfold BridgeCall.onAttempt
          rw [hready]
      · intro x hx hlost
        rcases h.kept x hx hlost with hwait | ⟨old,hold,hstatus⟩
        · exact .inl (hwaits hwait)
        · refine .inr ⟨old,Network.getElem?_update_of_fixed hold ?_,hstatus⟩
          intro _
          exact BridgeCall.onAttempt_of_answered hstatus
      · exact h.refusal
      · exact h.distinct
    · exact h
  · exact h

/-- A request that has arrived is on the wire no more. -/
theorem mem_of_arrived {q q' : Request ι}
    (h : q' ∈ n.requests.filter fun q' => q'.number ≠ q.number) :
    q' ∈ n.requests ∧ q.number ≠ q'.number := by
  obtain ⟨hmem,hne⟩ := List.mem_filter.mp h
  exact ⟨hmem,Ne.symm (of_decide_eq_true hne)⟩

/-- The answer to a request of the wire has its number. -/
theorem answers_append (h : Numbered n) {q : Request ι} {p : Answer ι} (hq : q ∈ n.requests)
    (hp : p.request = q) : ∀ p' ∈ n.answers++[p], p'.request.number < n.sent := by
  intro p' hp'
  rcases mem_append_singleton.mp hp' with hp' | rfl
  · exact h.answers p' hp'
  · rw [hp]
    exact h.requests q hq

theorem answerOnce_append (h : Numbered n) {q : Request ι} {p : Answer ι} (hp : p.request = q) :
    ∀ q' ∈ n.requests.filter fun q' => q'.number ≠ q.number, ∀ p' ∈ n.answers++[p],
      p'.request.number ≠ q'.number := by
  intro q' hq' p' hp'
  obtain ⟨hmem,hne⟩ := mem_of_arrived hq'
  rcases mem_append_singleton.mp hp' with hp' | rfl
  · exact h.answerOnce q' hmem p' hp'
  · rwa [hp]

theorem refused (h : Numbered n) (htraced : n.Traced) {q : Request ι} (hq : q ∈ n.requests) :
    Numbered (n.refused q) := by
  have hreceived {x : Copy ι} (hx : x ∈ n.received++q.copy.toList) :
      x ∈ n.received ∨ x.request = q := by
    rcases List.mem_append.mp hx with hx | hx
    · exact .inl hx
    · exact .inr (Request.copy_eq_some.mp (Option.mem_toList.mp hx)).1
  constructor
  · intro q' hq'
    exact h.requests q' (mem_of_arrived hq').1
  · intro x hx
    rcases hreceived hx with hx | rfl
    · exact h.received x hx
    · exact h.requests _ hq
  · exact h.answers_append hq rfl
  · intro q' hq' x hx
    obtain ⟨hmem,hne⟩ := mem_of_arrived hq'
    rcases hreceived hx with hx | rfl
    · exact h.arrives q' hmem x hx
    · exact hne
  · exact h.answerOnce_append rfl
  · intro q' hq'
    exact h.waits q' (mem_of_arrived hq').1
  · exact h.kept
  · intro p hp hnone x hx
    rcases mem_append_singleton.mp hp with hp | rfl
    · exact h.refusal p hp hnone x hx
    · exact h.arrives q hq x (htraced.accepted hx)
  · exact h.distinct

theorem taken (h : Numbered n) (htraced : n.Traced) {q : Request ι} {x : Copy ι}
    (hq : q ∈ n.requests) (hx : x.request = q) : Numbered (n.taken q x) := by
  constructor
  · intro q' hq'
    exact h.requests q' (mem_of_arrived hq').1
  · intro y hy
    rcases mem_append_singleton.mp hy with hy | rfl
    · exact h.received y hy
    · rw [hx]
      exact h.requests q hq
  · exact h.answers_append hq rfl
  · intro q' hq' y hy
    obtain ⟨hmem,hne⟩ := mem_of_arrived hq'
    rcases mem_append_singleton.mp hy with hy | rfl
    · exact h.arrives q' hmem y hy
    · rwa [hx]
  · exact h.answerOnce_append rfl
  · intro q' hq'
    exact h.waits q' (mem_of_arrived hq').1
  · intro y hy hlost
    rcases mem_append_singleton.mp hy with hy | rfl
    · exact h.kept y hy hlost
    · rw [hx] at hlost ⊢
      exact .inl (h.waits q hq hlost)
  · intro p hp hnone y hy
    rcases mem_append_singleton.mp hp with hp' | rfl
    · rcases mem_append_singleton.mp hy with hy' | hyx
      · exact h.refusal p hp' hnone y hy'
      · rw [hyx, hx]
        exact Ne.symm (h.answerOnce q hq p hp')
    · cases hnone
  · have hnew : x.request.number ∉ n.accepted.map fun y => y.request.number := by
      intro hmem
      obtain ⟨y,hy,hnumber⟩ := List.mem_map.mp hmem
      rw [hx] at hnumber
      exact h.arrives q hq y (htraced.accepted hy) hnumber
    change ((n.accepted++[x]).map fun y => y.request.number).Nodup
    rw [List.map_append, List.map_singleton, ← List.concat_eq_append]
    exact h.distinct.concat hnew

theorem deliver (h : Numbered n) (htraced : n.Traced) (number : ℕ)
    (buffer : Option (RoundBuffer (Copy ι))) : Numbered (n.deliver number buffer).1 := by
  rcases n.deliver_cases number buffer with heq | ⟨q,hq,heq | ⟨x,b,b',hx,_,_,heq⟩⟩
  · rw [heq]
    exact h
  · rw [heq]
    exact h.refused htraced hq
  · rw [heq]
    exact h.taken htraced hq (Request.copy_eq_some.mp hx).1

theorem eq_of_number (h : Numbered n) {x y : Copy ι} (hx : x ∈ n.accepted) (hy : y ∈ n.accepted)
    (hnumber : x.request.number = y.request.number) : x = y :=
  List.inj_on_of_nodup_map h.distinct hx hy hnumber

theorem answer (h : Numbered n) (htraced : n.Traced) (number : ℕ) : Numbered (n.answer number) := by
  unfold Network.answer
  split
  · exact h
  · rename_i p hfind
    have hp := List.mem_of_find?_eq_some hfind
    have hnumber : p.request.number = number := by
      simpa using List.find?_some hfind
    have hwaits {c' number' : ℕ} (hwait : n.Waits c' number') (hne : number' ≠ number) :
        (n.update p.request.call fun call => call.onResult number p.acceptance).Waits c'
          number' := by
      apply waits_update hwait
      intro call attempts _ hstatus _
      exact BridgeCall.onResult_of_ne hstatus hne
    constructor
    · exact h.requests
    · exact h.received
    · intro p' hp'
      exact h.answers p' (List.mem_of_mem_filter hp')
    · exact h.arrives
    · intro q hq p' hp'
      exact h.answerOnce q hq p' (List.mem_of_mem_filter hp')
    · intro q hq hlost
      apply hwaits (h.waits q hq hlost)
      rw [← hnumber]
      exact Ne.symm (h.answerOnce q hq p hp)
    · intro x hx hlost
      rcases h.kept x hx hlost with hwait | ⟨old,hold,hstatus⟩
      · by_cases hne : x.request.number = number
        · refine .inr ?_
          cases hacceptance : p.acceptance with
          | none => exact absurd (hne.trans hnumber.symm) (h.refusal p hp hacceptance x hx)
          | some y =>
            obtain ⟨hy,hrequest⟩ := htraced.answers p hp y hacceptance
            have hxy : x = y := h.eq_of_number hx hy (by rw [hrequest, hnumber, hne])
            obtain ⟨call,attempts,hcall,hstatus⟩ := hwait
            rw [hxy, hrequest] at hcall ⊢
            rw [hne] at hstatus
            exact ⟨_,Network.getElem?_update_self hcall,BridgeCall.onResult_some hstatus⟩
        · exact .inl (hwaits hwait hne)
      · refine .inr ⟨old,Network.getElem?_update_of_fixed hold ?_,hstatus⟩
        intro _
        exact BridgeCall.onResult_of_answered hstatus
    · intro p' hp'
      exact h.refusal p' (List.mem_of_mem_filter hp')
    · exact h.distinct

theorem attemptFails (h : Numbered n) (c : ℕ) : Numbered (n.attemptFails c) := by
  unfold Network.attemptFails
  split
  · rename_i call hcall
    split
    · rename_i attempts number hwaiting
      have hlost {number' : ℕ} (hmem : number' ∉ n.lost++[number]) :
          number' ∉ n.lost ∧ number' ≠ number := by
        rw [List.mem_append, List.mem_singleton, not_or] at hmem
        exact hmem
      have hwaits {c' number' : ℕ} (hwait : n.Waits c' number') (hne : number' ≠ number) :
          (n.update c fun call => call.onResult number none).Waits c' number' := by
        apply waits_update hwait
        intro call' attempts' _ hstatus _
        exact BridgeCall.onResult_of_ne hstatus hne
      refine { h with waits := ?_, kept := ?_ }
      · intro q hq hmem
        exact hwaits (h.waits q hq (hlost hmem).1) (hlost hmem).2
      · intro x hx hmem
        rcases h.kept x hx (hlost hmem).1 with hwait | ⟨old,hold,hstatus⟩
        · exact .inl (hwaits hwait (hlost hmem).2)
        · refine .inr ⟨old,Network.getElem?_update_of_fixed hold ?_,hstatus⟩
          intro _
          exact BridgeCall.onResult_of_answered hstatus
    · exact h
  · exact h

/-- Of the copies one run sent, at most one that was taken is not lost. -/
theorem eq_of_call (h : Numbered n) {x y : Copy ι} (hx : x ∈ n.accepted) (hy : y ∈ n.accepted)
    (hxl : x.request.number ∉ n.lost) (hyl : y.request.number ∉ n.lost)
    (hcall : x.request.call = y.request.call) : x = y := by
  rcases h.kept x hx hxl with ⟨call,a,hc,hs⟩ | ⟨call,hc,hs⟩
  · rcases h.kept y hy hyl with ⟨call',a',hc',hs'⟩ | ⟨call',hc',hs'⟩
    · rw [hcall, hc'] at hc
      cases hc
      rw [hs'] at hs
      injection hs with _ hnumber
      exact h.eq_of_number hx hy hnumber.symm
    · rw [hcall, hc'] at hc
      cases hc
      rw [hs'] at hs
      cases hs
  · rcases h.kept y hy hyl with ⟨call',a',hc',hs'⟩ | ⟨call',hc',hs'⟩
    · rw [hcall, hc'] at hc
      cases hc
      rw [hs'] at hs
      cases hs
    · rw [hcall, hc'] at hc
      cases hc
      rw [hs'] at hs
      injection hs with hxy
      injection hxy with hxy
      exact hxy.symm

end Numbered

section Follows
variable {n : Network ι}

/-- No run starts, and a run that ended in an error stays so. -/
def Follows (calls calls' : List (BridgeCall ι (Copy ι))) : Prop :=
  ∀ (c : ℕ) (call' : BridgeCall ι (Copy ι)), calls'[c]? = some call' →
    ∃ call, calls[c]? = some call ∧ call'.toJob = call.toJob ∧
      (call.status = .answered none → call'.status = .answered none)

theorem Follows.refl (calls : List (BridgeCall ι (Copy ι))) : Follows calls calls :=
  fun _ call hcall => ⟨call,hcall,rfl,id⟩

theorem follows_update {c : ℕ} {f : BridgeCall ι (Copy ι) → BridgeCall ι (Copy ι)}
    (hjob : ∀ call, (f call).toJob = call.toJob)
    (hf : ∀ call, call.status = .answered none → f call = call) :
    Follows n.calls (n.update c f).calls := by
  intro c' call' hcall'
  obtain ⟨_,hcall⟩ | ⟨old,rfl,hold,rfl⟩ := Network.getElem?_update_cases hcall'
  · exact ⟨call',hcall,rfl,id⟩
  · exact ⟨old,hold,hjob old,fun h => by rw [hf old h, h]⟩

theorem follows_attempt (c : ℕ) : Follows n.calls (n.attempt c).calls := by
  unfold Network.attempt
  split
  · split
    · exact follows_update (fun call => call.toJob_onAttempt n.sent)
        fun call => BridgeCall.onAttempt_of_answered
    · exact .refl n.calls
  · exact .refl n.calls

theorem follows_deliver (number : ℕ) (buffer : Option (RoundBuffer (Copy ι))) :
    Follows n.calls (n.deliver number buffer).1.calls := by
  rcases n.deliver_cases number buffer with heq | ⟨q,_,heq | ⟨x,b,b',_,_,_,heq⟩⟩
  · rw [heq]
    exact .refl n.calls
  · rw [heq]
    exact .refl n.calls
  · rw [heq]
    exact .refl n.calls

theorem follows_answer (number : ℕ) : Follows n.calls (n.answer number).calls := by
  unfold Network.answer
  split
  · exact .refl n.calls
  · exact follows_update (fun call => call.toJob_onResult number _)
      fun call => BridgeCall.onResult_of_answered

theorem follows_attemptFails (c : ℕ) : Follows n.calls (n.attemptFails c).calls := by
  unfold Network.attemptFails
  split
  · split
    · exact follows_update (fun call => call.toJob_onResult _ none)
        fun call => BridgeCall.onResult_of_answered
    · exact .refl n.calls
  · exact .refl n.calls

end Follows

/-- A bridge run that its client did not give up and that has not ended in an error. -/
structure System.Live (s : System ι) (c : ℕ) (call : BridgeCall ι (Copy ι)) : Prop where
  entry : s.net.calls[c]? = some call
  kept : c ∉ s.abandoned
  status : call.status ≠ .answered none

/-- Each result has at most one live run, and while the client offers the result it waits for
that run. -/
structure Answerable (s : System ι) : Prop where
  unique : ∀ c c' call call', s.Live c call → s.Live c' call' → call.owner = call'.owner →
    call.train = call'.train → c = c'
  pending : ∀ c call, s.Live c call → call.train = (s.client call.owner).trained →
    (s.client call.owner).phase.offer ≠ none → (s.parties call.owner).pending = some c

namespace Answerable
variable {fleet : Fleet ι} {s : System ι}

theorem start (fleet : Fleet ι) : Answerable (System.start fleet) := by
  constructor
  · intro c c' call call' hlive
    cases hlive.entry
  · intro c call hlive
    cases hlive.entry

/-- Steps of bridges, server and wire. -/
theorem follows (h : Answerable s) {n : Network ι} {loop : RoundLoop (Copy ι)}
    {discarded : List ℕ} (hn : Follows s.net.calls n.calls) :
    Answerable { s with net := n, loop := loop, discarded := discarded } := by
  have hback {c : ℕ} {call' : BridgeCall ι (Copy ι)} (hlive : System.Live
      { s with net := n, loop := loop, discarded := discarded } c call') :
      ∃ call, s.Live c call ∧ call'.toJob = call.toJob := by
    obtain ⟨call,hcall,hjob,hstatus⟩ := hn c call' hlive.entry
    exact ⟨call,⟨hcall,hlive.kept,fun h => hlive.status (hstatus h)⟩,hjob⟩
  constructor
  · intro a b call call' ha hb howner htrain
    obtain ⟨old,hold,hjob⟩ := hback ha
    obtain ⟨old',hold',hjob'⟩ := hback hb
    rw [hjob, hjob'] at howner htrain
    exact h.unique a b old old' hold hold' howner htrain
  · intro c call hlive htrain hoffer
    obtain ⟨old,hold,hjob⟩ := hback hlive
    rw [hjob] at htrain hoffer ⊢
    exact h.pending c old hold htrain hoffer

variable [DecidableEq ι]

/-- One client moves on without a training. Whatever run it stops waiting for is live no more,
or the client has nothing in hand. -/
theorem continues (h : Answerable s) {i : ι} {p : Party} {abandoned : List ℕ}
    (hcont : (s.client i).Continues p.state)
    (habandoned : ∀ c, c ∈ s.abandoned → c ∈ abandoned)
    (hpending : p.state.phase.offer ≠ none → ∀ c call, s.net.calls[c]? = some call →
      c ∉ abandoned → call.status ≠ .answered none → (s.parties i).pending = some c →
      p.pending = some c) :
    Answerable { s with parties := Function.update s.parties i p, abandoned := abandoned } := by
  have hback {c : ℕ} {call : BridgeCall ι (Copy ι)} (hlive : System.Live
      { s with parties := Function.update s.parties i p, abandoned := abandoned } c call) :
      s.Live c call :=
    ⟨hlive.entry,fun hc => hlive.kept (habandoned c hc),hlive.status⟩
  constructor
  · intro a b call call' ha hb howner htrain
    exact h.unique a b call call' (hback ha) (hback hb) howner htrain
  · intro c call hlive htrain hoffer
    simp only [System.client] at htrain hoffer ⊢
    by_cases hi : call.owner = i
    · subst hi
      rw [Function.update_self] at htrain hoffer ⊢
      obtain ⟨o,ho⟩ := Option.ne_none_iff_exists'.mp hoffer
      have hold : (s.client call.owner).phase.offer ≠ none :=
        Option.ne_none_iff_exists'.mpr ⟨o,hcont.offer_eq_some ho⟩
      exact hpending hoffer c call hlive.entry hlive.kept hlive.status
        (h.pending c call (hback hlive) (htrain.trans hcont.1) hold)
    · rw [Function.update_of_ne hi] at htrain hoffer ⊢
      exact h.pending c call (hback hlive) htrain hoffer

theorem trains (h : Answerable s) (hsound : s.Sound fleet) {i : ι} {p : Party}
    (htrained : p.state.trained = (s.client i).trained+1) :
    Answerable (s.setParty i p) := by
  have hback {c : ℕ} {call : BridgeCall ι (Copy ι)} (hlive : (s.setParty i p).Live c call) :
      s.Live c call := ⟨hlive.entry,hlive.kept,hlive.status⟩
  constructor
  · intro a b call call' ha hb howner htrain
    exact h.unique a b call call' (hback ha) (hback hb) howner htrain
  · intro c call hlive htrain hoffer
    simp only [System.client, System.setParty] at htrain hoffer ⊢
    by_cases hi : call.owner = i
    · have hle := hsound.offered.trained call.toJob
        (List.mem_of_getElem? (Network.jobs_of_call hlive.entry))
      rw [hi, Function.update_self, htrained, System.client] at htrain
      rw [hi] at hle
      omega
    · rw [Function.update_of_ne hi] at htrain hoffer ⊢
      exact h.pending c call (hback hlive) htrain hoffer

theorem submits (h : Answerable s) {i : ι} {call : BridgeCall ι (Copy ι)}
    (howner : call.owner = i) (htrain : call.train = (s.client i).trained)
    (hpending : (s.parties i).pending = none) (hoffer : (s.client i).phase.offer ≠ none) :
    Answerable { s.setParty i { s.parties i with pending := some s.net.calls.length } with
      net := s.net.submit call } := by
  have hback {c : ℕ} {call' : BridgeCall ι (Copy ι)} (hlive : System.Live
      { s.setParty i { s.parties i with pending := some s.net.calls.length } with
        net := s.net.submit call } c call') :
      s.Live c call' ∨ c = s.net.calls.length ∧ call' = call := by
    have hentry : (s.net.calls++[call])[c]? = some call' := hlive.entry
    rcases Nat.lt_or_ge c s.net.calls.length with hlt | hge
    · rw [List.getElem?_append_left hlt] at hentry
      exact .inl ⟨hentry,hlive.kept,hlive.status⟩
    · rw [List.getElem?_append_right hge, List.getElem?_singleton] at hentry
      split at hentry
      · exact .inr ⟨by omega,(Option.some.inj hentry).symm⟩
      · cases hentry
  -- no other run for the result in hand is live, since the client would be waiting for it
  have hnone {c : ℕ} {call' : BridgeCall ι (Copy ι)} (hlive : s.Live c call')
      (howner' : call'.owner = i) : call'.train ≠ call.train := by
    intro htrain'
    subst howner'
    have hwait := h.pending c call' hlive (htrain'.trans htrain) hoffer
    rw [hpending] at hwait
    cases hwait
  constructor
  · intro a b old old' ha hb howners htrains
    rcases hback ha with ha | ⟨ha,hold⟩
    · rcases hback hb with hb | ⟨hb,hold'⟩
      · exact h.unique a b old old' ha hb howners htrains
      · rw [hold'] at howners htrains
        exact absurd htrains (hnone ha (howners.trans howner))
    · rcases hback hb with hb | ⟨hb,hold'⟩
      · rw [hold] at howners htrains
        exact absurd htrains.symm (hnone hb (howners.symm.trans howner))
      · rw [ha, hb]
  · intro c call' hlive htrain' hoffer'
    simp only [System.client, System.setParty] at htrain' hoffer' ⊢
    rcases hback hlive with hold | ⟨rfl,rfl⟩
    · by_cases hi : call'.owner = i
      · rw [hi, Function.update_self] at htrain'
        exact absurd (htrain'.trans htrain.symm) (hnone hold hi)
      · rw [Function.update_of_ne hi] at htrain' hoffer' ⊢
        exact h.pending c call' hold htrain' hoffer'
    · rw [howner, Function.update_self]

/-- The client learns how the run it waits for ended. -/
theorem returned (h : Answerable s) (hsound : s.Sound fleet) {i : ι} {c : ℕ}
    {call : BridgeCall ι (Copy ι)} {acceptance : Option (Copy ι)}
    (hpending : (s.parties i).pending = some c) (hcall : s.net.calls[c]? = some call)
    (hstatus : call.status = .answered acceptance) :
    Answerable (s.setParty i { s.parties i with
      state := (s.client i).onSubmit (fleet.config i) acceptance.isSome
      pending := none }) := by
  refine h.continues (ClientState.continues_onSubmit _) (fun _ hc => hc) ?_
  intro hoffer c' call' hcall' hkept hlive hpending'
  rw [hpending] at hpending'
  cases hpending'
  rw [hcall] at hcall'
  cases hcall'
  cases acceptance with
  | none => exact absurd hstatus hlive
  | some x =>
    obtain ⟨⟨round,raw,hphase⟩,_⟩ := hsound.offered.pending i c hpending
    have hdone : ((s.client i).onSubmit (fleet.config i) true).phase.offer = none := by
      simp only [ClientState.onSubmit, System.client, hphase, if_true]
      exact ClientState.offer_loopHead _
    exact absurd hdone hoffer

theorem step (h : Answerable s) (hsound : s.Sound fleet) (e : SystemEvent ι) :
    Answerable (s.step fleet e) := by
  cases e with
  | server m => exact h.follows (.refl _)
  | serveFetch i =>
    have hfetch : Answerable (s.setParty i { s.parties i with fetched := some s.loop.round }) :=
      h.continues ⟨rfl,.inr rfl⟩ (fun _ hc => hc) fun _ _ _ _ _ _ hc => hc
    rw [System.step]
    rcases s.serveFetch_cases i with heq | heq <;> rw [heq]
    · exact hfetch
    · exact h
  | receiveFetch i trained =>
    simp only [System.step, System.receiveFetch]
    split
    · rename_i round _
      rcases ClientState.onTask_cases (fleet.config i) (s.client i) round trained with
        hcont | ⟨_,result,heq⟩
      · exact Answerable.continues (i := i) h hcont (fun _ hc => hc) fun _ _ _ _ _ _ hc => hc
      · rw [heq]
        exact h.trains hsound rfl
    · exact h
  | fetchFails i =>
    exact h.continues ClientState.continues_onFetchError (fun _ hc => hc) fun _ _ _ _ _ _ hc => hc
  | submit i noise =>
    simp only [System.step, System.submit]
    split
    · rename_i round raw hphase hpending
      obtain ⟨chunks,status,hcall,_,_⟩ := BridgeCall.submit_spec (Copy ι)
        (fleet.privacy i) noise i (s.client i).trained raw
      have hoffer : (s.client i).phase.offer ≠ none := by
        rw [hphase]
        exact Option.some_ne_none _
      rw [hcall]
      exact h.submits rfl rfl hpending hoffer
    · exact h
  | submitFails i =>
    simp only [System.step, System.submitFails]
    split
    · rename_i c hpending
      refine Answerable.continues (i := i) h (ClientState.continues_onSubmit false)
        (fun _ hc => List.mem_append_left _ hc) ?_
      intro _ c' _ _ hkept _ hpending'
      rw [hpending] at hpending'
      cases hpending'
      exact absurd (List.mem_append_right _ (List.mem_singleton.mpr rfl)) hkept
    · exact h
  | attempt c => exact h.follows (follows_attempt c)
  | deliver number => exact h.follows (follows_deliver number _)
  | answer number => exact h.follows (follows_answer number)
  | attemptFails c => exact h.follows (follows_attemptFails c)
  | returns i =>
    rw [System.step]
    rcases s.returns_cases fleet i with heq | ⟨c,call,acceptance,hpending,hcall,hstatus,heq⟩ <;>
      rw [heq]
    · exact h
    · exact h.returned hsound hpending hcall hstatus

end Answerable

section Count
variable {fleet : Fleet ι} {s : System ι}

/-- The acknowledgement of a copy is lost: its attempt failed on the wire, or the client saw an
error of the local hop. -/
def System.AckLost (s : System ι) (x : Copy ι) : Prop :=
  x.request.number ∈ s.net.lost ∨ x.request.call ∈ s.abandoned

instance (s : System ι) (x : Copy ι) : Decidable (s.AckLost x) :=
  inferInstanceAs (Decidable (_ ∨ _))

def Copy.IsOf (x : Copy ι) (i : ι) (train : ℕ) : Prop := x.owner = i ∧ x.train = train

instance [DecidableEq ι] (x : Copy ι) (i : ι) (train : ℕ) : Decidable (x.IsOf i train) :=
  inferInstanceAs (Decidable (_ ∧ _))

/-- Everything that keeps the copies of a result apart. -/
structure Counted (fleet : Fleet ι) (s : System ι) : Prop where
  sound : s.Sound fleet
  numbered : Numbered s.net
  answerable : Answerable s
  taken : s.loop.attempt.Sublist s.net.accepted

/-- The run of a copy that was taken and whose acknowledgement is not lost is live. -/
theorem Counted.live (h : Counted fleet s) {x : Copy ι} (hx : x ∈ s.net.accepted)
    (hack : ¬ s.AckLost x) : ∃ call, s.Live x.request.call call ∧ call.toJob = x.request.job := by
  rw [System.AckLost, not_or] at hack
  have hjob (call : BridgeCall ι (Copy ι)) (hcall : s.net.calls[x.request.call]? = some call) :
      call.toJob = x.request.job := by
    have hreceived := (h.sound.traced.received x (h.sound.traced.accepted hx)).1
    rw [Network.jobs_of_call hcall] at hreceived
    exact Option.some.inj hreceived
  rcases h.numbered.kept x hx hack.1 with ⟨call,a,hcall,hstatus⟩ | ⟨call,hcall,hstatus⟩
  · exact ⟨call,⟨hcall,hack.2,by rw [hstatus]; simp⟩,hjob call hcall⟩
  · exact ⟨call,⟨hcall,hack.2,by rw [hstatus]; simp⟩,hjob call hcall⟩

/-- Of the copies of one result, at most one is taken without its acknowledgement being lost. -/
theorem Counted.eq_of_result (h : Counted fleet s) {x y : Copy ι} (hx : x ∈ s.net.accepted)
    (hy : y ∈ s.net.accepted) (hxa : ¬ s.AckLost x) (hya : ¬ s.AckLost y)
    (howner : x.owner = y.owner) (htrain : x.train = y.train) : x = y := by
  obtain ⟨call,hlive,hjob⟩ := h.live hx hxa
  obtain ⟨call',hlive',hjob'⟩ := h.live hy hya
  have hcall : x.request.call = y.request.call := by
    apply h.answerable.unique _ _ call call' hlive hlive'
    · rw [hjob, hjob']
      exact howner
    · rw [hjob, hjob']
      exact htrain
  rw [System.AckLost, not_or] at hxa hya
  exact h.numbered.eq_of_call hx hy hxa.1 hya.1 hcall

theorem countP_le_one {α : Type} {l : List α} {p : α → Bool} (hl : l.Nodup)
    (h : ∀ x ∈ l, ∀ y ∈ l, p x = true → p y = true → x = y) : l.countP p ≤ 1 := by
  rw [List.countP_eq_length_filter]
  cases hf : l.filter p with
  | nil => exact Nat.zero_le 1
  | cons a t =>
    cases t with
    | nil => exact le_rfl
    | cons b t =>
      have hnodup := hl.filter p
      rw [hf] at hnodup
      have ha : a ∈ l.filter p := by simp [hf]
      have hb : b ∈ l.filter p := by simp [hf]
      rw [List.mem_filter] at ha hb
      have hab := h a ha.1 b hb.1 ha.2 hb.2
      simp [hab] at hnodup

variable [DecidableEq ι]

theorem Numbered.step (h : Numbered s.net) (htraced : s.net.Traced) (e : SystemEvent ι) :
    Numbered (s.step fleet e).net := by
  apply System.step_wire (s := s) (P := fun _ n => Numbered n)
  · exact h
  · intro _ _
    exact h
  · intro i noise round raw _ _ _
    exact h.submit _
  · exact h.attempt
  · intro number
    exact h.deliver htraced number _
  · exact h.answer htraced
  · exact h.attemptFails

omit [DecidableEq ι] in
theorem taken_deliver (h : s.loop.attempt.Sublist s.net.accepted) (number : ℕ) :
    (RoundLoop.attempt
      { s.loop with buffer := (s.net.deliver number s.loop.buffer).2 }).Sublist
      (s.net.deliver number s.loop.buffer).1.accepted := by
  rcases s.net.deliver_cases number s.loop.buffer with heq | ⟨q,_,heq | ⟨x,b,b',_,hb,hpush,heq⟩⟩
  · rw [heq]
    exact h
  · rw [heq]
    exact h
  · have hloop : s.loop = ⟨s.loop.round,some b,s.loop.phase⟩ := by rw [← hb]
    rw [heq]
    change (RoundLoop.attempt ⟨s.loop.round,some b',s.loop.phase⟩).Sublist (s.net.accepted++[x])
    rw [RoundLoop.attempt_push _ _ hpush, ← hloop]
    apply h.append
    split
    · exact List.Sublist.refl _
    · exact List.nil_sublist _

theorem taken_step (h : s.loop.attempt.Sublist s.net.accepted) (e : SystemEvent ι) :
    (s.step fleet e).loop.attempt.Sublist (s.step fleet e).net.accepted := by
  apply System.step_wire (s := s) (P := fun l n => l.attempt.Sublist n.accepted)
  · exact h
  · intro m _
    exact (s.loop.attempt_move m).trans h
  · intro i noise round raw _ _ _
    exact h
  · intro c
    rwa [Network.accepted_attempt]
  · exact taken_deliver h
  · intro number
    rwa [Network.accepted_answer]
  · intro c
    rwa [Network.accepted_attemptFails]

theorem Counted.step (h : Counted fleet s) (e : SystemEvent ι) :
    Counted fleet (s.step fleet e) :=
  ⟨h.sound.step e,h.numbered.step h.sound.traced e,h.answerable.step h.sound e,taken_step h.taken e⟩

theorem counted_run (fleet : Fleet ι) (events : List (SystemEvent ι)) :
    Counted fleet (System.run fleet events) := by
  have hstart : Counted fleet (System.start fleet) :=
    ⟨System.sound_start fleet,.start,.start fleet,List.nil_sublist _⟩
  exact Run.after_of_kept (Counted fleet) hstart fun s e h => h.step e

/-- In every run, the batch a round flushes holds one copy of a result, and one more for each of
its copies whose acknowledgement was lost. -/
theorem countP_flushed_le (fleet : Fleet ι) (events : List (SystemEvent ι)) (i : ι) (train : ℕ) :
    (System.run fleet events).loop.flushed.countP (fun x => x.IsOf i train) ≤
      1+(System.run fleet events).loop.flushed.countP
        (fun x => x.IsOf i train ∧ (System.run fleet events).AckLost x) := by
  have h := counted_run fleet events
  generalize System.run fleet events = s at h ⊢
  have hsub := s.loop.flushed_sublist.trans h.taken
  have hnodup : s.loop.flushed.Nodup := (List.Nodup.of_map _ h.numbered.distinct).sublist hsub
  have hone : s.loop.flushed.countP (fun x => x.IsOf i train ∧ ¬ s.AckLost x) ≤ 1 := by
    apply countP_le_one hnodup
    intro x hx y hy hpx hpy
    rw [decide_eq_true_eq] at hpx hpy
    apply h.eq_of_result (hsub.subset hx) (hsub.subset hy) hpx.2 hpy.2
    · rw [hpx.1.1, hpy.1.1]
    · rw [hpx.1.2, hpy.1.2]
  have hsplit : s.loop.flushed.countP (fun x => x.IsOf i train) =
      s.loop.flushed.countP (fun x => x.IsOf i train ∧ s.AckLost x)+
        s.loop.flushed.countP (fun x => x.IsOf i train ∧ ¬ s.AckLost x) := by
    induction s.loop.flushed with
    | nil => rfl
    | cons x l ih =>
      simp only [List.countP_cons, ih, decide_eq_true_eq]
      by_cases hx : x.IsOf i train <;> by_cases ha : s.AckLost x <;> simp [hx, ha] <;> omega
  omega

end Count

/-- The first copy is taken, its acknowledgement is lost, and the second copy is taken too. -/
def retriedAttempt : List (SystemEvent Unit) :=
  [.server (.opens 2),.serveFetch (),.receiveFetch () (some ⟨[F32.one],1,none,none,none⟩),
    .submit () fun _ => F32.zero,.attempt 0,.deliver 0,.attemptFails 0,.attempt 0,.deliver 1,
    .server (.flush false)]

theorem not_atMostOnce_retriedAttempt :
    ¬ (System.run (.single none) retriedAttempt).loop.flushed.countP (fun x => x.IsOf () 1) ≤ 1 := by
  decide +kernel

end ConfluxFL
