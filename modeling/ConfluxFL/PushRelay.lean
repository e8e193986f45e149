import Mathlib.Data.List.Induction
import ConfluxFL.Lib.Run
import ConfluxFL.Node

/-! The relay between a pushed subscription and the local client: it forwards what the server
delivers, subscribes again when the stream is gone, and gives up after three subscriptions in a
row that delivered nothing. Waiting for room in the channel to the client only delays a send. -/
namespace ConfluxFL

/-- In milliseconds. -/
def initialBackoff : ℕ := 50

/-- How a stream ends: closed by the server, or broken off. -/
inductive StreamEnd | closed | failed
  deriving DecidableEq, Repr

inductive RelayEvent where
  | subscribeFails
  | subscribed
  | delivers (task : TaskResponse)
  | ends (how : StreamEnd)
  /-- The local receiver is dropped. -/
  | hangsUp

inductive RelayPhase where
  | subscribing
  | streaming (deliveredAny : Bool)
  | ended
  deriving DecidableEq, Repr

/-- The relay, the sleeps so far, and what went into the channel. -/
structure Relay where
  phase : RelayPhase
  consecutiveFailures : ℕ
  backoff : ℕ
  delays : List ℕ
  channel : List (Except String TaskResponse)
  receiverOpen : Bool

def gaveUpText (failures : ℕ) : String :=
  s!"push subscription to conflux-server failed {failures} consecutive times "++
    "without delivering a task"

namespace Relay

def start : Relay := ⟨.subscribing,0,initialBackoff,[],[],true⟩

/-- A send fails when the receiver is gone. -/
def send (s : Relay) (item : Except String TaskResponse) : Relay :=
  if s.receiverOpen then { s with channel := s.channel++[item] } else s

/-- The end of the loop body: give up, or sleep and subscribe again. -/
def retry (s : Relay) : Relay :=
  if maxAttempts ≤ s.consecutiveFailures then
    { s.send (.error (gaveUpText s.consecutiveFailures)) with phase := .ended }
  else
    { s with phase := .subscribing, delays := s.delays++[s.backoff], backoff := s.backoff*2 }

/-- A task is relayed, and ends the relay when the receiver is gone. -/
def deliver (s : Relay) (task : TaskResponse) : Relay :=
  let s := { s with consecutiveFailures := 0, backoff := initialBackoff }
  { s.send (.ok task) with phase := if s.receiverOpen then .streaming true else .ended }

/-- An event that the relay does not wait for is no event. -/
def step (s : Relay) (e : RelayEvent) : Relay :=
  match s.phase,e with
  | .subscribing,.subscribeFails =>
    { s with consecutiveFailures := s.consecutiveFailures+1 }.retry
  | .subscribing,.subscribed => { s with phase := .streaming false }
  | .streaming _,.delivers task => s.deliver task
  | .streaming deliveredAny,.ends _ =>
    if deliveredAny then s.retry
    else { s with consecutiveFailures := s.consecutiveFailures+1 }.retry
  | _,.hangsUp => { s with receiverOpen := false }
  | _,_ => s

def run (events : List RelayEvent) : Relay := Run.after step start events

end Relay

/-- One call of `subscribe_tasks` and what came of it. -/
inductive Subscription where
  | refused
  | accepted (tasks : List TaskResponse) (how : StreamEnd)

namespace Subscription

def tasks : Subscription → List TaskResponse
  | refused => []
  | accepted tasks _ => tasks

def events : Subscription → List RelayEvent
  | refused => [.subscribeFails]
  | accepted tasks how => .subscribed::tasks.map .delivers++[.ends how]

end Subscription

/-- What happens upstream: subscriptions that are over, and the tasks of one that is open. -/
structure Upstream where
  past : List Subscription
  current : Option (List TaskResponse)

/-- How many subscriptions at the end of a list delivered nothing. -/
def barrenTail (past : List Subscription) : ℕ :=
  (past.reverse.takeWhile fun a => a.tasks.isEmpty).length

namespace Upstream

def events (u : Upstream) : List RelayEvent :=
  u.past.flatMap Subscription.events++
    (u.current.map fun tasks => .subscribed::tasks.map RelayEvent.delivers).getD []

def delivered (u : Upstream) : List TaskResponse :=
  u.past.flatMap Subscription.tasks++u.current.getD []

/-- The last three of these subscriptions delivered nothing, and no earlier three in a row. -/
def GivesUpAfter (u : Upstream) (past : List Subscription) : Prop :=
  past <+: u.past ∧ maxAttempts ≤ barrenTail past ∧
    ∀ earlier, earlier <+: past → maxAttempts ≤ barrenTail earlier → earlier = past

end Upstream

/-- What the relay is to do with this much of an upstream. While no three subscriptions in a row
delivered nothing, the channel gets the delivered tasks; with the third it gets one error, and
nothing after; once the receiver has hung up it gets nothing more, whatever happens; and every
sleep is between 50 and 200 milliseconds. -/
structure RelaysFaithfully (u : Upstream) : Prop where
  forwards : (∀ past, ¬u.GivesUpAfter past) →
    (Relay.run u.events).channel = u.delivered.map .ok
  givesUp : ∀ past, u.GivesUpAfter past → (Relay.run u.events).channel =
    (past.flatMap Subscription.tasks).map .ok++[.error (gaveUpText maxAttempts)]
  hungUp : ∀ later, (Relay.run (u.events++.hangsUp::later)).channel = (Relay.run u.events).channel
  sleeps : ∀ later, ∀ d ∈ (Relay.run (u.events++later)).delays, 50 ≤ d ∧ d ≤ 200

section Steps
variable {s : Relay}

theorem send_channel (ho : s.receiverOpen = true) (item : Except String TaskResponse) :
    (s.send item).channel = s.channel++[item] := by
  rw [Relay.send, if_pos ho]

theorem send_closed (hc : s.receiverOpen = false) (item : Except String TaskResponse) :
    s.send item = s := by
  rw [Relay.send, hc]
  rfl

/-- The relay does not come back, whatever happens upstream. -/
theorem ended_step (hs : s.phase = .ended) (e : RelayEvent) :
    (s.step e).phase = .ended ∧ (s.step e).channel = s.channel := by
  cases e <;> simp [Relay.step,hs]

theorem ended_after (hs : s.phase = .ended) (es : List RelayEvent) :
    (Run.after Relay.step s es).channel = s.channel := by
  induction es generalizing s with
  | nil => rfl
  | cons e es ih =>
    obtain ⟨hp,hc⟩ := ended_step hs e
    rw [Run.after_cons, ih hp, hc]

theorem retry_closed (hc : s.receiverOpen = false) :
    s.retry.receiverOpen = false ∧ s.retry.channel = s.channel := by
  rw [Relay.retry]
  split
  · rw [send_closed hc]
    exact ⟨hc,rfl⟩
  · exact ⟨hc,rfl⟩

/-- Nothing more is received once the receiver is gone. -/
theorem closed_step (hc : s.receiverOpen = false) (e : RelayEvent) :
    (s.step e).receiverOpen = false ∧ (s.step e).channel = s.channel := by
  have hretry : ({ s with consecutiveFailures := s.consecutiveFailures+1 } : Relay).retry.receiverOpen
      = false ∧ ({ s with consecutiveFailures := s.consecutiveFailures+1 } : Relay).retry.channel
      = s.channel := retry_closed hc
  unfold Relay.step
  split
  · exact hretry
  · exact ⟨hc,rfl⟩
  · simp [Relay.deliver,Relay.send,hc]
  · split
    · exact retry_closed hc
    · exact hretry
  · exact ⟨rfl,rfl⟩
  · exact ⟨hc,rfl⟩

theorem closed_after (hc : s.receiverOpen = false) (es : List RelayEvent) :
    (Run.after Relay.step s es).channel = s.channel := by
  induction es generalizing s with
  | nil => rfl
  | cons e es ih =>
    obtain ⟨ho,hk⟩ := closed_step hc e
    rw [Run.after_cons, ih ho, hk]

theorem hangsUp_step : (s.step .hangsUp).receiverOpen = false ∧
    (s.step .hangsUp).channel = s.channel := by
  cases h : s.phase <;> simp [Relay.step,h]

end Steps

/-! One subscription after another, with the receiver open. -/

/-- The relay has forwarded what these subscriptions delivered and is to subscribe again. -/
structure Forwards (past : List Subscription) (s : Relay) : Prop where
  subscribing : s.phase = .subscribing
  failures : s.consecutiveFailures = barrenTail past
  receiverOpen : s.receiverOpen = true
  channel : s.channel = (past.flatMap Subscription.tasks).map .ok

theorem barrenTail_concat (past : List Subscription) (a : Subscription) :
    barrenTail (past++[a]) = if a.tasks.isEmpty then barrenTail past+1 else 0 := by
  rw [barrenTail, List.reverse_append, List.reverse_singleton, List.singleton_append,
    List.takeWhile_cons]
  split <;> rfl

theorem flatMap_concat {α β : Type*} (f : α → List β) (xs : List α) (x : α) :
    (xs++[x]).flatMap f = xs.flatMap f++f x := by
  rw [List.flatMap_append, List.flatMap_singleton]

/-- Reading an open stream: each task resets the failures and goes into the channel. -/
theorem after_delivers (tasks : List TaskResponse) {s : Relay} {deliveredAny : Bool}
    (hp : s.phase = .streaming deliveredAny) (ho : s.receiverOpen = true) :
    (Run.after Relay.step s (tasks.map .delivers)).phase =
        .streaming (deliveredAny || !tasks.isEmpty) ∧
      (Run.after Relay.step s (tasks.map .delivers)).consecutiveFailures =
        (if tasks.isEmpty then s.consecutiveFailures else 0) ∧
      (Run.after Relay.step s (tasks.map .delivers)).receiverOpen = true ∧
      (Run.after Relay.step s (tasks.map .delivers)).channel = s.channel++tasks.map .ok := by
  induction tasks generalizing s deliveredAny with
  | nil => simp [hp,ho]
  | cons task tasks ih =>
    have hstep : s.step (.delivers task) = { s with
        phase := .streaming true
        consecutiveFailures := 0
        backoff := initialBackoff
        channel := s.channel++[.ok task] } := by
      simp [Relay.step,hp,Relay.deliver,Relay.send,ho]
    have hp' : (s.step (.delivers task)).phase = .streaming true := by
      rw [hstep]
    obtain ⟨hphase,hfail,hopen,hchan⟩ := ih hp' (by rw [hstep, ho])
    rw [List.map_cons, Run.after_cons]
    refine ⟨?_,?_,hopen,?_⟩
    · rw [hphase]
      simp
    · rw [hfail, hstep]
      simp
    · rw [hchan, hstep, List.map_cons, List.append_assoc]
      rfl

section Retrying
variable {s : Relay}

theorem retry_again (h : s.consecutiveFailures < maxAttempts) :
    s.retry.phase = .subscribing ∧ s.retry.consecutiveFailures = s.consecutiveFailures ∧
      s.retry.receiverOpen = s.receiverOpen ∧ s.retry.channel = s.channel := by
  rw [Relay.retry, if_neg h.not_ge]
  exact ⟨rfl,rfl,rfl,rfl⟩

theorem retry_givesUp (h : maxAttempts ≤ s.consecutiveFailures) (ho : s.receiverOpen = true) :
    s.retry.phase = .ended ∧
      s.retry.channel = s.channel++[.error (gaveUpText s.consecutiveFailures)] := by
  rw [Relay.retry, if_pos h]
  exact ⟨rfl,send_channel ho _⟩

end Retrying

/-- A subscription comes down to one `retry`, with the tasks relayed and the failures counted. -/
theorem after_subscription {past : List Subscription} {s : Relay} (h : Forwards past s)
    (a : Subscription) : ∃ t : Relay, Run.after Relay.step s a.events = t.retry ∧
      t.consecutiveFailures = barrenTail (past++[a]) ∧ t.receiverOpen = true ∧
      t.channel = ((past++[a]).flatMap Subscription.tasks).map .ok := by
  rw [barrenTail_concat, flatMap_concat, List.map_append, ← h.channel, ← h.failures]
  cases a with
  | refused =>
    refine ⟨{ s with consecutiveFailures := s.consecutiveFailures+1 },?_,?_,h.receiverOpen,?_⟩
    · simp [Subscription.events,Relay.step,h.subscribing]
    · rfl
    · simp [Subscription.tasks]
  | accepted tasks how =>
    have hsub : s.step .subscribed = { s with phase := .streaming false } := by
      simp [Relay.step,h.subscribing]
    obtain ⟨hphase,hfail,hopen,hchan⟩ := after_delivers tasks (s := s.step .subscribed)
      (by rw [hsub]) (by rw [hsub, h.receiverOpen])
    have hf : (s.step .subscribed).consecutiveFailures = s.consecutiveFailures := by
      rw [hsub]
    have hc : (s.step .subscribed).channel = s.channel := by
      rw [hsub]
    rw [hf] at hfail
    rw [hc] at hchan
    simp only [Subscription.events, Run.after_cons, Run.after_append, Run.after_nil]
    generalize Run.after Relay.step (s.step .subscribed) (tasks.map .delivers) = r at *
    cases tasks with
    | nil =>
      refine ⟨{ r with consecutiveFailures := r.consecutiveFailures+1 },?_,?_,hopen,?_⟩
      · simp [Relay.step,hphase]
      · simpa [Subscription.tasks] using hfail
      · simpa [Subscription.tasks] using hchan
    | cons task tasks =>
      refine ⟨r,?_,?_,hopen,?_⟩
      · simp [Relay.step,hphase]
      · simpa [Subscription.tasks] using hfail
      · simpa [Subscription.tasks] using hchan

theorem Forwards.next {past : List Subscription} {s : Relay} (h : Forwards past s)
    (a : Subscription) (hfew : barrenTail (past++[a]) < maxAttempts) :
    Forwards (past++[a]) (Run.after Relay.step s a.events) := by
  obtain ⟨t,ht,hfail,hopen,hchan⟩ := after_subscription h a
  rw [← hfail] at hfew
  obtain ⟨hp,hf,ho,hc⟩ := retry_again hfew
  rw [ht]
  exact ⟨hp,hf.trans hfail,ho.trans hopen,hc.trans hchan⟩

theorem forwards_start : Forwards [] Relay.start := ⟨rfl,rfl,rfl,rfl⟩

theorem forwards_past (past : List Subscription)
    (hfew : ∀ earlier, earlier <+: past → barrenTail earlier < maxAttempts) :
    Forwards past (Relay.run (past.flatMap Subscription.events)) := by
  induction past using List.reverseRecOn with
  | nil => exact forwards_start
  | append_singleton past a ih =>
    have hpast := ih fun earlier he => hfew earlier (he.trans (List.prefix_append past [a]))
    rw [flatMap_concat, Relay.run, Run.after_append]
    exact hpast.next a (hfew _ (List.prefix_refl _))

/-- Giving up: the third barren subscription in a row puts one error into the channel. -/
theorem run_givesUp {past : List Subscription} (hmany : maxAttempts ≤ barrenTail past)
    (hfirst : ∀ earlier, earlier <+: past → maxAttempts ≤ barrenTail earlier → earlier = past) :
    (Relay.run (past.flatMap Subscription.events)).phase = .ended ∧
      (Relay.run (past.flatMap Subscription.events)).channel =
        (past.flatMap Subscription.tasks).map .ok++[.error (gaveUpText maxAttempts)] := by
  obtain rfl | ⟨past,a,rfl⟩ := List.eq_nil_or_concat' past
  · exact absurd hmany (by decide)
  have hfew : ∀ earlier, earlier <+: past → barrenTail earlier < maxAttempts := by
    intro earlier he
    by_contra hge
    have heq := hfirst earlier (he.trans (List.prefix_append past [a])) (Nat.le_of_not_lt hge)
    have hlen := he.length_le
    rw [heq, List.length_append, List.length_singleton] at hlen
    omega
  have hpast := forwards_past past hfew
  -- the third in a row follows two, so the count is three
  have hcount : barrenTail (past++[a]) = maxAttempts := by
    have hlt := hfew past (List.prefix_refl past)
    rw [barrenTail_concat] at hmany ⊢
    split at hmany
    · rename_i hb
      rw [if_pos hb]
      omega
    · exact absurd hmany (by decide)
  obtain ⟨t,ht,hfail,hopen,hchan⟩ := after_subscription hpast a
  have hgive := retry_givesUp (by rw [hfail, hcount]) hopen
  rw [flatMap_concat, Relay.run, Run.after_append, ← Relay.run, ht, hgive.1, hgive.2, hfail, hcount,
    hchan]
  exact ⟨rfl,rfl⟩

/-! The sleeps. -/

/-- The backoff doubles with each failure, and has doubled once more after a sleep that followed
a delivery. -/
structure Paced (s : Relay) : Prop where
  failures : s.phase ≠ .ended → s.consecutiveFailures < maxAttempts
  least : 50 ≤ s.backoff
  most : s.phase ≠ .ended → s.backoff ≤ 100*2^s.consecutiveFailures
  delivered : s.phase = .streaming true → s.consecutiveFailures = 0 ∧ s.backoff = initialBackoff
  delays : ∀ d ∈ s.delays, 50 ≤ d ∧ d ≤ 200

theorem send_paced {s : Relay} (item : Except String TaskResponse) :
    (s.send item).backoff = s.backoff ∧ (s.send item).delays = s.delays ∧
      (s.send item).consecutiveFailures = s.consecutiveFailures := by
  rw [Relay.send]
  split <;> exact ⟨rfl,rfl,rfl⟩

/-- Ending the loop body keeps the pace when the backoff is still within 200 milliseconds. -/
theorem retry_paced {s : Relay} (hleast : 50 ≤ s.backoff)
    (hmost : s.consecutiveFailures < maxAttempts → s.backoff ≤ 50*2^s.consecutiveFailures)
    (hd : ∀ d ∈ s.delays, 50 ≤ d ∧ d ≤ 200) : Paced s.retry := by
  by_cases h : maxAttempts ≤ s.consecutiveFailures
  · obtain ⟨hb,hdel,-⟩ := send_paced (s := s) (.error (gaveUpText s.consecutiveFailures))
    rw [Relay.retry, if_pos h]
    exact ⟨fun hp => absurd rfl hp,hb ▸ hleast,fun hp => absurd rfl hp,nofun,hdel ▸ hd⟩
  · have hfew : s.consecutiveFailures < maxAttempts := Nat.lt_of_not_le h
    have hb := hmost hfew
    have hpow : 2^s.consecutiveFailures ≤ 2^2 :=
      Nat.pow_le_pow_right (by decide) (Nat.le_of_lt_succ hfew)
    rw [Relay.retry, if_neg h]
    refine ⟨fun _ => hfew,?_,fun _ => ?_,nofun,?_⟩
    · change 50 ≤ s.backoff*2
      omega
    · change s.backoff*2 ≤ 100*2^s.consecutiveFailures
      omega
    · intro d hmem
      rcases List.mem_append.mp hmem with hold | hnew
      · exact hd d hold
      · rw [List.mem_singleton.mp hnew]
        omega

theorem Paced.step {s : Relay} (h : Paced s) (e : RelayEvent) : Paced (s.step e) := by
  have hfails (hp : s.phase ≠ .ended) :
      Paced ({ s with consecutiveFailures := s.consecutiveFailures+1 } : Relay).retry := by
    have hb := h.most hp
    refine retry_paced h.least (fun _ => ?_) h.delays
    change s.backoff ≤ 50*2^(s.consecutiveFailures+1)
    rw [pow_succ]
    omega
  unfold Relay.step
  split
  · rename_i hp
    exact hfails (by rw [hp]; nofun)
  · rename_i hp
    have hp' : s.phase ≠ .ended := by
      rw [hp]
      nofun
    exact ⟨fun _ => h.failures hp',h.least,fun _ => h.most hp',nofun,h.delays⟩
  · rename_i task hp
    obtain ⟨hb,hdel,hf⟩ := send_paced (.ok task)
      (s := { s with consecutiveFailures := 0, backoff := initialBackoff })
    rw [Relay.deliver]
    refine ⟨fun _ => ?_,?_,fun _ => ?_,fun _ => ⟨hf,hb⟩,?_⟩
    · exact hf ▸ Nat.zero_lt_succ 2
    · exact hb ▸ Nat.le_refl 50
    · change (Relay.send _ _).backoff ≤ 100*2^(Relay.send _ _).consecutiveFailures
      rw [hb, hf]
      change initialBackoff ≤ 100*2^0
      decide
    · change ∀ d ∈ (Relay.send _ _).delays,_
      rw [hdel]
      exact h.delays
  · rename_i deliveredAny how hp
    split
    · rename_i hany
      obtain ⟨hf,hb⟩ := h.delivered (by rw [hp, hany])
      refine retry_paced h.least (fun _ => ?_) h.delays
      rw [hf, hb]
      decide
    · exact hfails (by rw [hp]; nofun)
  · exact ⟨h.failures,h.least,h.most,h.delivered,h.delays⟩
  · exact h

theorem paced_run (es : List RelayEvent) : Paced (Relay.run es) :=
  Run.after_of_kept Paced
    ⟨fun _ => by decide,by decide,fun _ => by decide,nofun,fun _ hd => absurd hd List.not_mem_nil⟩
    fun _ e h => h.step e

/-! What the relay does, put together. -/

/-- If some number of subscriptions ends with three barren ones, a shortest such does. -/
theorem Upstream.exists_givesUpAfter (u : Upstream) {past : List Subscription}
    (hpre : past <+: u.past) (hmany : maxAttempts ≤ barrenTail past) :
    ∃ first, u.GivesUpAfter first := by
  induction hn : past.length using Nat.strong_induction_on generalizing past with
  | _ n ih =>
    by_cases hfirst : ∀ earlier, earlier <+: past → maxAttempts ≤ barrenTail earlier →
        earlier = past
    · exact ⟨past,hpre,hmany,hfirst⟩
    · push Not at hfirst
      obtain ⟨earlier,he,hmany',hne⟩ := hfirst
      have hlt : earlier.length < n := by
        rw [← hn]
        exact lt_of_le_of_ne he.length_le fun hlen => hne (he.eq_of_length hlen)
      exact ih earlier.length hlt (he.trans hpre) hmany' rfl

/-- The stream that is open, if there is one. -/
theorem Forwards.current {past : List Subscription} {s : Relay} (h : Forwards past s)
    (tasks : List TaskResponse) :
    (Run.after Relay.step s (.subscribed::tasks.map .delivers)).channel =
      s.channel++tasks.map .ok := by
  have hsub : s.step .subscribed = { s with phase := .streaming false } := by
    simp [Relay.step,h.subscribing]
  have hread := after_delivers tasks (s := s.step .subscribed) (by rw [hsub])
    (by rw [hsub, h.receiverOpen])
  rw [Run.after_cons, hread.2.2.2, hsub]

theorem relay_pushed_tasks_faithful (u : Upstream) : RelaysFaithfully u where
  forwards hnever := by
    have hfew (earlier : List Subscription) (he : earlier <+: u.past) :
        barrenTail earlier < maxAttempts := by
      by_contra hge
      obtain ⟨first,hfirst⟩ := u.exists_givesUpAfter he (Nat.le_of_not_lt hge)
      exact hnever first hfirst
    have hpast := forwards_past u.past hfew
    rw [Upstream.events, Upstream.delivered, Relay.run, Run.after_append, ← Relay.run,
      List.map_append]
    cases u.current with
    | none => simpa using hpast.channel
    | some tasks => exact (hpast.current tasks).trans (by rw [hpast.channel]; rfl)
  givesUp past h := by
    obtain ⟨⟨rest,hrest⟩,hmany,hfirst⟩ := h
    obtain ⟨hended,hchan⟩ := run_givesUp hmany hfirst
    rw [Upstream.events, ← hrest, List.flatMap_append, List.append_assoc, Relay.run,
      Run.after_append, ← Relay.run, ended_after hended, hchan]
  hungUp later := by
    obtain ⟨hclosed,hchan⟩ := hangsUp_step (s := Relay.run u.events)
    rw [Relay.run, Run.after_append, ← Relay.run, Run.after_cons, closed_after hclosed, hchan]
  sleeps later d hd := (paced_run (u.events++later)).delays d hd

end ConfluxFL
