import ConfluxFL.Lib.Run
import ConfluxFL.Server.Selection

/-! Who is counted as active while the server runs. Clients register and send heartbeats, time
passes, and rounds read the registry; no part of the running server sweeps it, so a client that
went silent stays on the list. -/
namespace ConfluxFL
open Run

/-- The registry and the clock, in milliseconds. `contact` is when a client last registered or
sent a heartbeat and `joined` who ever registered; no call reads them. -/
structure Membership where
  registry : AnyRegistry
  now : ℕ
  contact : String → Option ℕ
  joined : List String

/-- One step of the server. A registration is one past the gates; `applied` is whether the
backend carried the command out, which it may have done even if the caller got an error. A
round comes with the answers it is given and the state it starts from. -/
inductive MembershipEvent (κ : Type) where
  | register (clientId : String) (applied : Bool)
  | heartbeat (clientId : String) (applied : Bool)
  | advance (millis : ℕ)
  | round (env : RoundEnv) (server : Server κ)

namespace Membership
variable {κ : Type}

/-- A process that finds a registry. -/
def start (registry : AnyRegistry) (now : ℕ) : Membership :=
  ⟨registry,now,registry.lastSeen,registry.ids⟩

def heardFrom (m : Membership) (clientId : String) : Membership :=
  { m with contact := Function.update m.contact clientId (some m.now) }

def onRegister (m : Membership) (clientId : String) : Membership :=
  { m.heardFrom clientId with
    registry := m.registry.orSame (m.registry.register clientId m.now)
    joined := m.joined++[clientId] }

def onHeartbeat (m : Membership) (clientId : String) : Membership :=
  { m with registry := m.registry.orSame (m.registry.heartbeat clientId m.now) }

def step (m : Membership) : MembershipEvent κ → Membership
  | .register clientId applied => if applied then m.onRegister clientId else m
  | .heartbeat clientId applied =>
    (if applied then m.onHeartbeat clientId else m).heardFrom clientId
  | .advance millis => { m with now := m.now+millis }
  | .round _ _ => m

/-- The client registered or sent a heartbeat less than the configured time ago. -/
def Live (m : Membership) (d : Deployment κ) (clientId : String) : Prop :=
  ∃ t, m.contact clientId = some t ∧ m.now-t < d.config.clientRegistryTtl.value*1000

/-- The round reads this listing of the registry. -/
def Reads (m : Membership) (env : RoundEnv) (listing : List String) : Prop :=
  env.active = .value listing ∧ m.registry.Lists listing

/-- Whoever a round counts as active, and whoever it selects, is live. -/
def SeesLive (d : Deployment κ) (m : Membership) : MembershipEvent κ → Prop
  | .round env server => ∀ listing, m.Reads env listing →
      (∀ c ∈ listing, m.Live d c) ∧ ∀ c ∈ selectedClients d env server listing, m.Live d c
  | _ => True

/-- When a round reads the registry, everybody who ever registered is live. -/
def AllInTouch (d : Deployment κ) (m : Membership) : MembershipEvent κ → Prop
  | .round env _ => ∀ listing, m.Reads env listing → ∀ c ∈ m.joined, m.Live d c
  | _ => True

/-- Nobody is ever removed. -/
def Kept (m : Membership) : Prop := ∀ c, c ∈ m.registry.ids ↔ c ∈ m.joined

section Runs
variable {m : Membership}

theorem Kept.onRegister (h : m.Kept) (clientId : String) : (m.onRegister clientId).Kept := by
  intro c
  change c ∈ (m.registry.orSame (m.registry.register clientId m.now)).ids ↔
    c ∈ m.joined++[clientId]
  rw [AnyRegistry.mem_ids_register, h c, List.mem_append, List.mem_singleton, or_comm]

theorem Kept.onHeartbeat (h : m.Kept) (clientId : String) : (m.onHeartbeat clientId).Kept := by
  intro c
  change c ∈ (m.registry.orSame (m.registry.heartbeat clientId m.now)).ids ↔ c ∈ m.joined
  rw [AnyRegistry.mem_ids_heartbeat, h c]

theorem Kept.step (h : m.Kept) (e : MembershipEvent κ) : (m.step e).Kept := by
  cases e with
  | register clientId applied =>
    cases applied with
    | true => exact h.onRegister clientId
    | false => exact h
  | heartbeat clientId applied =>
    cases applied with
    | true => exact h.onHeartbeat clientId
    | false => exact h
  | advance millis => exact h
  | round env server => exact h

/-- With nobody removed, a round sees the clients that ever registered. -/
theorem Kept.seesLive_iff (h : m.Kept) {d : Deployment κ} {sampler : Sampler}
    {seed : SelectionSeed} (hd : d.selector = uniformRandomSelector sampler seed)
    (e : MembershipEvent κ) : m.SeesLive d e ↔ m.AllInTouch d e := by
  cases e with
  | round env server =>
    refine forall₂_congr fun listing hreads => ?_
    have hmem : ∀ c, c ∈ listing ↔ c ∈ m.joined := fun c => (hreads.2.mem_iff c).trans (h c)
    constructor
    · intro hlive c hc
      exact hlive.1 c ((hmem c).mpr hc)
    · intro htouch
      refine ⟨fun c hc => htouch c ((hmem c).mp hc),fun c hc => htouch c ((hmem c).mp ?_)⟩
      rw [selectedClients, hd] at hc
      exact mem_of_mem_select hc
  | register clientId applied => exact Iff.rfl
  | heartbeat clientId applied => exact Iff.rfl
  | advance millis => exact Iff.rfl

end Runs

/-- Over every run from any registry: the rounds see live clients only exactly when, at every
round, everybody who ever registered is live. -/
theorem seesLive_iff_allInTouch {d : Deployment κ} {sampler : Sampler} {seed : SelectionSeed}
    (hd : d.selector = uniformRandomSelector sampler seed) (registry : AnyRegistry) (now : ℕ)
    (events : List (MembershipEvent κ)) :
    Always step (SeesLive d) (start registry now) events ↔
      Always step (AllInTouch d) (start registry now) events :=
  always_iff_of_invariant Kept (fun _ => Iff.rfl) (fun _ e h => h.seesLive_iff hd e)
    fun _ e h _ => h.step e

/-- One client registers, and a round opens two hours later. -/
def silentClient : List (MembershipEvent Unit) :=
  [.register "a" true,.advance 7200000,.round (.clean [.plain "a" 1 [F32.one] 10]) atRoundZero]

theorem seesLive_iff_allInTouch_silent :
    Always step (SeesLive (oneOf .rotating 0)) (start (.redis .new) 0) silentClient ↔
      Always step (AllInTouch (oneOf .rotating 0)) (start (.redis .new) 0) silentClient :=
  seesLive_iff_allInTouch rfl (.redis .new) 0 silentClient

/-- It is still counted, and selected. -/
theorem not_seesLive_silent :
    ¬Always step (SeesLive (oneOf .rotating 0)) (start (.redis .new) 0) silentClient := by
  intro h
  obtain ⟨hlive,_⟩ := h.2.2.1 ["a"] ⟨rfl,rfl⟩
  obtain ⟨t,ht,hlt⟩ := hlive "a" List.mem_cons_self
  cases ht
  exact absurd hlt (by decide)

end Membership
end ConfluxFL
