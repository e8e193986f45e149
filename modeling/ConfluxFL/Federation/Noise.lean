import ConfluxFL.Lib.Run
import ConfluxFL.Lib.Streams
import ConfluxFL.Node
import ConfluxFL.NodeStartup

/-! The nodes of one federation and the noise they add. Every node is configured from one
template; a node's bridge owns a generator, seeded when the node starts and advanced by every
transform. -/
namespace ConfluxFL
open Streams

/-- What a generator is seeded from: a given value, or the operating system, asked by one
node. -/
inductive Entropy | seed (value : ℕ) | os (node : ℕ)
  deriving DecidableEq, Repr

structure StdRng where
  entropy : Entropy
  used : ℕ
  deriving DecidableEq, Repr

namespace StdRng

def seedFromU64 (seed : ℕ) : StdRng := ⟨.seed seed,0⟩

/-- Seeded by the thread-local generator of the process, for the node that asks. -/
def fromRng (node : ℕ) : StdRng := ⟨.os node,0⟩

/-- The draws that come next; `streams` are the draws each seeding leads to. -/
def next (streams : Entropy → ℕ → F32) (rng : StdRng) (k : ℕ) : F32 :=
  streams rng.entropy (rng.used+k)

def advance (rng : StdRng) (n : ℕ) : StdRng := { rng with used := rng.used+n }

end StdRng

structure LocalPrivacy where
  mechanism : GaussianClippingPrivacy
  rng : StdRng

structure NodeBridge where
  upstream : ConnectionMode
  nodeClientId : String
  localPrivacy : Option LocalPrivacy

namespace NodeBridge

def new (nodeClientId : String) : NodeBridge := ⟨.pull,nodeClientId,none⟩

def newPush (nodeClientId : String) : NodeBridge := ⟨.push,nodeClientId,none⟩

def withLocalPrivacy (bridge : NodeBridge) (node : ℕ) (mechanism : GaussianClippingPrivacy)
    (seed : Option ℕ) : NodeBridge :=
  let rng :=
    match seed with
    | some seed => StdRng.seedFromU64 seed
    | none => StdRng.fromRng node
  { bridge with localPrivacy := some ⟨mechanism,rng⟩ }

def mechanism (bridge : NodeBridge) : Option GaussianClippingPrivacy :=
  bridge.localPrivacy.map LocalPrivacy.mechanism

/-- The draws a submission is transformed with. -/
def noise (bridge : NodeBridge) (streams : Entropy → ℕ → F32) (k : ℕ) : F32 :=
  match bridge.localPrivacy with
  | none => F32.zero
  | some l => l.rng.next streams k

/-- The generator moves past the draws a submission consumed. -/
def advance (bridge : NodeBridge) (n : ℕ) : NodeBridge :=
  { bridge with localPrivacy := bridge.localPrivacy.map fun l => { l with rng := l.rng.advance n } }

end NodeBridge

/-- What every node of a federation shares. -/
structure NodeTemplate where
  mode : RuntimeMode
  allowStubClient : Bool
  clientAppKind : ClientAppKind
  connectionMode : ConnectionMode
  localPrivacy : Option GaussianClippingPrivacy
  privacySeed : Option ℕ
  authToken : String
  clientTls : ClientTls

structure FederationConfig where
  nodes : ℕ
  node : NodeTemplate
  clientIdPrefix : String

/-- A federation whose listeners are bound, with a server that answers. -/
structure Federation (α : Type) where
  config : FederationConfig
  grpcUrl : String
  nodeAddr : ℕ → α

namespace Federation
variable {α : Type} (fed : Federation α)

def clientId (i : ℕ) : String := s!"{fed.config.clientIdPrefix}-{i}"

def nodeConfig (i : ℕ) : NodeConfig α where
  mode := fed.config.node.mode
  allowStubClient := fed.config.node.allowStubClient
  clientAppKind := fed.config.node.clientAppKind
  serverAddr := fed.grpcUrl
  clientId := fed.clientId i
  localAddr := fed.nodeAddr i
  connectionMode := fed.config.node.connectionMode
  localPrivacy := fed.config.node.localPrivacy
  privacySeed := fed.config.node.privacySeed
  authToken := fed.config.node.authToken
  clientTls := fed.config.node.clientTls

end Federation

/-- The bridge a node serves, once it has passed its guard and registered. -/
def NodeConfig.bridge {α : Type} (n : NodeConfig α) (node : ℕ) : NodeBridge :=
  let bridge :=
    match n.connectionMode with
    | .pull => NodeBridge.new n.clientId
    | .push => NodeBridge.newPush n.clientId
  match n.localPrivacy with
  | some mechanism => bridge.withLocalPrivacy node mechanism n.privacySeed
  | none => bridge

/-- An update a node has sent, and the draws it was noised with. -/
structure SentUpdate where
  node : ℕ
  chunks : List DeltaChunk
  draws : Streams.Part (Option Entropy)
  deriving DecidableEq

/-- The bridges that are up, and what they have sent. -/
structure FederationRun where
  bridge : ℕ → Option NodeBridge
  sent : List SentUpdate

/-- A node registers, or the client of a node hands it an update. -/
inductive NodeEvent where
  | registers (i : ℕ)
  | submits (i : ℕ) (chunks : List DeltaChunk)

/-- The next `n` draws of a bridge; one without local privacy has no generator and draws none. -/
def NodeBridge.part (bridge : NodeBridge) (n : ℕ) : Streams.Part (Option Entropy) where
  source := bridge.localPrivacy.map fun l => l.rng.entropy
  start := (bridge.localPrivacy.map fun l => l.rng.used).getD 0
  size := n

namespace FederationRun

def start : FederationRun := ⟨fun _ => none,[]⟩

def onRegister {α : Type} (fed : Federation α) (s : FederationRun) (i : ℕ) : FederationRun :=
  match (fed.nodeConfig i).guard with
  | .error _ => s
  | .ok _ =>
    if i < fed.config.nodes ∧ (s.bridge i).isNone then
      { s with bridge := Function.update s.bridge i (some ((fed.nodeConfig i).bridge i)) }
    else s

/-- The transform comes before the first attempt to send, and every attempt sends its result. -/
def onSubmit (streams : Entropy → ℕ → F32) (s : FederationRun) (i : ℕ)
    (chunks : List DeltaChunk) : FederationRun :=
  match s.bridge i with
  | none => s
  | some b =>
    match applyLocalPrivacy b.mechanism (b.noise streams) chunks with
    | .error _ => s
    | .ok sent =>
      let n := drawCount b.mechanism chunks
      { bridge := Function.update s.bridge i (some (b.advance n))
        sent := s.sent++[⟨i,sent,b.part n⟩] }

def step {α : Type} (fed : Federation α) (streams : Entropy → ℕ → F32) (s : FederationRun) :
    NodeEvent → FederationRun
  | .registers i => s.onRegister fed i
  | .submits i chunks => s.onSubmit streams i chunks

/-- The reads the nodes have made of their streams. -/
def reads (s : FederationRun) : List (ℕ × Streams.Part (Option Entropy)) :=
  s.sent.map fun x => (x.node,x.draws)

/-- No draw was used for two updates. -/
def Unshared (s : FederationRun) : Prop := s.sent.Pairwise fun x y => ¬x.draws.Shares y.draws

end FederationRun

namespace NodeBridge
variable (b : NodeBridge)

@[simp] theorem advance_zero : b.advance 0 = b := by
  unfold advance
  cases h : b.localPrivacy <;> simp [StdRng.advance, ← h]

@[simp] theorem advance_advance (m n : ℕ) : (b.advance m).advance n = b.advance (m+n) := by
  unfold advance
  cases h : b.localPrivacy <;> simp [StdRng.advance, Nat.add_assoc]

@[simp] theorem mechanism_advance (n : ℕ) : (b.advance n).mechanism = b.mechanism := by
  unfold advance mechanism
  cases h : b.localPrivacy <;> rfl

/-- A bridge that started at the beginning of its stream reads on from where it is. -/
theorem part_advance (hb : ∀ l ∈ b.localPrivacy, l.rng.used = 0) {m : ℕ}
    (hm : b.localPrivacy = none → m = 0) (n : ℕ) :
    (b.advance m).part n = ⟨b.localPrivacy.map fun l => l.rng.entropy,m,n⟩ := by
  unfold advance part
  cases h : b.localPrivacy with
  | none => simp [hm h]
  | some l => simp [StdRng.advance, hb l h]

end NodeBridge

theorem drawCount_of_error {privacy : Option GaussianClippingPrivacy} {noise : ℕ → F32}
    {chunks : List DeltaChunk} {e : DispatchError}
    (h : applyLocalPrivacy privacy noise chunks = .error e) : drawCount privacy chunks = 0 := by
  cases privacy with
  | none => rfl
  | some mechanism =>
    unfold applyLocalPrivacy at h
    unfold drawCount
    cases hw : decodeWeights ((StableSort.sortBy DeltaChunk.chunkIndex chunks).flatMap
        DeltaChunk.data) with
    | error e => rfl
    | ok weights =>
      simp only [hw] at h
      cases h

section Runs
variable {α : Type} (fed : Federation α)

/-- The stream node `i` reads, if it adds noise at all. -/
def Federation.entropy (i : ℕ) : Option Entropy :=
  ((fed.nodeConfig i).bridge i).localPrivacy.map fun l => l.rng.entropy

theorem NodeConfig.localPrivacy_bridge (n : NodeConfig α) (i : ℕ) :
    (n.bridge i).localPrivacy = n.localPrivacy.map fun m =>
      ⟨m,match n.privacySeed with
        | some seed => StdRng.seedFromU64 seed
        | none => StdRng.fromRng i⟩ := by
  unfold bridge
  cases n.connectionMode <;> cases n.localPrivacy <;> rfl

theorem NodeConfig.mechanism_bridge (n : NodeConfig α) (i : ℕ) :
    (n.bridge i).mechanism = n.localPrivacy := by
  unfold NodeBridge.mechanism
  rw [n.localPrivacy_bridge]
  cases n.localPrivacy <;> rfl

/-- A generator has used nothing when its node starts. -/
theorem NodeConfig.used_bridge (n : NodeConfig α) (i : ℕ) :
    ∀ l ∈ (n.bridge i).localPrivacy, l.rng.used = 0 := by
  rw [n.localPrivacy_bridge]
  intro l hl
  obtain ⟨m,-,rfl⟩ := Option.mem_map.mp hl
  cases n.privacySeed <;> rfl

/-- The event hands a node that is up an update it draws noise for. -/
def FederationRun.Noises (s : FederationRun) : NodeEvent → ℕ → Prop
  | .registers _, _ => False
  | .submits i chunks, j =>
    i = j ∧ s.bridge i ≠ none ∧ drawCount fed.config.node.localPrivacy chunks ≠ 0

/-- Every bridge is where the reads of its node have left it. -/
structure FederationRun.Sound (s : FederationRun) : Prop where
  reads : Reads fed.entropy s.reads
  up : ∀ i b, s.bridge i = some b → b = ((fed.nodeConfig i).bridge i).advance (used s.reads i)
  down : ∀ i, s.bridge i = none → used s.reads i = 0
  quiet : fed.config.node.localPrivacy = none → ∀ i, used s.reads i = 0

namespace FederationRun
variable {fed} {streams : Entropy → ℕ → F32} {s : FederationRun}

theorem sound_start : start.Sound fed :=
  ⟨.nil,fun _ _ h => (Option.some_ne_none _ h.symm).elim,fun _ _ => rfl,fun _ _ => rfl⟩

/-- Node `i` has sent an update, noised with the next `n` draws of its stream. -/
def record (fed : Federation α) (s : FederationRun) (i : ℕ) (sent : List DeltaChunk) (n : ℕ) :
    FederationRun where
  bridge := Function.update s.bridge i
    (some (((fed.nodeConfig i).bridge i).advance (used s.reads i+n)))
  sent := s.sent++[⟨i,sent,fed.entropy i,used s.reads i,n⟩]

theorem reads_record (i : ℕ) (sent : List DeltaChunk) (n : ℕ) :
    (s.record fed i sent n).reads = s.reads++[(i,⟨fed.entropy i,used s.reads i,n⟩)] :=
  List.map_append

theorem used_record (i : ℕ) (sent : List DeltaChunk) (n j : ℕ) :
    used (s.record fed i sent n).reads j = used s.reads j+(if i = j then n else 0) := by
  rw [reads_record, used_concat]

/-- What a submission does: nothing, when the node is down or the transform fails, or one more
read of the node's stream. -/
theorem onSubmit_cases (h : s.Sound fed) (i : ℕ) (chunks : List DeltaChunk) :
    (s.onSubmit streams i chunks = s ∧ ∀ j, ¬s.Noises fed (.submits i chunks) j) ∨
    ∃ sent, s.bridge i ≠ none ∧ s.onSubmit streams i chunks =
      s.record fed i sent (drawCount fed.config.node.localPrivacy chunks) := by
  cases hb : s.bridge i with
  | none =>
    refine .inl ⟨by simp [onSubmit, hb],fun j hn => ?_⟩
    exact hn.2.1 hb
  | some b =>
    have hmech : b.mechanism = fed.config.node.localPrivacy := by
      rw [h.up i b hb, NodeBridge.mechanism_advance, NodeConfig.mechanism_bridge]
      rfl
    cases ha : applyLocalPrivacy b.mechanism (b.noise streams) chunks with
    | error e =>
      refine .inl ⟨by simp [onSubmit, hb, ha],fun j hn => ?_⟩
      exact hn.2.2 (hmech ▸ drawCount_of_error ha)
    | ok sent =>
      refine .inr ⟨sent,Option.some_ne_none b,?_⟩
      have hpart : b.part (drawCount b.mechanism chunks) =
          ⟨fed.entropy i,used s.reads i,drawCount b.mechanism chunks⟩ := by
        rw [h.up i b hb]
        refine NodeBridge.part_advance _ ((fed.nodeConfig i).used_bridge i) (fun hnone => ?_) _
        rw [NodeConfig.localPrivacy_bridge, Option.map_eq_none_iff] at hnone
        exact h.quiet hnone i
      simp only [onSubmit, hb, ha]
      rw [hpart, hmech, h.up i b hb, NodeBridge.advance_advance]
      rfl

theorem Sound.onRegister (h : s.Sound fed) (i : ℕ) : (s.onRegister fed i).Sound fed := by
  unfold FederationRun.onRegister
  split
  · exact h
  · split_ifs with hi
    · have hdown : used s.reads i = 0 := h.down i (Option.isNone_iff_eq_none.mp hi.2)
      refine ⟨h.reads,fun j b hj => ?_,fun j hj => ?_,h.quiet⟩
      · by_cases hji : j = i
        · subst hji
          simp only [Function.update_self, Option.some.injEq] at hj
          change _ = NodeBridge.advance _ (used s.reads j)
          rw [hdown, NodeBridge.advance_zero, hj]
        · simp only [Function.update_of_ne hji] at hj
          exact h.up j b hj
      · by_cases hji : j = i
        · subst hji
          simp only [Function.update_self, reduceCtorEq] at hj
        · simp only [Function.update_of_ne hji] at hj
          exact h.down j hj
    · exact h

theorem Sound.onSubmit (h : s.Sound fed) (i : ℕ) (chunks : List DeltaChunk) :
    (s.onSubmit streams i chunks).Sound fed := by
  obtain ⟨heq,-⟩ | ⟨sent,hi,heq⟩ := @onSubmit_cases α fed streams s h i chunks
  · rw [heq]
    exact h
  · rw [heq]
    refine ⟨(reads_record ..) ▸ h.reads.snoc i _,fun j b hj => ?_,fun j hj => ?_,
      fun hnone j => ?_⟩
    · rw [used_record]
      by_cases hji : j = i
      · subst hji
        simp only [record, Function.update_self, Option.some.injEq] at hj
        rw [if_pos rfl, ← hj]
      · simp only [record, Function.update_of_ne hji] at hj
        rw [if_neg (Ne.symm hji), Nat.add_zero]
        exact h.up j b hj
    · by_cases hji : j = i
      · subst hji
        simp only [record, Function.update_self, reduceCtorEq] at hj
      · simp only [record, Function.update_of_ne hji] at hj
        rw [used_record, if_neg (Ne.symm hji), Nat.add_zero]
        exact h.down j hj
    · rw [used_record, h.quiet hnone j, hnone, Nat.zero_add]
      exact ite_self 0

theorem Sound.step (h : s.Sound fed) (e : NodeEvent) : (s.step fed streams e).Sound fed := by
  cases e with
  | registers i => exact h.onRegister i
  | submits i chunks => exact h.onSubmit i chunks

/-- Only node `i` has drawn noise. -/
def OnlyBy (s : FederationRun) (i : ℕ) : Prop := ∀ x ∈ s.sent, x.draws.size ≠ 0 → x.node = i

theorem onlyBy_step (h : s.Sound fed) (i : ℕ) (e : NodeEvent) :
    (s.step fed streams e).OnlyBy i ↔ s.OnlyBy i ∧ ∀ j, s.Noises fed e j → j = i := by
  cases e with
  | registers j =>
    have hsent : (s.step fed streams (.registers j)).sent = s.sent := by
      rw [FederationRun.step, FederationRun.onRegister]
      split
      · rfl
      · split_ifs <;> rfl
    rw [OnlyBy, hsent]
    exact (and_iff_left fun _ hn => hn.elim).symm
  | submits j chunks =>
    rw [FederationRun.step]
    obtain ⟨heq,hnot⟩ | ⟨sent,hj,heq⟩ := @onSubmit_cases α fed streams s h j chunks
    · rw [heq]
      exact (and_iff_left fun k hk => (hnot k hk).elim).symm
    · rw [heq, OnlyBy, record, List.forall_mem_append, List.forall_mem_singleton]
      refine and_congr_right fun _ => ⟨?_,fun hn hd => hn j ⟨rfl,hj,hd⟩⟩
      rintro hd k ⟨rfl,-,hk⟩
      exact hd hk

theorem onlyBy_after (h : s.Sound fed) (i : ℕ) (events : List NodeEvent) :
    (Run.after (step fed streams) s events).OnlyBy i ↔ s.OnlyBy i ∧
      Run.Always (step fed streams) (fun s e => ∀ j, s.Noises fed e j → j = i) s events := by
  induction events generalizing s with
  | nil => exact (and_iff_left trivial).symm
  | cons e events ih =>
    rw [Run.after_cons, ih (h.step e), onlyBy_step h, Run.Always, and_assoc]

end FederationRun

theorem Federation.entropy_eq (i : ℕ) : fed.entropy i = fed.config.node.localPrivacy.map fun _ =>
    match fed.config.node.privacySeed with
    | some seed => .seed seed
    | none => .os i := by
  unfold entropy
  rw [NodeConfig.localPrivacy_bridge, Option.map_map]
  change fed.config.node.localPrivacy.map _ = _
  congr 1
  funext m
  change StdRng.entropy _ = _
  cases hseed : fed.config.node.privacySeed <;> simp [nodeConfig, hseed] <;> rfl

namespace FederationRun
variable {fed} {streams : Entropy → ℕ → F32} {s : FederationRun}

/-- An update noise was drawn for was sent by a node with a generator. -/
theorem Sound.localPrivacy_ne_none (h : s.Sound fed) {x : SentUpdate} (hx : x ∈ s.sent)
    (hn : x.draws.size ≠ 0) : fed.config.node.localPrivacy ≠ none := by
  intro hnone
  exact h.reads.used_ne_zero (List.mem_map_of_mem hx) hn (h.quiet hnone _)

theorem Sound.unshared_iff (h : s.Sound fed) : s.Unshared ↔
    fed.config.node.privacySeed = none ∨ ∃ i, s.OnlyBy i := by
  have hiff : s.Unshared ↔ ∀ x ∈ s.sent, ∀ y ∈ s.sent, x.draws.size ≠ 0 → y.draws.size ≠ 0 →
      fed.entropy x.node = fed.entropy y.node → x.node = y.node := by
    have hreads := h.reads.pairwise_not_shares_iff
    simp only [FederationRun.reads, List.pairwise_map, List.forall_mem_map] at hreads
    exact hreads
  rw [hiff]
  cases hseed : fed.config.node.privacySeed with
  | none =>
    refine iff_of_true (fun x hx y _ hxn _ heq => ?_) (.inl rfl)
    obtain ⟨m,hm⟩ := Option.ne_none_iff_exists'.mp (h.localPrivacy_ne_none hx hxn)
    rw [fed.entropy_eq, fed.entropy_eq, hm, hseed] at heq
    exact Entropy.os.inj (Option.some.inj heq)
  | some seed =>
    rw [or_iff_right (Option.some_ne_none seed)]
    constructor
    · intro hown
      by_cases hdrawn : ∃ x ∈ s.sent, x.draws.size ≠ 0
      · obtain ⟨x,hx,hxn⟩ := hdrawn
        refine ⟨x.node,fun y hy hyn => hown y hy x hx hyn hxn ?_⟩
        rw [fed.entropy_eq, fed.entropy_eq, hseed]
      · exact ⟨0,fun x hx hxn => (hdrawn ⟨x,hx,hxn⟩).elim⟩
    · rintro ⟨i,hi⟩ x hx y hy hxn hyn -
      rw [hi x hx hxn, hi y hy hyn]

end FederationRun

/-- In every run of a federation's nodes, no draw is used for two updates exactly when the
template gives no seed or at most one node is handed an update it draws noise for. -/
theorem FederationRun.unshared_after_iff (streams : Entropy → ℕ → F32)
    (events : List NodeEvent) :
    (Run.after (step fed streams) start events).Unshared ↔
      fed.config.node.privacySeed = none ∨
        ∃ i, Run.Always (step fed streams) (fun s e => ∀ j, s.Noises fed e j → j = i)
          start events := by
  have hsound : (Run.after (step fed streams) start events).Sound fed :=
    Run.after_of_kept (Sound fed) sound_start fun s e h => h.step e
  rw [hsound.unshared_iff]
  refine or_congr_right (exists_congr fun i => ?_)
  rw [onlyBy_after sound_start]
  exact and_iff_right fun x hx => (List.not_mem_nil hx).elim

end Runs

/-- A federation of two nodes from one template with a seed. -/
def twoSeeded : Federation String where
  config := ⟨2,⟨.research,false,.real,.pull,some ⟨F32.one,F32.one⟩,some 7,placeholderAuthToken,
    .plaintext⟩,"client"⟩
  grpcUrl := "http://127.0.0.1:50051"
  nodeAddr := fun _ => "127.0.0.1:0"

/-- An update of one zero weight. -/
def zeroUpdate (clientId : String) : List DeltaChunk :=
  [⟨clientId,1,0,1,encodeWeights [F32.zero],1,none,none,none⟩]

def oneUpdateEach : List NodeEvent :=
  [.registers 0,.registers 1,.submits 0 (zeroUpdate "client-0"),.submits 1 (zeroUpdate "client-1")]

/-- Each node noises its first update with the first draw of the one seed. -/
theorem FederationRun.not_unshared_twoSeeded :
    (Run.after (step twoSeeded fun _ _ => F32.one) start oneUpdateEach).reads =
        [(0,⟨some (.seed 7),0,1⟩),(1,⟨some (.seed 7),0,1⟩)] ∧
      ¬(Run.after (step twoSeeded fun _ _ => F32.one) start oneUpdateEach).Unshared := by
  have hreads : (Run.after (step twoSeeded fun _ _ => F32.one) start oneUpdateEach).reads =
      [(0,⟨some (.seed 7),0,1⟩),(1,⟨some (.seed 7),0,1⟩)] := by
    decide +kernel
  refine ⟨hreads,fun h => ?_⟩
  have hpair : (Run.after (step twoSeeded fun _ _ => F32.one) start oneUpdateEach).reads.Pairwise
      fun p q => ¬p.2.Shares q.2 := List.pairwise_map.mpr h
  rw [hreads] at hpair
  exact List.rel_of_pairwise_cons hpair (List.mem_singleton.mpr rfl)
    (Part.shares_of_start rfl rfl rfl one_ne_zero one_ne_zero)

end ConfluxFL
