import ConfluxFL.Server.Restart

/-! Which checkpoint a restarted server serves. The round counter starts at one in every
process while the store answers with its highest round, so a completed round is what the next
load returns as long as no process starts over a store that has gone further. -/
namespace ConfluxFL
open Fallible RoundM
variable {κ : Type} {d : Deployment κ} {env : RoundEnv} {s t : Server κ} {w : World κ}

/-- The last checkpoint written is the aggregate of the batch it names, it is what the store
now serves, and it is what any next attempt hands to its clients. -/
structure ServesLatest (d : Deployment κ) (s t : Server κ) (entry : SavedCheckpoint) : Prop where
  round : entry.round = s.round
  aggregate : ∃ injected,
    (d.aggregator.aggregate s.aggregatorState injected entry.batch).1 = .ok entry.weights
  history : t.history = s.history++[entry]
  served : t.store.loadLatestWeights = .ok entry.weights
  next : ∀ env p t', prepareBatch d env t = .ok p t' → p.opened.weights = entry.weights

/-- The latest-checkpoint law at one event: whenever an attempt completes, the store serves
what it aggregated. -/
def LatestLaw (w : World κ) (e : Event κ) : Prop :=
  ∀ d env summary t, w.Attempts e d env → runRound d env w.server = .ok summary t →
    ∃ entry, ServesLatest d w.server t entry

/-- No first round is attempted over a store filed above it, and no round number outgrows the
signed column. -/
def StartsFresh (w : World κ) : Event κ → Prop
  | .connect _ _ => True
  | .round _ => w.running.isSome → w.server.round < 2^63 ∧
      (w.server.round = 1 → w.server.store.RoundsAtMost 1)

/-- Past its first round, nothing is filed above the round a running process is at. -/
structure FiledBelow (w : World κ) : Prop where
  pos : w.running.isSome → 1 ≤ w.server.round
  filed : w.running.isSome → 1 < w.server.round → w.server.round < 2^63 →
    w.server.store.RoundsAtMost w.server.round

/-- At an attempt the store is filed no higher than the round it is at. -/
theorem FiledBelow.atMost (hI : FiledBelow w) (hfresh : StartsFresh w (.round env))
    (hr : w.running = some d) :
    w.server.store.RoundsAtMost w.server.round ∧ w.server.round < 2^63 := by
  have hsome : w.running.isSome := by rw [hr]; rfl
  obtain ⟨hlt,hone⟩ := hfresh hsome
  have hpos := hI.pos hsome
  by_cases h1 : w.server.round = 1
  · exact ⟨by rw [h1]; exact hone h1,hlt⟩
  · exact ⟨hI.filed hsome (by omega) hlt,hlt⟩

theorem FiledBelow.round (hI : FiledBelow w) (hfresh : StartsFresh w (.round env))
    (hr : w.running = some d) : FiledBelow (w.step (.round env)) := by
  obtain ⟨hat,hlt⟩ := hI.atMost hfresh hr
  have hpos := hI.pos (by rw [hr]; rfl)
  have hround := runRound_round d env w.server
  have hle : w.server.round ≤ (stateOf (runRound d env w.server)).round := by omega
  constructor
  · intro _
    rw [World.step_round hr]
    omega
  · intro _ _ hlt'
    rw [World.step_round hr] at hlt' ⊢
    rcases runRound_durable d env w.server with ⟨hs,_⟩ | ⟨p,s₁,weights,_,hs,_⟩
    · rw [hs]
      exact hat.mono hle hlt'
    · rw [hs]
      exact (hat.saveCheckpoint weights hlt).mono hle hlt'

/-- An attempt that completes over a store filed no higher serves what it aggregated. -/
theorem servesLatest_of_ok {summary : RoundSummary} (h : runRound d env s = .ok summary t)
    (hat : s.store.RoundsAtMost s.round) (hlt : s.round < 2^63) :
    ∃ entry, ServesLatest d s t entry := by
  have hatt := runRound_attempt d env s
  rw [h] at hatt
  cases hatt with
  | @completed p s₁ t weights ready answer save rows =>
    obtain ⟨hstore,hhistory⟩ := checkpointed_durable ready (keeps_appendRows.ok rows)
    have hload : (t.advanced p.opened.round).store.loadLatestWeights = .ok weights := by
      change t.store.loadLatestWeights = .ok weights
      rw [hstore]
      exact AnyStore.loadLatestWeights_saveCheckpoint weights hat hlt
    have hagg : s₁.aggregatorState = s.aggregatorState :=
      congrArg Core.aggregatorState (keeps_prepareBatch.ok ready)
    refine ⟨⟨s.round,weights,p.batch⟩,rfl,⟨s₁.injected,?_⟩,hhistory,hload,?_⟩
    · rw [← hagg]
      exact answer
    · intro env' p' t' hp
      have hload' := (prepareBatch_ok hp).loaded
      rw [hload] at hload'
      exact (Except.ok.inj hload').symm

/-- Over any number of process lifetimes, if no first round is attempted over a store that is
already filed above it, every completed round is what the next load returns. -/
theorem latestLaw_of_startsFresh (w : World κ) (events : List (Event κ))
    (hidle : w.running = none) (hfresh : Run.Always World.step StartsFresh w events) :
    Run.Always World.step LatestLaw w events := by
  refine Run.Always.of_invariant FiledBelow ?_ hfresh ?_
  · constructor <;> intro hr <;> simp [hidle] at hr
  · intro w e hI hQ
    constructor
    · rintro d env summary t ⟨hr,rfl⟩ h
      obtain ⟨hat,hlt⟩ := hI.atMost hQ hr
      exact servesLatest_of_ok h hat hlt
    · refine World.step_invariant FiledBelow e hI ?_ ?_
      · rintro d initialWeights rfl
        refine ⟨fun _ => le_rfl,fun _ h _ => ?_⟩
        exact absurd h (lt_irrefl 1)
      · rintro d env ⟨hr,rfl⟩
        exact hI.round hQ hr

section Runs

/-- A table that was given its initial model before the first start. -/
def seededStore : AnyStore :=
  .postgres ⟨"conflux_checkpoints",⟨[(0,encodeWeights [F32.zero])],by simp⟩⟩

def seededWorld : World Unit := ⟨.fresh seededStore (),none⟩

/-- One client submits one value in a round where nothing fails. -/
def soloRound (round : ℕ) (value : F32) : Event Unit :=
  .round (.clean [.plain "a" round [value] 10])

def start : Event Unit := .connect (.noiseless fedAvg) []

instance (w : World κ) : (e : Event κ) → Decidable (StartsFresh w e)
  | .connect _ _ => isTrue trivial
  | .round _ => inferInstanceAs (Decidable (w.running.isSome → w.server.round < 2^63 ∧
      (w.server.round = 1 → w.server.store.RoundsAtMost 1)))

theorem latestLaw_restartAfterFirst :
    Run.Always World.step LatestLaw seededWorld
      [start,soloRound 1 F32.one,start,soloRound 1 F32.zero,soloRound 2 F32.one] :=
  latestLaw_of_startsFresh _ _ rfl (by decide +kernel)

/-- The store serves the newest checkpoint of the history. -/
def Server.servesNewest (s : Server κ) : Bool :=
  s.store.loadLatestWeights.toOption = s.history.getLast?.map SavedCheckpoint.weights

/-- After two rounds and a restart the next completed round is filed at round one, and the
store goes on serving the old round two. -/
theorem not_latestLaw_afterRestart : ¬Run.Always World.step LatestLaw seededWorld
    [start,soloRound 1 F32.one,soloRound 2 F32.zero,start,soloRound 1 F32.one] := by
  intro h
  have hlast := Run.always_iff_forall_split.mp h [_,_,_,_] _ [] rfl
  have hrun : completesWith (fun t => !t.servesNewest)
      (runRound (.noiseless fedAvg) (.clean [.plain "a" 1 [F32.one] 10])
        (Run.after World.step seededWorld
          [start,soloRound 1 F32.one,soloRound 2 F32.zero,start]).server) = true := by
    decide +kernel
  obtain ⟨summary,t,hresult,ht⟩ := exists_ok_of_completesWith hrun
  obtain ⟨entry,hentry⟩ := hlast _ _ summary t ⟨rfl,rfl⟩ hresult
  simp [Server.servesNewest, hentry.served, hentry.history, Except.toOption] at ht

end Runs
end ConfluxFL
