import ConfluxFL.Core.ExactBatch
import ConfluxFL.Core.Trusted
import ConfluxFL.Lib.Calls

/-! Which scores a batch is ranked with. An aggregation uses up the scores it reads, but a batch
that is refused before they are read leaves them for the next one. -/
namespace ConfluxFL.Trusted
variable (ν : Type) {ω : Type} [Floating ν] [Floating ω] [Precision ν ω]
  (byzantineFraction rho : F32)

/-- What the server does with the method between and in its rounds. -/
inductive ScoredCall where
  | setCandidateScores (scores : CandidateScores)
  | aggregate (updates : List ClientDelta)

/-- Scores replace those that were there; a batch is answered. -/
def scoredCall (injected : Injected) :
    ScoredCall → Option (Except AggregatorError (List ν)) × Injected
  | .setCandidateScores c => (none,{ injected with scores := some c })
  | .aggregate updates =>
    let r := zeno byzantineFraction rho injected updates
    (some r.1,r.2)

/-- What is injected after some calls to a new aggregator. -/
def afterCalls (calls : List ScoredCall) : Injected :=
  Calls.after (scoredCall ν byzantineFraction rho) ⟨none,none⟩ calls

/-- Scores were handed over, and no batch since. -/
def Fresh (calls : List ScoredCall) : Prop :=
  ∃ before c rest, calls = before++.setCandidateScores c::rest ∧
    ∀ updates, .aggregate updates ∉ rest

/-- Every batch that is aggregated is ranked with scores handed over since the batch before. -/
def RanksWithFreshScores (calls : List ScoredCall) : Prop :=
  ∀ before updates rest out, calls = before++.aggregate updates::rest →
    (scoredCall ν byzantineFraction rho (afterCalls ν byzantineFraction rho before)
      (.aggregate updates)).1 = some (.ok out) → Fresh before

/-- No batch is refused on sight while scores are waiting to be used. -/
def NoRefusalOverScores (injected : Injected) : ScoredCall → Prop
  | .setCandidateScores _ => True
  | .aggregate updates => injected.scores.isSome → ∃ dim, Accepted updates dim

section Step
variable {ν byzantineFraction rho} {injected : Injected} {updates : List ClientDelta}

/-- A batch that gets as far as the scores uses them up. -/
theorem scores_zeno_of_accepted {dim : ℕ} (h : Accepted updates dim) :
    (zeno (ν := ν) byzantineFraction rho injected updates).2.scores = none := by
  unfold zeno
  rw [h.onBatch]
  dsimp only
  split
  · assumption
  · split_ifs
    · rfl
    · split <;> rfl

theorem scores_zeno_of_none (h : injected.scores = none) :
    (zeno (ν := ν) byzantineFraction rho injected updates).2.scores = none := by
  unfold zeno onBatch
  split
  · exact h
  · split
    · exact h
    · rw [h]
      exact h

end Step

section Runs
variable {ν byzantineFraction rho} {calls : List ScoredCall}

theorem afterCalls_concat (calls : List ScoredCall) (call : ScoredCall) :
    afterCalls ν byzantineFraction rho (calls++[call]) =
      (scoredCall ν byzantineFraction rho (afterCalls ν byzantineFraction rho calls) call).2 :=
  Calls.after_append _ _ _ _

/-- In such a run scores that are waiting are fresh. -/
theorem fresh_of_isSome (h : Run.Always (fun s e => (scoredCall ν byzantineFraction rho s e).2)
      NoRefusalOverScores ⟨none,none⟩ calls)
    (hsome : (afterCalls ν byzantineFraction rho calls).scores.isSome) : Fresh calls := by
  induction calls using List.reverseRecOn with
  | nil => cases hsome
  | append_singleton calls call _ =>
    rw [afterCalls_concat] at hsome
    cases call with
    | setCandidateScores c => exact ⟨calls,c,[],rfl,fun _ => List.not_mem_nil⟩
    | aggregate updates =>
      -- the batch found no scores, or used them up
      have hused : (zeno (ν := ν) byzantineFraction rho
          (afterCalls ν byzantineFraction rho calls) updates).2.scores = none := by
        cases hscores : (afterCalls ν byzantineFraction rho calls).scores with
        | none => exact scores_zeno_of_none hscores
        | some c =>
          obtain ⟨dim,haccepted⟩ := Run.always_iff_forall_split.mp h calls (.aggregate updates) []
            rfl (Option.isSome_of_eq_some hscores)
          exact scores_zeno_of_accepted haccepted
      rw [scoredCall, hused] at hsome
      cases hsome

variable (ν byzantineFraction rho) in
/-- Where no batch is refused over waiting scores, none is ranked with another batch's. -/
theorem ranksWithFreshScores (h : Run.Always (fun s e => (scoredCall ν byzantineFraction rho s e).2)
      NoRefusalOverScores ⟨none,none⟩ calls) :
    RanksWithFreshScores ν byzantineFraction rho calls := by
  rintro before updates rest out rfl hout
  obtain ⟨-,c,hc,-⟩ := hasDimension_zeno (Option.some.inj hout)
  exact fresh_of_isSome (Run.always_append.mp h).1 (Option.isSome_of_eq_some hc)

end Runs

section Cases

/-- Scores for one client at the origin. -/
def oneScored : CandidateScores := ⟨[F32.zero],[("a",F32.one)]⟩

/-- Two rounds, each with its own scores. -/
theorem ranksWithFreshScores_twoRounds : RanksWithFreshScores F32 F32.zero F32.zero
    [.setCandidateScores oneScored,.aggregate [sent "a" [F32.one]],
      .setCandidateScores oneScored,.aggregate [sent "a" [F32.zero]]] :=
  ranksWithFreshScores F32 F32.zero F32.zero
    ⟨trivial,fun _ => ⟨1,List.cons_ne_nil _ _,[[F32.one]],by decide +kernel,rfl⟩,
      trivial,fun _ => ⟨1,List.cons_ne_nil _ _,[[F32.zero]],by decide +kernel,rfl⟩,trivial⟩

/-- The scores outlive an empty batch, and rank the one after it. -/
theorem not_ranksWithFreshScores_emptyBatch : ¬RanksWithFreshScores F32 F32.zero F32.zero
    [.setCandidateScores oneScored,.aggregate [],.aggregate [sent "a" [F32.one]]] := by
  intro h
  have hok : (scoredCall F32 F32.zero F32.zero (afterCalls F32 F32.zero F32.zero
      [.setCandidateScores oneScored,.aggregate []]) (.aggregate [sent "a" [F32.one]])).1 =
        some (.ok [F32.one]) := by
    decide +kernel
  obtain ⟨before,c,rest,hcalls,hrest⟩ := h [.setCandidateScores oneScored,.aggregate []] _ [] _ rfl hok
  cases before with
  | nil =>
    obtain ⟨-,rfl⟩ := List.cons.inj hcalls
    exact hrest [] List.mem_cons_self
  | cons call before =>
    cases before with
    | nil => cases (List.cons.inj hcalls).2
    | cons call' before => simp at hcalls

end Cases
end ConfluxFL.Trusted
