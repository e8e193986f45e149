import ConfluxFL.Core.Euclid
import ConfluxFL.Lib.Selection

/-! Whom Zeno keeps. Every client needs a score, the last of several counts, and as many of the
batch as the fraction assumes Byzantine are dropped, none of which is worth more than one that
is kept. -/
namespace ConfluxFL.Trusted

section Scores

/-- The score a client is ranked by. -/
def lastScore (scores : List (String × F32)) (clientId : String) : Option F32 :=
  (scores.reverse.find? fun e => e.1 = clientId).map Prod.snd

variable {scores : List (String × F32)} {updates : List ClientDelta}

theorem lastScore_eq_none_iff {clientId : String} :
    lastScore scores clientId = none ↔ ∀ e ∈ scores, e.1 ≠ clientId := by
  simp [lastScore]

/-- Using up one client's scores leaves the others'. -/
theorem lastScore_filter {a b : String} (h : b ≠ a) :
    lastScore (scores.filter fun e => e.1 ≠ a) b = lastScore scores b := by
  unfold lastScore
  rw [← List.filter_reverse, List.find?_filter]
  refine congrArg (Option.map Prod.snd) (List.find?_congr fun e _ => ?_)
  by_cases he : e.1 = b
  · simp [he, h]
  · simp [he]

theorem lastScore_filter_of_mem {u v : ClientDelta} {rest : List ClientDelta}
    (hnodup : ((u::rest).map ClientDelta.clientId).Nodup) (hv : v ∈ rest) :
    lastScore (scores.filter fun e => e.1 ≠ u.clientId) v.clientId =
      lastScore scores v.clientId := by
  rw [List.map_cons, List.nodup_cons] at hnodup
  exact lastScore_filter fun heq => hnodup.1 (heq ▸ List.mem_map_of_mem hv)

theorem takeScores_cons (scores : List (String × F32)) (u : ClientDelta)
    (updates : List ClientDelta) : takeScores scores (u::updates) =
      match lastScore scores u.clientId with
      | none => .error (.unscoredClient u.clientId)
      | some s => do
        let rest ← takeScores (scores.filter fun e => e.1 ≠ u.clientId) updates
        return s::rest := by
  rw [takeScores, lastScore]
  cases scores.reverse.find? fun e => e.1 = u.clientId <;> rfl

theorem takeScores_ok {score : ClientDelta → F32}
    (hnodup : (updates.map ClientDelta.clientId).Nodup)
    (h : ∀ u ∈ updates, lastScore scores u.clientId = some (score u)) :
    takeScores scores updates = .ok (updates.map score) := by
  induction updates generalizing scores with
  | nil => rfl
  | cons u updates ih =>
    rw [takeScores_cons, h u List.mem_cons_self]
    dsimp only
    rw [ih (List.nodup_cons.mp hnodup).2 fun v hv =>
      (lastScore_filter_of_mem hnodup hv).trans (h v (List.mem_cons_of_mem u hv))]
    rfl

theorem takeScores_error (hnodup : (updates.map ClientDelta.clientId).Nodup)
    (h : ∃ u ∈ updates, lastScore scores u.clientId = none) :
    ∃ clientId, takeScores scores updates = .error (.unscoredClient clientId) := by
  induction updates generalizing scores with
  | nil => obtain ⟨u,hu,-⟩ := h; cases hu
  | cons u updates ih =>
    rw [takeScores_cons]
    cases hu : lastScore scores u.clientId with
    | none => exact ⟨u.clientId,rfl⟩
    | some s =>
      obtain ⟨v,hv,hnone⟩ := h
      have hv : v ∈ updates := (List.mem_cons.mp hv).resolve_left fun heq => by
        subst heq
        rw [hu] at hnone
        cases hnone
      obtain ⟨clientId,hrest⟩ := ih (List.nodup_cons.mp hnodup).2
        ⟨v,hv,(lastScore_filter_of_mem hnodup hv).trans hnone⟩
      exact ⟨clientId,by rw [hrest]; rfl⟩

end Scores

section Worth

/-- A rank that is none is below every other. -/
def ofRank (rank : Option ℝ) : WithBot ℝ := rank.elim ⊥ (↑)

/-- The score of an update's client less a penalty on the distance moved; none where the score
is not finite. -/
noncomputable def rankOf (dim : ℕ) (rho : F32) (c : CandidateScores) (u : ClientDelta) : Option ℝ :=
  ((lastScore c.scores u.clientId).filter F32.isFinite).map fun s =>
    s.toReal-rho.toReal*‖euclid dim (row u)-euclid dim (stored c.globalWeights)‖^2

/-- What an update is worth. -/
noncomputable def worth (dim : ℕ) (rho : F32) (c : CandidateScores) (u : ClientDelta) : WithBot ℝ :=
  ofRank (rankOf dim rho c u)

variable {dim : ℕ} {rho : F32} {c : CandidateScores}

theorem suspicion_real {w global : List ℝ} (hw : w.length = dim) (hglobal : global.length = dim)
    (score : F32) : (suspicion rho score w global : Option ℝ) = if score.isFinite then
      some (score.toReal-rho.toReal*‖euclid dim w-euclid dim global‖^2) else none := by
  have hnorm : (Floating.sum (w.zipWith (fun y x => (Precision.widen y-Precision.widen x)*
      (Precision.widen y-Precision.widen x)) global) : ℝ) = ‖euclid dim w-euclid dim global‖^2 := by
    rw [Floating.sum_real, EuclideanSpace.norm_sq_eq]
    refine (sum_zipWith _ hw hglobal).trans (Finset.sum_congr rfl fun i _ => ?_)
    rw [Real.norm_eq_abs, sq_abs, sq]
    rfl
  unfold suspicion
  rw [hnorm]
  cases score.isFinite <;> rfl

theorem suspicion_eq_rankOf {u : ClientDelta} {s : F32} (hrow : (row u).length = dim)
    (hglobal : c.globalWeights.length = dim) (hs : lastScore c.scores u.clientId = some s) :
    suspicion rho s (row u) (stored c.globalWeights) = rankOf dim rho c u := by
  rw [suspicion_real hrow ((length_stored _).trans hglobal), rankOf, hs, Option.filter_some]
  cases s.isFinite <;> rfl

theorem rankLe_real (a b : Option ℝ) : rankLe a b = true ↔ ofRank a ≤ ofRank b := by
  cases a with
  | none => simp [rankLe, ofRank]
  | some a =>
    cases b with
    | none => simp [rankLe, ofRank]
    | some b => exact decide_eq_true_iff.trans WithBot.coe_le_coe.symm

/-- The positions by descending rank. -/
theorem ranking_real (ranks : List (Option ℝ)) : ranking ranks =
    StableSort.sortBy (fun i => OrderDual.toDual (ofRank (ranks.getD i none)))
      (List.range ranks.length) := by
  unfold ranking StableSort.sortBy
  congr
  funext i j
  exact propext (rankLe_real _ _)

end Worth

section Kept
/-- Of the updates by descending rank, the first so many and the rest. -/
theorem exists_kept_dropped (updates : List ClientDelta) (rank : ClientDelta → Option ℝ)
    {k : ℕ} (hk : k ≤ updates.length) : ∃ kept dropped,
      ((ranking (updates.map rank)).take k).filterMap (fun i => updates[i]?) = kept ∧
      (kept++dropped).Perm updates ∧ kept.length = k ∧
      ∀ u ∈ kept, ∀ v ∈ dropped, ofRank (rank v) ≤ ofRank (rank u) := by
  have hkey {i : ℕ} {u : ClientDelta} (hu : updates[i]? = some u) :
      (updates.map rank).getD i none = rank u := by
    rw [List.getD_eq_getElem?_getD, List.getElem?_map, hu]
    rfl
  rw [ranking_real, List.length_map]
  generalize hkey' : (fun i => OrderDual.toDual (ofRank ((updates.map rank).getD i none))) = key
  have hperm := @StableSort.sortBy_perm _ _ _ key (List.range updates.length)
  have hsorted := @StableSort.sortBy_sorted _ _ _ key (List.range updates.length)
  generalize StableSort.sortBy key (List.range updates.length) = order at hperm hsorted
  refine ⟨_,(order.drop k).filterMap (fun i => updates[i]?),rfl,?_,?_,fun u hu v hv => ?_⟩
  · rw [← List.filterMap_append, List.take_append_drop]
    have h := hperm.filterMap fun i => updates[i]?
    rwa [Robust.filterMap_range_getElem?] at h
  · have hlen : (order.take k).length = k := by
      rw [List.length_take, hperm.length_eq, List.length_range, min_eq_left hk]
    rw [List.length_filterMap_eq_countP, List.countP_eq_length.mpr, hlen]
    intro i hi
    have hlt := List.mem_range.mp (hperm.mem_iff.mp (List.mem_of_mem_take hi))
    rw [List.getElem?_eq_getElem hlt]
    rfl
  · obtain ⟨i,hi,hu⟩ := List.mem_filterMap.mp hu
    obtain ⟨j,hj,hv⟩ := List.mem_filterMap.mp hv
    rw [StableSort.SortedBy, ← List.take_append_drop k order, List.pairwise_append] at hsorted
    have hle := hsorted.2.2 i hi j hj
    rw [← hkey'] at hle
    rwa [← hkey hu, ← hkey hv]

end Kept

section Zeno
variable {dim : ℕ} {byzantineFraction rho : F32} {injected : Injected} {c : CandidateScores}
  {updates : List ClientDelta}

theorem zeno_of_accepted (byzantineFraction rho : F32) (hc : injected.scores = some c) (hglobal : c.globalWeights.length = dim)
    (h : Accepted updates dim) : (zeno (ν := ℝ) byzantineFraction rho injected updates).1 =
      (takeScores c.scores updates).map fun scores =>
        zenoModel byzantineFraction rho (stored c.globalWeights) scores (updates.map row) := by
  unfold zeno
  rw [h.onBatch]
  dsimp only
  rw [hc, h.length_headD, embed_words]
  dsimp only
  rw [if_neg (not_not.mpr hglobal)]
  cases takeScores c.scores updates <;> rfl

/-- The model is the mean of the updates worth most. -/
theorem zenoModel_real (hglobal : c.globalWeights.length = dim)
    (hrow : ∀ u ∈ updates, (row u).length = dim) {score : ClientDelta → F32}
    (hscore : ∀ u ∈ updates, lastScore c.scores u.clientId = some (score u)) :
    ∃ kept dropped, (kept++dropped).Perm updates ∧
      kept.length = updates.length-byzantineCount byzantineFraction updates.length ∧
      (∀ u ∈ kept, ∀ v ∈ dropped, worth dim rho c v ≤ worth dim rho c u) ∧
      zenoModel byzantineFraction rho (stored c.globalWeights) (updates.map score)
        (updates.map row) = mixture dim kept fun _ => 1/kept.length := by
  obtain ⟨kept,dropped,hkept,hperm,hlen,hworth⟩ := exists_kept_dropped updates (rankOf dim rho c)
    (Nat.sub_le updates.length (byzantineCount byzantineFraction updates.length))
  refine ⟨kept,dropped,hperm,hlen,hworth,?_⟩
  have hranks : (updates.map score).zipWith (fun s w => suspicion rho s w (stored c.globalWeights))
      (updates.map row) = updates.map (rankOf dim rho c) := by
    rw [List.zipWith_map, List.zipWith_self]
    exact List.map_congr_left fun u hu => suspicion_eq_rankOf (hrow u hu) hglobal (hscore u hu)
  have hrows : ((ranking (updates.map (rankOf dim rho c))).take
      (updates.length-byzantineCount byzantineFraction updates.length)).filterMap
        (fun i => (updates.map row)[i]?) = kept.map row := by
    rw [← hkept, List.map_filterMap]
    exact List.filterMap_congr fun i _ => List.getElem?_map
  unfold zenoModel
  dsimp only
  rw [hranks, List.length_map, hrows, stored, List.length_map, hglobal]
  exact sharedMean_row fun u hu => hrow u (hperm.mem_iff.mp (List.mem_append_left _ hu))

/-- What Zeno does with a batch of distinct clients: it fails for want of a score exactly when
there is none for one of them, and otherwise drops as many as are assumed Byzantine, none of them
worth more than one that counts. -/
structure KeepsWorthiest (byzantineFraction rho : F32) (injected : Injected) (c : CandidateScores)
    (dim : ℕ) (updates : List ClientDelta) : Prop where
  unscored : (∃ clientId, (zeno (ν := ℝ) byzantineFraction rho injected updates).1 =
    .error (.unscoredClient clientId)) ↔ ∃ u ∈ updates, ∀ e ∈ c.scores, e.1 ≠ u.clientId
  scored : (∀ u ∈ updates, ∃ e ∈ c.scores, e.1 = u.clientId) → ∃ kept dropped,
    (kept++dropped).Perm updates ∧
    kept.length = updates.length-byzantineCount byzantineFraction updates.length ∧
    (∀ u ∈ kept, ∀ v ∈ dropped, worth dim rho c v ≤ worth dim rho c u) ∧
    (zeno (ν := ℝ) byzantineFraction rho injected updates).1 =
      .ok (mixture dim kept fun _ => 1/kept.length)

theorem zeno_keepsWorthiest (hc : injected.scores = some c)
    (hglobal : c.globalWeights.length = dim) (h : Accepted updates dim)
    (hnodup : (updates.map ClientDelta.clientId).Nodup) :
    KeepsWorthiest byzantineFraction rho injected c dim updates := by
  have hscored (hall : ∀ u ∈ updates, ∃ e ∈ c.scores, e.1 = u.clientId) (u : ClientDelta)
      (hu : u ∈ updates) : lastScore c.scores u.clientId =
        some ((lastScore c.scores u.clientId).getD F32.zero) := by
    cases hlast : lastScore c.scores u.clientId with
    | none =>
      obtain ⟨e,he,heq⟩ := hall u hu
      exact absurd heq (lastScore_eq_none_iff.mp hlast e he)
    | some s => rfl
  have hcall := zeno_of_accepted byzantineFraction rho hc hglobal h
  constructor
  · rw [hcall]
    constructor
    · rintro ⟨clientId,herror⟩
      by_contra hnone
      push Not at hnone
      rw [takeScores_ok hnodup (hscored hnone)] at herror
      cases herror
    · rintro ⟨u,hu,hnone⟩
      obtain ⟨clientId,herror⟩ := takeScores_error hnodup ⟨u,hu,lastScore_eq_none_iff.mpr hnone⟩
      exact ⟨clientId,by rw [herror]; rfl⟩
  · intro hall
    obtain ⟨kept,dropped,hperm,hlen,hworth,hmodel⟩ :=
      zenoModel_real hglobal (fun u hu => h.length_row hu) (hscored hall)
    refine ⟨kept,dropped,hperm,hlen,hworth,?_⟩
    rw [hcall, takeScores_ok hnodup (hscored hall), ← hmodel]
    rfl

/-- One client scored twice, one with no number, and one that sent nothing. -/
theorem zeno_keepsWorthiest_mixedScores :
    KeepsWorthiest F32.one F32.one
      ⟨none,some ⟨[F32.zero],[("a",F32.zero),("b",⟨0x7f800000⟩),("c",F32.one),("a",F32.one)]⟩⟩
      ⟨[F32.zero],[("a",F32.zero),("b",⟨0x7f800000⟩),("c",F32.one),("a",F32.one)]⟩ 1
      [sent "b" [F32.zero],sent "a" [F32.one]] :=
  zeno_keepsWorthiest rfl rfl
    ⟨List.cons_ne_nil _ _,[[F32.zero],[F32.one]],by decide +kernel,rfl⟩ (by decide)

end Zeno
end ConfluxFL.Trusted
