import ConfluxFL.Core.ExactBatch
import ConfluxFL.Core.FlandersFraction

/-! FLANDERS's two kinds of score in exact arithmetic. A known client is measured over the sampled
coordinates, a new one over all of them, and both scores are ranked together. -/
namespace ConfluxFL.Flanders

section Coordinates
variable {dim limit : ℕ}

theorem lt_of_mem_forecastCoordinates {c : ℕ} (hc : c ∈ forecastCoordinates dim limit) :
    c < dim := by
  unfold forecastCoordinates at hc
  split_ifs at hc with h
  · exact List.mem_range.mp hc
  · obtain ⟨i,hi,rfl⟩ := List.mem_map.mp hc
    rw [Nat.div_lt_iff_lt_mul (Nat.pos_of_ne_zero (not_or.mp h).2), mul_comm dim]
    exact Nat.mul_lt_mul_of_pos_right (List.mem_range.mp hi) (by omega)

/-- Spread evenly over more coordinates than there are samples, no two fall together. -/
theorem pairwise_forecastCoordinates (dim limit : ℕ) :
    (forecastCoordinates dim limit).Pairwise (· < ·) := by
  unfold forecastCoordinates
  split_ifs with h
  · exact List.pairwise_lt_range
  · have hpos : 0 < limit := Nat.pos_of_ne_zero (not_or.mp h).2
    have hmono : StrictMono fun i => i*dim/limit := strictMono_nat_of_lt_succ fun i => by
      have hle : i*dim+limit ≤ (i+1)*dim := by
        rw [add_mul, one_mul]
        omega
      calc i*dim/limit < i*dim/limit+1 := Nat.lt_succ_self _
        _ = (i*dim+limit)/limit := (Nat.add_div_right _ hpos).symm
        _ ≤ (i+1)*dim/limit := Nat.div_le_div_right hle
    exact List.pairwise_map.mpr (List.pairwise_lt_range.imp fun hij => hmono hij)

theorem nodup_forecastCoordinates (dim limit : ℕ) : (forecastCoordinates dim limit).Nodup :=
  (pairwise_forecastCoordinates dim limit).imp fun hlt => hlt.ne

end Coordinates

/-- What a round expects of a client, when it has a forecast for it. -/
def expected {ω : Type} (forecast : Option (List (String × List ω))) (clientId : String) :
    Option (List ω) :=
  forecast.bind fun f => (f.find? fun e => e.1 = clientId).map Prod.snd

/-- Weights that deviate by `d` from their reference over these coordinates. -/
def DeviatesBy (d : ℕ → ℝ) (coords : List ℕ) (w reference : List ℝ) : Prop :=
  coords.zipWith (fun c r => w.getD c 0-r) reference = coords.map d

section Scores
variable {state : State ℝ} {updates : List ClientDelta} {decoded : List (List ℝ)}
  {u : ClientDelta} {w prediction global : List ℝ} {d : ℕ → ℝ}

/-- The squares are added up over the sampled coordinates only. -/
theorem roundScore_known
    (hknown : expected (roundForecast state updates decoded) u.clientId = some prediction)
    (hd : DeviatesBy d (forecastCoordinates (decoded.headD []).length maxForecastDim) w
      prediction) :
    roundScore state updates decoded u w =
      ((forecastCoordinates (decoded.headD []).length maxForecastDim).map
        fun c => d c*d c).sum := by
  unfold roundScore anomalyScore
  rw [expected] at hknown
  rw [hknown]
  dsimp only
  rw [Floating.sum_real]
  have hsquares := congrArg (List.map fun x : ℝ => x*x) hd
  rw [List.map_zipWith, List.map_map] at hsquares
  exact congrArg List.sum hsquares

/-- Over all of them, against the last model. -/
theorem roundScore_cold
    (hcold : expected (roundForecast state updates decoded) u.clientId = none)
    (hglobal : state.global = some global) (hw : w.length = (decoded.headD []).length)
    (hd : DeviatesBy d (List.range (decoded.headD []).length) w global) :
    roundScore state updates decoded u w =
      ((List.range (decoded.headD []).length).map fun c => d c*d c).sum := by
  unfold roundScore anomalyScore
  rw [expected] at hcold
  rw [hcold, hglobal]
  dsimp only
  rw [Floating.sum_real]
  have hsquares := congrArg (List.map fun x : ℝ => x*x) hd
  rw [← hw, List.map_zipWith, List.map_map] at hsquares
  rw [← hw]
  refine Eq.trans ?_ (congrArg List.sum hsquares)
  conv_lhs => rw [← Coordinates.map_range_getD w 0]
  rw [List.zipWith_map_left]
  rfl

end Scores

/-- How far a client's weights are from what they are measured against: the forecast where there
is one for it, else the last model. -/
inductive Deviates (state : State ℝ) (updates : List ClientDelta) (decoded : List (List ℝ))
    (d : ℕ → ℝ) (u : ClientDelta) (w : List ℝ) : Prop
  | known (prediction : List ℝ)
      (hknown : expected (roundForecast state updates decoded) u.clientId = some prediction)
      (hd : DeviatesBy d (forecastCoordinates (decoded.headD []).length maxForecastDim) w
        prediction)
  | cold (global : List ℝ)
      (hcold : expected (roundForecast state updates decoded) u.clientId = none)
      (hglobal : state.global = some global) (hw : w.length = (decoded.headD []).length)
      (hd : DeviatesBy d (List.range (decoded.headD []).length) w global)

/-- A round has a forecast for this client. -/
def isKnown {ν ω : Type} [Floating ν] [Floating ω] [Precision ν ω] (state : State ν)
    (updates : List ClientDelta) (decoded : List (List ν)) (u : ClientDelta) : Bool :=
  (expected (roundForecast state updates decoded) u.clientId).isSome

section Branches
variable {state : State ℝ} {updates : List ClientDelta} {decoded : List (List ℝ)} {d : ℕ → ℝ}
  {u u' : ClientDelta} {w w' : List ℝ}

theorem Deviates.roundScore_eq (h : Deviates state updates decoded d u w) :
    roundScore state updates decoded u w =
      ((if isKnown state updates decoded u
        then forecastCoordinates (decoded.headD []).length maxForecastDim
        else List.range (decoded.headD []).length).map fun c => d c*d c).sum := by
  unfold isKnown
  cases h with
  | known prediction hknown hd =>
    rw [hknown, Option.isSome_some, if_pos rfl, roundScore_known hknown hd]
  | cold global hcold hglobal hw hd =>
    rw [hcold, Option.isSome_none, if_neg Bool.false_ne_true, roundScore_cold hcold hglobal hw hd]

theorem sum_sampled_eq_iff (d : ℕ → ℝ) (dim limit : ℕ) :
    ((forecastCoordinates dim limit).map fun c => d c*d c).sum =
        ((List.range dim).map fun c => d c*d c).sum ↔
      ∀ c < dim, c ∉ forecastCoordinates dim limit → d c = 0 := by
  rw [Coordinates.sum_map_eq_sum_range_iff (nodup_forecastCoordinates dim limit)
    (fun c hc => lt_of_mem_forecastCoordinates hc) fun c => mul_self_nonneg (d c)]
  simp only [mul_self_eq_zero]

/-- Clients that deviate alike are scored alike exactly when they are measured against the same
kind of reference or deviate by nothing outside the sampled coordinates. -/
theorem roundScore_eq_iff (h : Deviates state updates decoded d u w)
    (h' : Deviates state updates decoded d u' w') :
    roundScore state updates decoded u w = roundScore state updates decoded u' w' ↔
      isKnown state updates decoded u = isKnown state updates decoded u' ∨
        ∀ c < (decoded.headD []).length,
          c ∉ forecastCoordinates (decoded.headD []).length maxForecastDim → d c = 0 := by
  have hsampled := sum_sampled_eq_iff d (decoded.headD []).length maxForecastDim
  rw [h.roundScore_eq, h'.roundScore_eq]
  cases isKnown state updates decoded u <;> cases isKnown state updates decoded u'
  · exact iff_of_true rfl (.inl rfl)
  · rw [or_iff_right Bool.false_ne_true, if_neg Bool.false_ne_true, if_pos rfl, eq_comm]
    exact hsampled
  · rw [or_iff_right (Ne.symm Bool.false_ne_true), if_pos rfl, if_neg Bool.false_ne_true]
    exact hsampled
  · exact iff_of_true rfl (.inl rfl)

end Branches
end ConfluxFL.Flanders
