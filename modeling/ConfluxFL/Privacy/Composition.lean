import Mathlib.Order.Bounds.Basic
import ConfluxFL.Privacy.Epsilon

/-! Composition: grouping the rounds by configuration gives what composing them one by one does,
and epsilon is the least of the orders' bounds. -/
namespace ConfluxFL

theorem foldl_min_isLeast {l : List EReal} (h : l ≠ []) :
    IsLeast {x | x ∈ l} (l.foldl min ⊤) := by
  have hlow : ∀ x ∈ l, l.foldl min ⊤ ≤ x := fun x hx =>
    foldl_min_le_iff.mpr (.inr ⟨x,hx,le_rfl⟩)
  refine ⟨?_,hlow⟩
  obtain htop | ⟨x,hx,hle⟩ := foldl_min_le_iff.mp (le_refl (l.foldl min ⊤))
  · obtain ⟨x,hx⟩ := List.exists_mem_of_ne_nil l h
    have heq : l.foldl min ⊤ = x := (hlow x hx).antisymm (le_top.trans htop)
    change _ ∈ l
    rwa [heq]
  · have heq : l.foldl min ⊤ = x := (hlow x hx).antisymm hle
    change _ ∈ l
    rwa [heq]

/-- The bounds at the orders of the grid, with the rounds composed one by one. -/
def composedBounds (rounds : List RoundCost) (delta : ℝ) : Set EReal :=
  {x | ∃ alpha ∈ rdpOrders, (rounds.map (costAt alpha)).sum+conversion alpha delta = x}

section History
variable {rounds rounds' : List RoundCost} {delta : ℝ}

theorem epsilonFromRounds_isLeast (hne : rounds ≠ []) :
    IsLeast {x | ∃ alpha ∈ rdpOrders, rdpTotal alpha rounds+conversion alpha delta = x}
      (epsilonFromRounds rounds delta) := by
  have hset : {x | ∃ alpha ∈ rdpOrders, rdpTotal alpha rounds+conversion alpha delta = x} =
      {x | x ∈ rdpOrders.map fun alpha => rdpTotal alpha rounds+conversion alpha delta} := by
    ext x
    exact List.mem_map.symm
  rw [hset, epsilonFromRounds, if_neg hne]
  exact foldl_min_isLeast (by simp [rdpOrders])

theorem composedBounds_isLeast (hne : rounds ≠ []) (hlen : rounds.length < 2^32) :
    IsLeast (composedBounds rounds delta) (epsilonFromRounds rounds delta) := by
  have hleast := @epsilonFromRounds_isLeast rounds delta hne
  simp only [rdpTotal_eq_sum hlen] at hleast
  exact hleast

/-- Epsilon follows the totals when they rise at every order. -/
theorem epsilonFromRounds_le (hne : rounds ≠ []) (hne' : rounds' ≠ [])
    (h : ∀ alpha ∈ rdpOrders, rdpTotal alpha rounds ≤ rdpTotal alpha rounds') :
    epsilonFromRounds rounds delta ≤ epsilonFromRounds rounds' delta := by
  obtain ⟨alpha,halpha,heq⟩ := (@epsilonFromRounds_isLeast rounds' delta hne').1
  rw [← heq]
  exact ((epsilonFromRounds_isLeast hne).2 ⟨alpha,halpha,rfl⟩).trans
    (add_le_add_left (h alpha halpha) _)

theorem epsilonFromRounds_perm (h : rounds.Perm rounds') (hlen : rounds.length < 2^32) :
    epsilonFromRounds rounds delta = epsilonFromRounds rounds' delta := by
  have hlen' : rounds'.length < 2^32 := h.length_eq ▸ hlen
  have htotal (alpha : ℝ) : rdpTotal alpha rounds = rdpTotal alpha rounds' := by
    rw [rdpTotal_eq_sum hlen, rdpTotal_eq_sum hlen']
    exact (h.map _).sum_eq
  have hnil : rounds = [] ↔ rounds' = [] := by
    rw [← List.length_eq_zero_iff, h.length_eq, List.length_eq_zero_iff]
  simp only [epsilonFromRounds, htotal, hnil]

theorem conversion_pos {alpha : ℝ} (halpha : 1 < alpha) (hδ : 0 < delta) (hδ' : delta < 1) :
    0 < conversion alpha delta := by
  have hlog : 0 < Real.log (1/delta) := Real.log_pos (by rw [lt_div_iff₀ hδ]; linarith)
  exact EReal.coe_pos.mpr (div_pos hlog (sub_pos.mpr halpha))

theorem epsilonFromRounds_nonneg (hδ : 0 < delta) (hδ' : delta < 1) :
    0 ≤ epsilonFromRounds rounds delta := by
  by_cases hne : rounds = []
  · rw [epsilonFromRounds, if_pos hne]
  · obtain ⟨alpha,halpha,heq⟩ := (@epsilonFromRounds_isLeast rounds delta hne).1
    have hone := (rdpOrders_bounds halpha).1
    rw [← heq]
    exact add_nonneg (rdpTotal_nonneg (by linarith) rounds) (conversion_pos hone hδ hδ').le

theorem epsilonFromRounds_concat (hδ : 0 < delta) (hδ' : delta < 1)
    (hlen : rounds.length+1 < 2^32) (cost : RoundCost) :
    epsilonFromRounds rounds delta ≤ epsilonFromRounds (rounds++[cost]) delta := by
  by_cases hne : rounds = []
  · rw [epsilonFromRounds, if_pos hne]
    exact epsilonFromRounds_nonneg hδ hδ'
  · refine epsilonFromRounds_le hne (by simp) fun alpha halpha => ?_
    have hone := (rdpOrders_bounds halpha).1
    rw [rdpTotal_eq_sum (by omega), rdpTotal_eq_sum (by simpa using hlen), List.map_append,
      List.sum_append]
    refine le_add_of_nonneg_right ?_
    simpa using costAt_nonneg (by linarith) cost

end History

/-- The accountant's epsilon is the least bound of the rounds composed one by one, whatever their
order; it starts at zero and only grows, and the histories do not touch each other. -/
theorem currentEpsilon_composes (a : RdpAccountant) (delta : ℝ) (hδ : 0 < delta ∧ delta < 1)
    (hlen : a.rounds.length < 2^32) :
    (a.rounds ≠ [] → IsLeast (composedBounds a.rounds delta) (a.currentEpsilon delta)) ∧
    (a.rounds = [] → a.currentEpsilon delta = 0) ∧
    (∀ b : RdpAccountant, a.rounds.Perm b.rounds →
      b.currentEpsilon delta = a.currentEpsilon delta) ∧
    (∀ cost, a.rounds.length+1 < 2^32 →
      a.currentEpsilon delta ≤ (a.recordRound cost).currentEpsilon delta) ∧
    ∀ (clientId : String) (cost : RoundCost),
      (a.recordRoundForClient clientId cost).currentEpsilon delta = a.currentEpsilon delta ∧
      (∀ other, other ≠ clientId →
        (a.recordRoundForClient clientId cost).currentEpsilonForClient other delta =
          a.currentEpsilonForClient other delta) ∧
      (a.recordRound cost).currentEpsilonForClient clientId delta =
        a.currentEpsilonForClient clientId delta := by
  refine ⟨fun hne => composedBounds_isLeast hne hlen,fun hnil => ?_,fun b hperm => ?_,
    fun cost hlen' => ?_,fun clientId cost => ⟨rfl,fun other hother => ?_,rfl⟩⟩
  · rw [RdpAccountant.currentEpsilon, epsilonFromRounds, if_pos hnil]
  · exact (epsilonFromRounds_perm hperm hlen).symm
  · exact epsilonFromRounds_concat hδ.1 hδ.2 hlen' cost
  · simp [RdpAccountant.currentEpsilonForClient, RdpAccountant.recordRoundForClient, hother]

/-- Twice one configuration and, between the two, another one. -/
theorem currentEpsilon_composes_mixed :
    let full : RoundCost := ⟨F32.one,F32.one⟩
    let half : RoundCost := ⟨⟨0x40000000⟩,⟨0x3f000000⟩⟩
    let a := ((RdpAccountant.new.recordRound full).recordRound half).recordRound full
    let b := ((RdpAccountant.new.recordRound full).recordRound full).recordRound half
    IsLeast (composedBounds [full,half,full] (1/2)) (a.currentEpsilon (1/2)) ∧
      b.currentEpsilon (1/2) = a.currentEpsilon (1/2) ∧
      a.currentEpsilon (1/2) ≤ (a.recordRound half).currentEpsilon (1/2) := by
  intro full half a b
  obtain ⟨hleast,-,hperm,hmore,-⟩ := currentEpsilon_composes a (1/2) (by norm_num) (by decide)
  exact ⟨hleast (by decide),hperm b (by decide),hmore half (by decide)⟩

/-- Before the first round the bounds are positive and epsilon is zero. -/
theorem not_isLeast_emptyHistory : ¬IsLeast (composedBounds RdpAccountant.new.rounds (1/2))
    (RdpAccountant.new.currentEpsilon (1/2)) := by
  rintro ⟨⟨alpha,halpha,heq⟩,-⟩
  have hzero : RdpAccountant.new.currentEpsilon (1/2) = 0 := by
    rw [RdpAccountant.currentEpsilon, epsilonFromRounds]
    exact if_pos rfl
  have hpos := conversion_pos (rdpOrders_bounds halpha).1 (show (0 : ℝ) < 1/2 by norm_num)
    (by norm_num)
  have hsum : (RdpAccountant.new.rounds.map (costAt alpha)).sum = 0 := rfl
  rw [hzero, hsum, zero_add] at heq
  exact hpos.ne' heq

end ConfluxFL
