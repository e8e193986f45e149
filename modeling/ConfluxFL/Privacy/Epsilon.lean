import Mathlib.Data.EReal.Operations
import Mathlib.Analysis.SpecialFunctions.Log.Basic
import Mathlib.Algebra.BigOperators.Group.Finset.Basic
import ConfluxFL.Privacy.Accountant

/-! Epsilon of a history, in exact arithmetic. A round without noise has infinite Rényi
divergence, so the values are extended reals; everything else is the code's own sum of rounds,
grouped by configuration, converted at every order of the grid and minimised. -/
namespace ConfluxFL
noncomputable section

def rdpOrders : List ℝ :=
  [1.25,1.5,1.75,2,2.5,3,4,5,6,8,10,12,16,20,24,32,48,64,96,128,192,256]

/-- The logarithm of a binomial coefficient, built up term by term. -/
def lnBinomial (order : ℕ) : ℕ → ℝ
  | 0 => 0
  | k+1 => lnBinomial order k+(Real.log (order-(k+1)+1 : ℕ)-Real.log (k+1 : ℕ))

/-- The order is cast to 32 bits; the largest of them stands for all that do not fit. -/
def lnTerms (alpha sigma q : ℝ) : List ℝ :=
  let order := min ⌊alpha⌋₊ (2^32-1)
  (List.range (order+1)).map fun k =>
    lnBinomial order k+(alpha-k)*Real.log (1-q)+k*Real.log q+k*(k-1)/(2*sigma*sigma)

/-- The subsampled bound at an integer order, summed in log space with the largest term
factored out. -/
def sampledGaussianRdp (alpha sigma q : ℝ) : Option ℝ :=
  if (Int.fract alpha = 0 ∧ 2 ≤ alpha) ∧ (0 < q ∧ q < 1) ∧ 0 < sigma then
    let terms := lnTerms alpha sigma q
    let largest := terms.foldl max (terms.headD 0)
    let total := (terms.map fun t => Real.exp (t-largest)).sum
    some (max ((largest+Real.log total)/(alpha-1)) 0)
  else none

/-- The bound without subsampling; dividing by a zero variance gives infinity. -/
def gaussianRdp (alpha sigma : ℝ) : EReal :=
  if sigma = 0 then ⊤ else ((alpha/(2*sigma*sigma) : ℝ) : EReal)

def rdpPerRound (alpha sigma q : ℝ) : EReal :=
  match sampledGaussianRdp alpha sigma q with
  | some tight =>
    if (tight : EReal) < gaussianRdp alpha sigma then tight else gaussianRdp alpha sigma
  | none => gaussianRdp alpha sigma

/-- One recorded round at one order. -/
def costAt (alpha : ℝ) (cost : RoundCost) : EReal :=
  rdpPerRound alpha cost.noiseMultiplier.toReal cost.sampleRate.toReal

/-- The total over distinct configurations, each counted in 32 bits. -/
def rdpTotal (alpha : ℝ) (rounds : List RoundCost) : EReal :=
  (rounds.dedup.map fun cost => (rounds.count cost % 2^32) • costAt alpha cost).sum

/-- The price of converting to a failure probability `delta` at one order. -/
def conversion (alpha delta : ℝ) : EReal := ((Real.log (1/delta)/(alpha-1) : ℝ) : EReal)

def epsilonFromRounds (rounds : List RoundCost) (delta : ℝ) : EReal :=
  if rounds = [] then 0
  else (rdpOrders.map fun alpha => rdpTotal alpha rounds+conversion alpha delta).foldl min ⊤

namespace RdpAccountant

def currentEpsilon (a : RdpAccountant) (delta : ℝ) : EReal := epsilonFromRounds a.rounds delta
def currentEpsilonForClient (a : RdpAccountant) (clientId : String) (delta : ℝ) : EReal :=
  epsilonFromRounds (a.clientRounds clientId) delta

end RdpAccountant
end

theorem gaussianRdp_nonneg {alpha : ℝ} (h : 0 ≤ alpha) (sigma : ℝ) :
    0 ≤ gaussianRdp alpha sigma := by
  unfold gaussianRdp
  split_ifs
  · exact le_top
  · have hdiv : 0 ≤ alpha/(2*sigma*sigma) :=
      div_nonneg h (by nlinarith [mul_self_nonneg sigma])
    exact_mod_cast hdiv

theorem sampledGaussianRdp_nonneg {alpha sigma q tight : ℝ}
    (h : sampledGaussianRdp alpha sigma q = some tight) : 0 ≤ tight := by
  unfold sampledGaussianRdp at h
  split_ifs at h
  cases h
  exact le_max_right _ _

/-- No round gives privacy back. -/
theorem costAt_nonneg {alpha : ℝ} (h : 0 ≤ alpha) (cost : RoundCost) : 0 ≤ costAt alpha cost := by
  unfold costAt rdpPerRound
  split
  · rename_i tight htight
    split_ifs
    · exact_mod_cast sampledGaussianRdp_nonneg htight
    · exact gaussianRdp_nonneg h _
  · exact gaussianRdp_nonneg h _

theorem sum_map_eq_sum_dedup {α M : Type*} [DecidableEq α] [AddCommMonoid M] (l : List α)
    (f : α → M) : (l.map f).sum = (l.dedup.map fun a => l.count a • f a).sum := by
  rw [Finset.sum_list_map_count, ← List.sum_toFinset _ l.nodup_dedup]
  congr 1
  ext a
  simp

/-- Below the 32-bit limit grouping changes nothing: the total is the sum over the rounds. -/
theorem rdpTotal_eq_sum {alpha : ℝ} {rounds : List RoundCost} (h : rounds.length < 2^32) :
    rdpTotal alpha rounds = (rounds.map (costAt alpha)).sum := by
  rw [sum_map_eq_sum_dedup, rdpTotal]
  congr 1
  apply List.map_congr_left
  intro cost _
  have hc : rounds.count cost < 2^32 := lt_of_le_of_lt List.count_le_length h
  rw [Nat.mod_eq_of_lt hc]

theorem foldl_min_le_iff {l : List EReal} {m t : EReal} :
    l.foldl min m ≤ t ↔ m ≤ t ∨ ∃ x ∈ l, x ≤ t := by
  induction l generalizing m with
  | nil => simp
  | cons x l ih =>
    rw [List.foldl_cons, ih, min_le_iff]
    simp only [List.mem_cons, exists_eq_or_imp]
    tauto

theorem rdpTotal_nonneg {alpha : ℝ} (h : 0 ≤ alpha) (rounds : List RoundCost) :
    0 ≤ rdpTotal alpha rounds := by
  apply List.sum_nonneg
  intro x hx
  obtain ⟨cost,_,rfl⟩ := List.mem_map.mp hx
  exact nsmul_nonneg (costAt_nonneg h cost) _

theorem rdpOrders_bounds {alpha : ℝ} (h : alpha ∈ rdpOrders) : 1 < alpha ∧ alpha ≤ 256 := by
  have hall : ∀ a ∈ rdpOrders, 1 < a ∧ a ≤ 256 := by
    simp only [rdpOrders, List.forall_mem_cons, List.not_mem_nil, false_implies, implies_true,
      and_true]
    norm_num
  exact hall alpha h

end ConfluxFL
