import Mathlib.Algebra.BigOperators.Group.Finset.Basic
import Mathlib.Data.List.Dedup
import ConfluxFL.Lib.DoubleError
import ConfluxFL.Privacy.Epsilon

/-! Epsilon of a history as the accountant computes it, in double precision. The logarithm and the
exponential are the platform's, and the groups are added up in the order a hash map happens to give
them in. What the code adds up is, up to the roundings, the plain sum over the rounds. -/
namespace ConfluxFL

/-- The platform's mathematical library. -/
structure Platform where
  ln : F64 → F64
  exp : F64 → F64

namespace Platform

def rdpOrders : List F64 :=
  [1.25,1.5,1.75,2.0,2.5,3.0,4.0,5.0,6.0,8.0,10.0,12.0,16.0,20.0,24.0,32.0,48.0,64.0,96.0,128.0,
    192.0,256.0]

/-- The logarithm of a binomial coefficient, built up term by term. -/
def lnBinomial (P : Platform) (order : ℕ) : ℕ → F64
  | 0 => 0.0
  | k+1 => lnBinomial P order k+(P.ln (F64.ofNat (order-(k+1)+1))-P.ln (F64.ofNat (k+1)))

variable (P : Platform)

def lnTerms (alpha sigma q : F64) : List F64 :=
  let order := min alpha.floorToNat (2^32-1)
  let lnQ := P.ln q
  let ln1mq := P.ln (F64.one-q)
  let twoSigmaSq := 2.0*sigma*sigma
  (List.range (order+1)).map fun n =>
    let k := F64.ofNat n
    P.lnBinomial order n+(alpha-k)*ln1mq+k*lnQ+k*(k-F64.one)/twoSigmaSq

/-- The subsampled bound at an integer order, summed in log space with the largest term
factored out. -/
def sampledGaussianRdp (alpha sigma q : F64) : Option F64 :=
  if alpha.isWhole && F64.le 2.0 alpha && (F64.zero.lt q && q.lt F64.one) && F64.zero.lt sigma then
    let lnTerms := P.lnTerms alpha sigma q
    let largest := lnTerms.foldl F64.maxNum F64.negInfinity
    if largest.isFinite then
      let sum := Floating.sum (lnTerms.map fun t => P.exp (t-largest))
      let rdp := (largest+P.ln sum)/(alpha-F64.one)
      if rdp.isFinite then some (rdp.maxNum 0.0) else none
    else none
  else none

/-- One round's cost at one order: the subsampled bound where it is the smaller one. -/
def rdpPerRound (alpha sigma q : F64) : F64 :=
  let full := alpha/(2.0*sigma*sigma)
  match P.sampledGaussianRdp alpha sigma q with
  | some tight => if tight.lt full then tight else full
  | none => full

/-- One recorded round at one order. -/
def costAt (alpha : F64) (cost : RoundCost) : F64 :=
  P.rdpPerRound alpha (F64.ofF32 cost.noiseMultiplier) (F64.ofF32 cost.sampleRate)

/-- The total over the distinct configurations in the order given, each counted in 32 bits. -/
def rdpTotal (alpha : F64) (configs rounds : List RoundCost) : F64 :=
  Floating.sum (configs.map fun cost =>
    P.costAt alpha cost*F64.ofNat (rounds.count cost % 2^32))

/-- The price of converting to a failure probability `delta` at one order. -/
def conversion (alpha delta : F64) : F64 := P.ln (F64.one/delta)/(alpha-F64.one)

def epsilonAt (delta alpha : F64) (configs rounds : List RoundCost) : F64 :=
  P.rdpTotal alpha configs rounds+P.conversion alpha delta

def epsilonFromRounds (delta : F64) (configs rounds : List RoundCost) : F64 :=
  if rounds = [] then 0.0
  else (rdpOrders.map fun alpha => P.epsilonAt delta alpha configs rounds).foldl F64.minNum
    F64.infinity

section Terms

/-- What the rounds of a history cost at one order, one by one. -/
noncomputable def spent (alpha : F64) (rounds : List RoundCost) : ℝ :=
  (rounds.map fun cost => (P.costAt alpha cost).toReal).sum

/-- How much the terms at one order come to in size. -/
noncomputable def termSize (delta alpha : F64) (rounds : List RoundCost) : ℝ :=
  (rounds.map fun cost => |(P.costAt alpha cost).toReal|).sum+|(P.conversion alpha delta).toReal|

/-- Every term at this order is a number, none comes near the largest one, and the counters of the
rounds do not wrap. -/
structure Numbers (delta alpha : F64) (rounds : List RoundCost) : Prop where
  cost : ∀ c ∈ rounds, (P.costAt alpha c).isFinite = true
  conversion : (P.conversion alpha delta).isFinite = true
  moderate : P.termSize delta alpha rounds ≤ ((2^1000 : ℕ) : ℝ)
  few : rounds.length < 2^32

end Terms

section Errors
variable {P} {delta alpha target : F64} {configs rounds : List RoundCost}

theorem sum_configs (hconfigs : configs.Perm rounds.dedup) (f : RoundCost → ℝ) :
    (configs.map fun c => rounds.count c*f c).sum = (rounds.map f).sum := by
  rw [(hconfigs.map _).sum_eq, sum_map_eq_sum_dedup rounds f]
  simp only [nsmul_eq_mul]

/-- The epsilon at an order is the plain sum over the rounds, up to the roundings, in whatever
order the groups come. -/
theorem holdsSum_epsilonAt (hconfigs : configs.Perm rounds.dedup)
    (h : P.Numbers delta alpha rounds) :
    (P.epsilonAt delta alpha configs rounds).HoldsSum (configs.length+2)
      (P.spent alpha rounds+(P.conversion alpha delta).toReal) (P.termSize delta alpha rounds) := by
  have hmoderate := h.moderate
  rw [Nat.cast_pow, Nat.cast_ofNat] at hmoderate
  have hconv := abs_nonneg (P.conversion alpha delta).toReal
  have hcosts : (rounds.map fun c => |(P.costAt alpha c).toReal|).sum ≤ 2^1000 :=
    (le_add_of_nonneg_right hconv).trans hmoderate
  have hsizes := sum_configs hconfigs fun c => |(P.costAt alpha c).toReal|
  have hlen : configs.length ≤ rounds.length :=
    hconfigs.length_eq.trans_le (List.dedup_sublist rounds).length_le
  have hfew := h.few
  have hterm : ∀ c ∈ configs,
      (P.costAt alpha c*F64.ofNat (rounds.count c % 2^32)).HoldsSum 1
        (rounds.count c*(P.costAt alpha c).toReal) (rounds.count c*|(P.costAt alpha c).toReal|) := by
    intro c hc
    have hcount : rounds.count c < 2^32 := List.count_le_length.trans_lt hfew
    have hmem : c ∈ rounds := List.mem_dedup.mp (hconfigs.mem_iff.mp hc)
    rw [Nat.mod_eq_of_lt hcount]
    refine F64.HoldsSum.mul_ofNat (h.cost c hmem) (by omega) (le_trans ?_ (hsizes.trans_le hcosts))
    refine List.single_le_sum (fun x hx => ?_) _ (List.mem_map.mpr ⟨c,hc,rfl⟩)
    obtain ⟨c',_,rfl⟩ := List.mem_map.mp hx
    exact mul_nonneg (Nat.cast_nonneg _) (abs_nonneg _)
  have hsum := F64.HoldsSum.sum hterm (hsizes.trans_le hcosts) (by omega)
  rw [sum_configs hconfigs, hsizes] at hsum
  have hadd := hsum.add ((F64.HoldsSum.of_exact h.conversion).mono (Nat.zero_le _)) hmoderate
    (by omega)
  rwa [Nat.add_comm 1, Nat.add_assoc] at hadd

theorem error_epsilonAt (hconfigs : configs.Perm rounds.dedup) (h : P.Numbers delta alpha rounds) :
    |(P.epsilonAt delta alpha configs rounds).toReal-
        (P.spent alpha rounds+(P.conversion alpha delta).toReal)| ≤
      1/((2^18 : ℕ) : ℝ)*P.termSize delta alpha rounds := by
  have hlen : configs.length ≤ rounds.length :=
    hconfigs.length_eq.trans_le (List.dedup_sublist rounds).length_le
  have hk : configs.length+2 ≤ 2^33 := by
    have := h.few
    omega
  have hsum := holdsSum_epsilonAt hconfigs h
  have hgrowth := F64.HoldsSum.growth_le (hk.trans (by norm_num))
  have hcast : ((configs.length+2 : ℕ) : ℝ) ≤ 2^33 := by exact_mod_cast hk
  have hfactor : (1+1/2^52 : ℝ)^(configs.length+2)-1 ≤ 1/((2^18 : ℕ) : ℝ) := by
    rw [Nat.cast_pow, Nat.cast_ofNat]
    linarith
  exact hsum.error.trans (mul_le_mul_of_nonneg_right hfactor ((abs_nonneg _).trans hsum.size))

/-- A history is within a target exactly when the code's value at some order is. -/
theorem epsilonFromRounds_le_iff (hne : rounds ≠ []) (htarget : target.isFinite = true) :
    (P.epsilonFromRounds delta configs rounds).le target = true ↔
      ∃ alpha ∈ rdpOrders, (P.epsilonAt delta alpha configs rounds).le target = true := by
  rw [epsilonFromRounds, if_neg hne, F64.foldl_minNum_le_iff]
  have hinf : F64.infinity.le target = false := F64.infinity_le_eq_false htarget
  simp only [hinf, Bool.false_eq_true, false_or, List.mem_map, exists_exists_and_eq_and]

end Errors
end Platform
end ConfluxFL
