import ConfluxFL.Config.Preconditions
import ConfluxFL.Lib.FloatMonotone

/-! Whether the batch size a requirement names is enough. It is computed from the count excluded
at the present size, and that count grows with the batch. -/
namespace ConfluxFL
variable {aggregator : String} {φ : F32} {n m c : ℕ}

/-- The required size and every larger one satisfy the requirement they get themselves. -/
def RequirementStands (aggregator : String) (byzantineFraction : F32) (n : ℕ) : Prop :=
  ∃ req, batchRequirement aggregator byzantineFraction n = some req ∧
    ∀ n', max req.required 1 ≤ n' → n' < 2^32 →
      meetsRequirement aggregator byzantineFraction n' = true

/-- The methods that state a minimum, `m*f+c` for `f` excluded. -/
def citedRules : List (String × ℕ × ℕ) :=
  [("krum",2,3),("multi_krum",2,3),("bulyan",4,3),("trimmed_mean",2,1)]

theorem citedRules_bounds (h : (aggregator,m,c) ∈ citedRules) : 2 ≤ m ∧ m ≤ 4 ∧ 1 ≤ c ∧ c ≤ 3 := by
  simp only [citedRules, List.mem_cons, Prod.mk.injEq, List.not_mem_nil, or_false] at h
  omega

theorem citedMinimum_of_mem (h : (aggregator,m,c) ∈ citedRules) (f : ℕ) :
    ∃ citation, citedMinimum aggregator f = some (m*f+c,citation) := by
  simp only [citedRules, List.mem_cons, Prod.mk.injEq, List.not_mem_nil, or_false] at h
  obtain ⟨rfl,rfl,rfl⟩ | ⟨rfl,rfl,rfl⟩ | ⟨rfl,rfl,rfl⟩ | ⟨rfl,rfl,rfl⟩ := h <;> exact ⟨_,rfl⟩

section Fraction
variable (hrule : (aggregator,m,c) ∈ citedRules)
  (hφ : F32.zero.le φ = true ∧ φ.le F32.one = true)
include hrule hφ

theorem batchRequirement_of_mem (hn : 0 < n) : ∃ citation,
    batchRequirement aggregator φ n = some ⟨m*excludedAt φ n+c,excludedAt φ n,citation⟩ := by
  obtain ⟨citation,hcited⟩ := citedMinimum_of_mem hrule (excludedAt φ n)
  refine ⟨citation,?_⟩
  simp [batchRequirement, hn.ne', hφ.1, hφ.2, hcited]

theorem meets_iff (hn : 0 < n) :
    meetsRequirement aggregator φ n = true ↔ m*excludedAt φ n+c ≤ n := by
  obtain ⟨citation,hreq⟩ := batchRequirement_of_mem hrule hφ hn
  rw [meetsRequirement, hreq]
  exact decide_eq_true_iff

end Fraction

/-- A larger batch has no fewer updates excluded. -/
theorem excludedAt_le {n' : ℕ} (hn : 0 < n) (hle : n ≤ n') (hmax : n' < 2^127) :
    excludedAt φ n ≤ excludedAt φ n' :=
  min_le_min (F32.floorToNat_mul_le hn hle hmax) (Nat.sub_le_sub_right hle 1)

/-- Rounding does not make up for the gap between a rule's sizes for two counts. -/
theorem next_scale {v a k₀ k ε : ℚ} (hv : 0 < v) (ha : 2 ≤ a) (ha' : a ≤ 4) (hk₀ : 1 ≤ k₀)
    (hk₀' : k₀ ≤ 500) (hk : k₀+1 ≤ k) (hpos : 0 < ε) (hsmall : ε ≤ 1/1000000)
    (hlow : v*((a*k₀+2)*(1-1/8388608)-ε)*(1-1/8388608) < k₀+ε) :
    v*((a*k+2)*(1+1/8388608)+ε)*(1+1/8388608)+ε < k := by
  obtain ⟨N₀,hN₀⟩ : ∃ N₀, a*k₀+2 = N₀ := ⟨_,rfl⟩
  obtain ⟨N,hN⟩ : ∃ N, a*k+2 = N := ⟨_,rfl⟩
  have hak₀ : 2*1 ≤ a*k₀ := mul_le_mul ha hk₀ (by norm_num) (by linarith)
  have hak₀' : a*k₀ ≤ 4*500 := mul_le_mul ha' hk₀' (by linarith) (by norm_num)
  have hak : 2*1 ≤ a*k := mul_le_mul ha (by linarith) (by norm_num) (by linarith)
  have hak' : a*k ≤ 4*k := mul_le_mul_of_nonneg_right ha' (by linarith)
  have hN₀low : 4 ≤ N₀ := by linarith
  have hN₀high : N₀ ≤ 2002 := by linarith
  have hNlow : 4 ≤ N := by linarith
  have hNhigh : N ≤ 4*k+2 := by linarith
  rw [hN₀] at hlow
  rw [hN]
  have hbelow : v*(N₀*(1-1/2000000)) ≤ v*(N₀*(1-1/8388608)-ε)*(1-1/8388608) := by
    rw [mul_assoc]
    refine mul_le_mul_of_nonneg_left ?_ hv.le
    linarith
  have habove : v*(N*(1+1/8388608)+ε)*(1+1/8388608) ≤ v*(N*(1+1/2000000)) := by
    rw [mul_assoc]
    refine mul_le_mul_of_nonneg_left ?_ hv.le
    linarith
  by_contra hge
  have hlarge : k-ε ≤ v*(N*(1+1/2000000)) := by linarith
  have hless : v*(N₀*(1-1/2000000)) < k₀+ε := by linarith
  have hcross : (k-ε)*(N₀*(1-1/2000000)) < (k₀+ε)*(N*(1+1/2000000)) := by
    calc (k-ε)*(N₀*(1-1/2000000)) ≤ v*(N*(1+1/2000000))*(N₀*(1-1/2000000)) :=
          mul_le_mul_of_nonneg_right hlarge (by linarith)
      _ = v*(N₀*(1-1/2000000))*(N*(1+1/2000000)) := by ring
      _ < (k₀+ε)*(N*(1+1/2000000)) := mul_lt_mul_of_pos_right hless (by linarith)
  have hgap : k*N₀-k₀*N = 2*(k-k₀) := by
    rw [← hN₀, ← hN]
    ring
  have hkle : k ≤ 501*(k-k₀) := by linarith
  have hprod : k*N₀ ≤ k*2002 := mul_le_mul_of_nonneg_left hN₀high (by linarith)
  have hε₀ : ε*N₀ ≤ 1/1000000*2002 := mul_le_mul hsmall hN₀high (by linarith) (by norm_num)
  have hεN : ε*N ≤ 1/1000000*(4*k+2) := mul_le_mul hsmall hNhigh (by linarith) (by norm_num)
  linarith

/-- Where `k` are not yet excluded at the largest batch too small for `k`, no more are at the
largest batch too small for more. -/
theorem floorToNat_next {k₀ k : ℕ} (hm : 2 ≤ m) (hm' : m ≤ 4) (hk₀ : 1 ≤ k₀) (hk₀' : k₀ ≤ 500)
    (hk : k₀ < k) (hmax : k < 2^32) (h : (φ*F32.ofNat (m*k₀+2)).floorToNat < k₀) :
    (φ*F32.ofNat (m*k+2)).floorToNat < k := by
  have hsize₀ : m*k₀ ≤ 4*500 := Nat.mul_le_mul hm' hk₀'
  have hsize : m*k ≤ 4*2^32 := Nat.mul_le_mul hm' hmax.le
  by_cases hzero : (φ*F32.ofNat (m*k+2)).floorToNat = 0
  · omega
  have hpositive :=
    F32.positive_of_floorToNat_mul (by omega) (by omega) (Nat.pos_of_ne_zero hzero)
  obtain hinf | ⟨i,e,hi,hx⟩ := FloatFormat.positive_cases hpositive
  · rw [F32.floorToNat_infinity_mul (by omega) (by omega) hinf] at h
    omega
  · have hlow := F32.mul_lt_of_floorToNat hx (show 0 < m*k₀+2 by omega) (by omega)
      (show _ < 2^64-1 by omega) rfl
    refine F32.floorToNat_mul_lt hx (by omega) (by omega) (by omega) (by omega) ?_
    have hvalue : (0 : ℚ) < i*2^e := mul_pos (Nat.cast_pos.mpr hi) (zpow_pos (by norm_num) e)
    have hcount : (((φ*F32.ofNat (m*k₀+2)).floorToNat : ℕ) : ℚ)+1 ≤ k₀ := by exact_mod_cast h
    rw [F32.ulp_binary32] at hlow ⊢
    push_cast at hlow ⊢
    exact next_scale hvalue (by exact_mod_cast hm) (by exact_mod_cast hm')
      (by exact_mod_cast hk₀) (by exact_mod_cast hk₀') (by exact_mod_cast hk) (by norm_num)
      (by norm_num) (hlow.trans_le (by linarith))

section Fraction
variable (hrule : (aggregator,m,c) ∈ citedRules)
  (hφ : F32.zero.le φ = true ∧ φ.le F32.one = true)
include hrule hφ

/-- The advice holds when no later count is reached at a batch that is too small for it. -/
theorem stands_iff (hn : 0 < n) : RequirementStands aggregator φ n ↔
    (m*excludedAt φ n+c < 2^32 → ∀ k, excludedAt φ n < k →
      excludedAt φ (min (m*k+c-1) (2^32-1)) < k) := by
  obtain ⟨hm,-,hc,-⟩ := citedRules_bounds hrule
  obtain ⟨citation,hreq⟩ := batchRequirement_of_mem hrule hφ hn
  constructor
  · rintro ⟨req,hreq',hstands⟩ hR k hk
    cases hreq.symm.trans hreq'
    by_contra hge
    have hmul : m*excludedAt φ n+m ≤ m*k := by
      rw [← Nat.mul_succ]
      exact Nat.mul_le_mul_left m hk
    have hmeets := hstands (min (m*k+c-1) (2^32-1)) (max_le (by dsimp only; omega) (by omega))
      (by omega)
    rw [meets_iff hrule hφ (by omega)] at hmeets
    have hmul' : m*k ≤ m*excludedAt φ (min (m*k+c-1) (2^32-1)) :=
      Nat.mul_le_mul_left m (Nat.le_of_not_lt hge)
    omega
  · intro hlater
    refine ⟨_,hreq,fun n' hn' hmax => ?_⟩
    dsimp only at hn'
    rw [meets_iff hrule hφ (by omega)]
    by_contra hshort
    have hk : excludedAt φ n < excludedAt φ n' := by
      by_contra hle
      have := Nat.mul_le_mul_left m (Nat.le_of_not_lt hle)
      omega
    have hless := hlater (by omega) _ hk
    have hle := @excludedAt_le φ n' (min (m*excludedAt φ n'+c-1) (2^32-1)) (by omega) (by omega)
      (by omega)
    omega

/-- For methods with a gap between their sizes and few excluded, the next count decides. -/
theorem stands_iff_next (hc : c = 3) (hn : 0 < n) (hfew : excludedAt φ n < 500) :
    RequirementStands aggregator φ n ↔
      excludedAt φ (m*(excludedAt φ n+1)+c-1) ≤ excludedAt φ n := by
  subst hc
  obtain ⟨hm,hm',-⟩ := citedRules_bounds hrule
  obtain ⟨f,hf⟩ : ∃ f, excludedAt φ n = f := ⟨_,rfl⟩
  rw [stands_iff hrule hφ hn]
  rw [hf] at hfew ⊢
  have hsize : m*f ≤ 4*500 := Nat.mul_le_mul hm' hfew.le
  have hnext : m*(f+1) = m*f+m := Nat.mul_succ m f
  constructor
  · intro hlater
    have hless := hlater (by omega) (f+1) (by omega)
    rw [min_eq_left (by omega)] at hless
    exact Nat.le_of_lt_succ hless
  · intro hnext' _ k hk
    have hpred (j : ℕ) : m*j+3-1 = m*j+2 := rfl
    have hgrow : f ≤ m*f := Nat.le_mul_of_pos_left f (by omega)
    rw [hpred] at hnext' ⊢
    have hfloor : (φ*F32.ofNat (m*(f+1)+2)).floorToNat < f+1 := by
      unfold excludedAt at hnext'
      omega
    obtain ⟨N,hN⟩ : ∃ N, m*k+2 = N := ⟨_,rfl⟩
    rw [hN]
    obtain hsmall | hlarge := Nat.lt_or_ge k (2^32)
    · have hlast : (φ*F32.ofNat N).floorToNat < k := by
        rw [← hN]
        obtain rfl | hlt := Nat.eq_or_lt_of_le hk
        · exact hfloor
        · exact floorToNat_next hm hm' (by omega) (by omega) hlt hsmall hfloor
      have hmk : m*k ≤ 4*2^32 := Nat.mul_le_mul hm' hsmall.le
      have hle := @excludedAt_le φ (min N (2^32-1)) N (by omega) (by omega) (by omega)
      exact hle.trans_lt ((min_le_left _ _).trans_lt hlast)
    · have hcap := @excludedAt_lt φ (min N (2^32-1)) (by omega)
      omega

end Fraction

/-- The size a requirement names is enough exactly when no count that is still to come is reached
at the largest batch its rule finds too small for it; for Krum and Bulyan with fewer than five
hundred excluded, it is enough to look at the next count. -/
theorem requirementStands_iff (aggregator : String) (byzantineFraction : F32) (n m c : ℕ)
    (hrule : (aggregator,m,c) ∈ citedRules)
    (hfraction : F32.zero.le byzantineFraction = true ∧ byzantineFraction.le F32.one = true)
    (hn : 1 ≤ n) :
    (RequirementStands aggregator byzantineFraction n ↔
      (m*excludedAt byzantineFraction n+c < 2^32 → ∀ k, excludedAt byzantineFraction n < k →
        excludedAt byzantineFraction (min (m*k+c-1) (2^32-1)) < k)) ∧
    (aggregator ≠ "trimmed_mean" → excludedAt byzantineFraction n < 500 →
      (RequirementStands aggregator byzantineFraction n ↔
        excludedAt byzantineFraction (m*(excludedAt byzantineFraction n+1)+c-1) ≤
          excludedAt byzantineFraction n)) := by
  refine ⟨stands_iff hrule hfraction hn,fun hne hfew => ?_⟩
  refine stands_iff_next hrule hfraction ?_ hn hfew
  simp only [citedRules, List.mem_cons, Prod.mk.injEq, List.not_mem_nil, or_false] at hrule
  obtain ⟨-,-,rfl⟩ | ⟨-,-,rfl⟩ | ⟨-,-,rfl⟩ | ⟨rfl,-,-⟩ := hrule
  · rfl
  · rfl
  · rfl
  · exact absurd rfl hne

theorem requirementStands_documented : RequirementStands "krum" ⟨0x3e99999a⟩ 4 :=
  ((requirementStands_iff "krum" ⟨0x3e99999a⟩ 4 2 3 (by decide) (by decide) (by decide)).2
    (by decide) (by decide)).mpr (by decide)

/-- Krum for a fraction of 0.49: at four updates it asks for five, at five it asks for seven. -/
theorem not_requirementStands_nearHalf : ¬RequirementStands "krum" ⟨0x3efae148⟩ 4 := by
  rintro ⟨req,hreq,hstands⟩
  have hfive : batchRequirement "krum" ⟨0x3efae148⟩ 4 =
      some ⟨5,1,"Krum requires n ≥ 2f + 3"⟩ := by decide
  cases hfive.symm.trans hreq
  have hmeets := hstands 5 (by decide) (by decide)
  revert hmeets
  decide

end ConfluxFL
