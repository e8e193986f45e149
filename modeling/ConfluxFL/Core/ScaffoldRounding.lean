import ConfluxFL.Core.Scaffold
import ConfluxFL.Lib.Coordinates
import ConfluxFL.Lib.DoubleError

/-! SCAFFOLD's control variate in machine arithmetic. It is a function of the raw control variates
a round takes in, and where nothing overflows it is the carried one plus their damped sum, up to
the roundings. -/
namespace ConfluxFL
namespace Scaffold
variable {numClients dim : ℕ} {raw : List (List F32)} {base : Option (List F32)}

/-- The damped sum of raw control variates. -/
def wideSum (numClients : ℕ) (raw : List (List F32)) (dim : ℕ) : List F64 :=
  let damping : F64 := 1/F64.ofNat (population numClients)
  raw.foldl (fun acc dc => acc.zipWith (fun a v => a+damping*F64.ofF32 v) dc) (zeros dim)

/-- The control variate a round that takes these in leaves, in machine arithmetic. -/
def released (base : Option (List F32)) (numClients : ℕ) (raw : List (List F32)) (dim : ℕ) :
    List F32 :=
  let step := wideSum numClients raw dim
  match base with
  | none => if (step.map F64.toF32).all F32.isFinite then step.map F64.toF32 else zeros dim
  | some control =>
    let next := control.zipWith (fun c d => F64.toF32 (F64.ofF32 c+d)) step
    if step.any (fun d => !d.beq F64.zero) && next.all F32.isFinite then next else control

theorem control_seedState_eq_released (numClients : ℕ) (updates : List ClientDelta)
    (seed : List F32) : (seedState numClients updates seed).control =
      released none numClients (updates.filterMap (usableVariate seed.length)) seed.length := by
  unfold seedState released
  dsimp only
  split <;> rename_i hall
  · exact (if_pos hall).symm
  · exact (if_neg hall).symm

theorem nextControl_eq_released (numClients : ℕ) (updates : List ClientDelta)
    (s : ScaffoldState F32) : nextControl numClients updates s =
      released (some s.control) numClients (updates.filterMap (usableVariate s.model.length))
        s.model.length := rfl

/-- A round that takes nothing in leaves the control variate as it is. -/
theorem released_nil (control : List F32) (numClients dim : ℕ) :
    released (some control) numClients [] dim = control := by
  have hany : (wideSum numClients [] dim).any (fun d => !d.beq F64.zero) = false := by
    rw [List.any_eq_false]
    intro d hd
    rw [List.eq_of_mem_replicate hd]
    decide
  unfold released
  dsimp only
  rw [hany]
  rfl

/-- Raw control variates the aggregator can take in. -/
def Usable (dim : ℕ) (raw : List (List F32)) : Prop :=
  ∀ dc ∈ raw, dc.length = dim ∧ ∀ v ∈ dc, v.isFinite = true

theorem length_wideSum (h : Usable dim raw) : (wideSum numClients raw dim).length = dim :=
  length_foldl (fun acc dc hdc hacc => by
    rw [List.length_zipWith, hacc, (h dc hdc).1, Nat.min_self]) (length_zeros dim)

theorem isNear_damping (hpop : population numClients < 2^32) :
    (1/F64.ofNat (population numClients) : F64).IsNear 1 (1/population numClients) ∧
      (1/population numClients : ℝ) ≤ 1 ∧ (2 : ℝ)^(-100 : ℤ) ≤ 1/population numClients := by
  have hone : (1 : ℝ) ≤ population numClients := by
    exact_mod_cast le_max_right numClients 1
  have hpos : (0 : ℝ) < population numClients := zero_lt_one.trans_le hone
  have hle : (1/population numClients : ℝ) ≤ 1 := (div_le_one hpos).mpr hone
  have hlt : (population numClients : ℝ) ≤ 2^100 := by
    have : (population numClients : ℝ) ≤ 2^32 := by exact_mod_cast hpop.le
    exact this.trans (pow_le_pow_right₀ (by norm_num) (by norm_num))
  have hleast : (2 : ℝ)^(-100 : ℤ) ≤ 1/population numClients := by
    have hexp : (-100 : ℤ) = -((100 : ℕ) : ℤ) := rfl
    rw [hexp, zpow_neg, zpow_natCast, ← one_div]
    exact one_div_le_one_div_of_le hpos hlt
  have hnum : (1 : F64).IsNear 0 1 :=
    F64.IsNear.of_exact (by decide) F64.toReal_one zero_le_one
  have hpow : (2 : ℝ)^(-1000 : ℤ) ≤ 2^(-100 : ℤ) :=
    zpow_le_zpow_right₀ (by norm_num) (by norm_num)
  refine ⟨?_,hle,hleast⟩
  exact hnum.div (F64.IsNear.ofNat (by omega)) hpos (by norm_num)
    ⟨hle.trans (one_le_pow₀ (by norm_num)),.inr (hpow.trans hleast)⟩

section Coordinate
variable (hpop : population numClients < 2^32) (hraw : Usable dim raw) (hfew : raw.length ≤ 2^24)
  {i : ℕ} (hi : i < dim)
include hpop hraw hfew hi

theorem holdsSum_wideSum
    (hsmall : 1/population numClients*(raw.map fun dc => |(dc.getD i F32.zero).toReal|).sum ≤
      (2 : ℝ)^126) :
    ((wideSum numClients raw dim).getD i 0).HoldsSum (3+raw.length)
      (1/population numClients*(raw.map fun dc => (dc.getD i F32.zero).toReal).sum)
      (1/population numClients*(raw.map fun dc => |(dc.getD i F32.zero).toReal|).sum) := by
  obtain ⟨hd,hle,hleast⟩ := isNear_damping hpop
  have hpow : (2 : ℝ)^126 ≤ 2^1000 := pow_le_pow_right₀ (by norm_num) (by norm_num)
  have hfinite : ∀ dc ∈ raw, (dc.getD i F32.zero).isFinite = true := by
    intro dc hdc
    have hlt : i < dc.length := (hraw dc hdc).1.symm ▸ hi
    rw [List.getD_eq_getElem _ _ hlt]
    exact (hraw dc hdc).2 _ (List.getElem_mem hlt)
  have hfold := F64.HoldsSum.foldl_scale hd hle hleast hfinite
    (F64.HoldsSum.zero.mono (Nat.zero_le 3)) le_rfl (by rw [zero_add]; exact hsmall.trans hpow)
    (by omega)
  rw [zero_add, zero_add] at hfold
  rw [wideSum, Coordinates.getD_foldl_zipWith 0 F32.zero hi (fun dc hdc => (hraw dc hdc).1)
    (length_zeros dim), zeros, List.getD_replicate _ hi]
  exact hfold

/-- A coordinate of the variate a seeding round releases. -/
theorem seeded_error (hsmall : ∀ j < dim,
    1/population numClients*(raw.map fun dc => |(dc.getD j F32.zero).toReal|).sum ≤
      (2 : ℝ)^126) :
    |((released none numClients raw dim).getD i F32.zero).toReal-
        1/population numClients*(raw.map fun dc => (dc.getD i F32.zero).toReal).sum| ≤
      1/2^22*(1/population numClients*(raw.map fun dc => |(dc.getD i F32.zero).toReal|).sum)+
        2^(-149 : ℤ) := by
  have hlen : (wideSum numClients raw dim).length = dim := length_wideSum hraw
  have hnarrow (j : ℕ) (hj : j < dim) :=
    (holdsSum_wideSum hpop hraw hfew hj (hsmall j hj)).toF32 (by omega) (hsmall j hj)
  have hget (j : ℕ) (hj : j < dim) : ((wideSum numClients raw dim).map F64.toF32).getD j F32.zero =
      ((wideSum numClients raw dim).getD j 0).toF32 := by
    simp [List.getD_eq_getElem?_getD, hlen, hj]
  have hall : ((wideSum numClients raw dim).map F64.toF32).all F32.isFinite = true := by
    rw [Coordinates.all_iff_getD F32.zero, List.length_map, hlen]
    intro j hj
    rw [hget j hj]
    exact (hnarrow j hj).1
  unfold released
  dsimp only
  rw [if_pos hall, hget i hi]
  exact (hnarrow i hi).2

/-- A coordinate of the variate a later round releases. -/
theorem carried_error {control : List F32} (hclen : control.length = dim)
    (hcfinite : ∀ x ∈ control, x.isFinite = true)
    (hsmall : ∀ j < dim, |(control.getD j F32.zero).toReal|+
      1/population numClients*(raw.map fun dc => |(dc.getD j F32.zero).toReal|).sum ≤
        (2 : ℝ)^126) :
    |((released (some control) numClients raw dim).getD i F32.zero).toReal-
        ((control.getD i F32.zero).toReal+
          1/population numClients*(raw.map fun dc => (dc.getD i F32.zero).toReal).sum)| ≤
      1/2^22*(|(control.getD i F32.zero).toReal|+
        1/population numClients*(raw.map fun dc => |(dc.getD i F32.zero).toReal|).sum)+
          2^(-149 : ℤ) := by
  have hlen : (wideSum numClients raw dim).length = dim := length_wideSum hraw
  have hpow : (2 : ℝ)^126 ≤ 2^1000 := pow_le_pow_right₀ (by norm_num) (by norm_num)
  have hwide (j : ℕ) (hj : j < dim) := holdsSum_wideSum hpop hraw hfew hj
    ((le_add_of_nonneg_left (abs_nonneg _)).trans (hsmall j hj))
  have hcarried (j : ℕ) (hj : j < dim) : (control.getD j F32.zero).isFinite = true := by
    have hlt : j < control.length := hclen.symm ▸ hj
    rw [List.getD_eq_getElem _ _ hlt]
    exact hcfinite _ (List.getElem_mem hlt)
  have hsum (j : ℕ) (hj : j < dim) :=
    (((F64.HoldsSum.of_f32 (hcarried j hj)).mono (Nat.zero_le _)).add (hwide j hj)
      ((hsmall j hj).trans hpow) (by omega)).toF32 (by omega) (hsmall j hj)
  have hget (j : ℕ) (hj : j < dim) : (control.zipWith (fun c d => F64.toF32 (F64.ofF32 c+d))
      (wideSum numClients raw dim)).getD j F32.zero =
        F64.toF32 (F64.ofF32 (control.getD j F32.zero)+(wideSum numClients raw dim).getD j 0) :=
    Coordinates.getD_zipWith F32.zero 0 F32.zero (hclen.symm ▸ hj) (hlen.symm ▸ hj)
  have hall : (control.zipWith (fun c d => F64.toF32 (F64.ofF32 c+d))
      (wideSum numClients raw dim)).all F32.isFinite = true := by
    rw [Coordinates.all_iff_getD F32.zero, List.length_zipWith, hclen, hlen, min_self]
    intro j hj
    rw [hget j hj]
    exact (hsum j hj).1
  unfold released
  dsimp only
  rw [hall, Bool.and_true]
  split
  · rw [hget i hi]
    exact (hsum i hi).2
  · rename_i hnone
    -- every damped sum is zero here, so the terms cancel up to their roundings
    have hzero : ((wideSum numClients raw dim).getD i 0).toReal = 0 := by
      have hlt : i < (wideSum numClients raw dim).length := hlen.symm ▸ hi
      rw [List.getD_eq_getElem _ _ hlt]
      apply F64.toReal_of_beq_zero
      by_contra hne
      exact hnone (List.any_eq_true.mpr ⟨_,List.getElem_mem hlt,by simpa using hne⟩)
    have herror := (hwide i hi).error_le (by omega)
    rw [hzero, zero_sub, abs_neg] at herror
    rw [sub_add_cancel_left, abs_neg]
    have hnonneg := (abs_nonneg _).trans (hwide i hi).size
    have hpow' : (0 : ℝ) ≤ 2^(-149 : ℤ) := (zpow_pos (by norm_num) _).le
    have habs := abs_nonneg (control.getD i F32.zero).toReal
    linarith

end Coordinate

/-- Where nothing overflows a released coordinate is the carried one plus the damped sum, up to
the roundings. -/
theorem released_error (hpop : population numClients < 2^32) (hraw : Usable dim raw)
    (hfew : raw.length ≤ 2^24)
    (hbase : ∀ c ∈ base, c.length = dim ∧ ∀ x ∈ c, x.isFinite = true)
    (hsmall : ∀ i < dim, |((base.getD (zeros dim)).getD i F32.zero).toReal|+
      1/population numClients*(raw.map fun dc => |(dc.getD i F32.zero).toReal|).sum ≤
        (2 : ℝ)^126) {i : ℕ} (hi : i < dim) :
    |((released base numClients raw dim).getD i F32.zero).toReal-
        (((base.getD (zeros dim)).getD i F32.zero).toReal+
          1/population numClients*(raw.map fun dc => (dc.getD i F32.zero).toReal).sum)| ≤
      1/2^22*(|((base.getD (zeros dim)).getD i F32.zero).toReal|+
        1/population numClients*(raw.map fun dc => |(dc.getD i F32.zero).toReal|).sum)+
          2^(-149 : ℤ) := by
  cases base with
  | none =>
    have hzero (j : ℕ) (hj : j < dim) : ((zeros dim).getD j F32.zero).toReal = 0 := by
      rw [zeros, List.getD_replicate _ hj]
      rfl
    rw [Option.getD_none] at hsmall ⊢
    rw [hzero i hi, zero_add, abs_zero, zero_add]
    exact seeded_error hpop hraw hfew hi fun j hj =>
      (le_add_of_nonneg_left (abs_nonneg _)).trans (hsmall j hj)
  | some control =>
    obtain ⟨hclen,hcfinite⟩ := hbase control rfl
    exact carried_error hpop hraw hfew hi hclen hcfinite hsmall

end Scaffold
end ConfluxFL
