import ConfluxFL.Core.Euclid
import ConfluxFL.Lib.Means

/-! What FLTrust's reference is good for. The model moves by a mean of vectors as long as the
server's own update, weighed by how far each client agrees with it; one that does not agree
weighs nothing, and nobody's length matters. -/
namespace ConfluxFL.Trusted

section Votes
variable {E : Type*} [NormedAddCommGroup E] [InnerProductSpace ℝ E] {g₀ g g' : E}

/-- The cosine with the server's update, cut off at zero. -/
noncomputable def trust (g₀ g : E) : ℝ := max (inner ℝ g g₀/(‖g‖*‖g₀‖)) 0

/-- A client's update at the length of the server's own. -/
noncomputable def aligned (g₀ g : E) : E := (‖g₀‖/‖g‖)•g

theorem trust_nonneg (g₀ g : E) : 0 ≤ trust g₀ g := le_max_right _ _

theorem trust_eq_zero (h : inner ℝ g g₀ ≤ 0) : trust g₀ g = 0 :=
  max_eq_right (div_nonpos_of_nonpos_of_nonneg h (mul_nonneg (norm_nonneg g) (norm_nonneg g₀)))

theorem norm_aligned_le (g₀ g : E) : ‖aligned g₀ g‖ ≤ ‖g₀‖ := by
  unfold aligned
  rw [norm_smul, Real.norm_of_nonneg (div_nonneg (norm_nonneg g₀) (norm_nonneg g))]
  rw [div_mul_eq_mul_div, mul_div_assoc]
  exact mul_le_of_le_one_right (norm_nonneg g₀) (div_self_le_one ‖g‖)

theorem trust_smul {c : ℝ} (hc : 0 < c) : trust g₀ (c•g) = trust g₀ g := by
  unfold trust
  rw [real_inner_smul_left, norm_smul, Real.norm_of_nonneg hc.le, mul_assoc,
    mul_div_mul_left _ _ hc.ne']

theorem aligned_smul {c : ℝ} (hc : 0 < c) : aligned g₀ (c•g) = aligned g₀ g := by
  unfold aligned
  rw [norm_smul, Real.norm_of_nonneg hc.le, smul_smul, mul_comm c, div_mul_eq_mul_div,
    mul_div_mul_right _ _ hc.ne']

/-- Two updates that count for the same. -/
def SameVote (g₀ g g' : E) : Prop :=
  trust g₀ g = trust g₀ g' ∧ trust g₀ g•aligned g₀ g = trust g₀ g'•aligned g₀ g'

theorem SameVote.of_nonpos (h : inner ℝ g g₀ ≤ 0) (h' : inner ℝ g' g₀ ≤ 0) : SameVote g₀ g g' := by
  unfold SameVote
  rw [trust_eq_zero h, trust_eq_zero h', zero_smul, zero_smul]
  exact ⟨rfl,rfl⟩

theorem SameVote.of_smul {c : ℝ} (hc : 0 < c) (h : g' = c•g) : SameVote g₀ g g' := by
  unfold SameVote
  rw [h, trust_smul hc, aligned_smul hc]
  exact ⟨rfl,rfl⟩

theorem weighted_congr {ι : Type*} {l l' : List ι} {at' : ι → E}
    (h : List.Forall₂ (fun i i' => SameVote g₀ (at' i) (at' i')) l l') :
    Means.weighted l (fun i => trust g₀ (at' i)) (fun i => aligned g₀ (at' i)) =
      Means.weighted l' (fun i => trust g₀ (at' i)) fun i => aligned g₀ (at' i) := by
  have hsums : (l.map fun i => trust g₀ (at' i)).sum = (l'.map fun i => trust g₀ (at' i)).sum ∧
      (l.map fun i => trust g₀ (at' i)•aligned g₀ (at' i)).sum =
        (l'.map fun i => trust g₀ (at' i)•aligned g₀ (at' i)).sum := by
    induction h with
    | nil => exact ⟨rfl,rfl⟩
    | cons hvote _ ih =>
      simp only [List.map_cons, List.sum_cons]
      rw [hvote.2, hvote.1, ih.1, ih.2]
      exact ⟨rfl,rfl⟩
  unfold Means.weighted
  rw [hsums.1, hsums.2]

end Votes

section Model
variable {n : ℕ} {reference global : List ℝ}

theorem euclid_deviation {w : List ℝ} (hw : w.length = n) (hglobal : global.length = n) :
    euclid n (deviation w global) = euclid n w-euclid n global := euclid_sub hw hglobal

/-- What one update adds. Where the step passes an update over, its trust is zero. -/
theorem trustStep_spec (hglobal : global.length = n) {g₀ w : List ℝ} (hg₀ : g₀.length = n)
    (hw : w.length = n) {acc : ℝ × List ℝ} (hacc : acc.2.length = n) :
    (trustStep g₀ global acc w).1 = acc.1+trust (euclid n g₀) (euclid n w-euclid n global) ∧
      (trustStep g₀ global acc w).2.length = n ∧
      euclid n (trustStep g₀ global acc w).2 = euclid n acc.2+
        trust (euclid n g₀) (euclid n w-euclid n global)•
          aligned (euclid n g₀) (euclid n w-euclid n global) := by
  have hdev : (deviation w global).length = n := by
    rw [deviation, List.length_zipWith, hw, hglobal, Nat.min_self]
  rw [← euclid_deviation hw hglobal]
  have htrust : (Floating.max (wideCosine (deviation w global) g₀) 0 : ℝ) =
      trust (euclid n g₀) (euclid n (deviation w global)) := by
    rw [Floating.max_real, wideCosine_real hdev hg₀]
    rfl
  have hskip (h : trust (euclid n g₀) (euclid n (deviation w global)) = 0) :
      acc.1 = acc.1+trust (euclid n g₀) (euclid n (deviation w global)) ∧ acc.2.length = n ∧
        euclid n acc.2 = euclid n acc.2+trust (euclid n g₀) (euclid n (deviation w global))•
          aligned (euclid n g₀) (euclid n (deviation w global)) := by
    rw [h, zero_smul, add_zero, add_zero]
    exact ⟨rfl,hacc,rfl⟩
  unfold trustStep
  dsimp only
  rw [htrust, wideNorm_real hdev, wideNorm_real hg₀]
  split_ifs with hle hzero
  · exact hskip (le_antisymm (of_decide_eq_true hle) (trust_nonneg _ _))
  · have hzero : ‖euclid n (deviation w global)‖ = 0 := of_decide_eq_true hzero
    refine hskip ?_
    rw [trust, hzero, zero_mul, div_zero, max_self]
  · refine ⟨rfl,by rw [List.length_zipWith, hacc, hdev, Nat.min_self],?_⟩
    have hsum := euclid_zipWith n (g := id) (trust (euclid n g₀) (euclid n (deviation w global))*
      (‖euclid n g₀‖/‖euclid n (deviation w global)‖)) hacc hdev
    rw [List.map_id, mul_smul] at hsum
    exact hsum

theorem foldl_trustStep (hglobal : global.length = n) {g₀ : List ℝ} (hg₀ : g₀.length = n)
    {decoded : List (List ℝ)} (h : ∀ w ∈ decoded, w.length = n) {acc : ℝ × List ℝ}
    (hacc : acc.2.length = n) :
    (decoded.foldl (trustStep g₀ global) acc).1 = acc.1+
        (decoded.map fun w => trust (euclid n g₀) (euclid n w-euclid n global)).sum ∧
      (decoded.foldl (trustStep g₀ global) acc).2.length = n ∧
      euclid n (decoded.foldl (trustStep g₀ global) acc).2 = euclid n acc.2+
        (decoded.map fun w => trust (euclid n g₀) (euclid n w-euclid n global)•
          aligned (euclid n g₀) (euclid n w-euclid n global)).sum := by
  induction decoded generalizing acc with
  | nil => simpa using hacc
  | cons w decoded ih =>
    obtain ⟨hsum,hlen,hvector⟩ := trustStep_spec hglobal hg₀ (h w List.mem_cons_self) hacc
    obtain ⟨ihsum,ihlen,ihvector⟩ := ih (fun w' hw' => h w' (List.mem_cons_of_mem w hw')) hlen
    rw [List.foldl_cons, List.map_cons, List.map_cons, List.sum_cons, List.sum_cons]
    exact ⟨by rw [ihsum, hsum, add_assoc],ihlen,by rw [ihvector, hvector, add_assoc]⟩

/-- The new model is the global one moved by the mean of the aligned updates. -/
theorem euclid_trustedModel (hglobal : global.length = n) (href : reference.length = n)
    {decoded : List (List ℝ)} (h : ∀ w ∈ decoded, w.length = n) :
    euclid n (trustedModel reference global decoded) = euclid n global+Means.weighted decoded
      (fun w => trust (euclid n reference-euclid n global) (euclid n w-euclid n global))
      fun w => aligned (euclid n reference-euclid n global) (euclid n w-euclid n global) := by
  have hg₀ : (deviation reference global).length = n := by
    rw [deviation, List.length_zipWith, href, hglobal, Nat.min_self]
  obtain ⟨hsum,hlen,hvector⟩ := @foldl_trustStep n global hglobal _ hg₀ decoded h
    (0,zeros global.length) ((length_zeros _).trans hglobal)
  rw [hglobal] at hsum hlen hvector
  rw [zero_add] at hsum
  rw [euclid_zeros, zero_add] at hvector
  rw [euclid_deviation href hglobal] at hsum hvector
  unfold trustedModel
  dsimp only
  rw [hglobal, Means.weighted, ← hsum, ← hvector]
  split
  · rename_i hle
    have hzero := le_antisymm (of_decide_eq_true hle) (hsum ▸ List.sum_nonneg fun x hx => by
      obtain ⟨w,-,rfl⟩ := List.mem_map.mp hx
      exact trust_nonneg _ _)
    rw [hzero, div_zero, zero_smul, add_zero]
  · have hmove := euclid_zipWith n (g := id)
      (1/(decoded.foldl (trustStep (deviation reference global) global) (0,zeros n)).1) hglobal hlen
    rw [List.map_id] at hmove
    rw [← hmove]
    refine congrArg (euclid n) (congrFun (congrFun (congrArg List.zipWith ?_) _) _)
    funext w acc
    exact congrArg (w+·) (div_eq_inv_mul _ _ |>.trans (congrArg (·*_) (one_div _).symm))

end Model

section Guarantee
variable {injected : Injected} {r : TrustedReference} {dim : ℕ} {updates updates' : List ClientDelta}

/-- An update's step away from the weights the round dispatched. -/
noncomputable def step (dim : ℕ) (r : TrustedReference) (v : List ℝ) : EuclideanSpace ℝ (Fin dim) :=
  euclid dim v-euclid dim (stored r.globalWeights)

/-- The server's own. -/
noncomputable def serverStep (dim : ℕ) (r : TrustedReference) : EuclideanSpace ℝ (Fin dim) :=
  step dim r (stored r.referenceWeights)

theorem flTrust_of_accepted (hr : injected.reference = some r)
    (hglobal : r.globalWeights.length = dim) (href : r.referenceWeights.length = dim)
    (h : Accepted updates dim) : flTrust injected updates =
      .ok (trustedModel (stored r.referenceWeights) (stored r.globalWeights) (updates.map row)) := by
  unfold flTrust
  rw [h.onBatch]
  dsimp only
  rw [h.length_headD, hr, embed_words]
  exact if_neg (not_or.mpr ⟨not_not.mpr hglobal,not_not.mpr href⟩)

theorem step_trustedModel (hglobal : r.globalWeights.length = dim)
    (href : r.referenceWeights.length = dim) (h : Accepted updates dim) :
    step dim r (trustedModel (stored r.referenceWeights) (stored r.globalWeights)
        (updates.map row)) =
      Means.weighted updates (fun u => trust (serverStep dim r) (step dim r (row u)))
        fun u => aligned (serverStep dim r) (step dim r (row u)) := by
  rw [step, euclid_trustedModel ((length_stored _).trans hglobal)
    ((length_stored _).trans href) fun w hw => by
      obtain ⟨u,hu,rfl⟩ := List.mem_map.mp hw
      exact h.length_row hu, add_sub_cancel_left]
  simp only [Means.weighted, List.map_map]
  rfl

theorem length_trustedModel_row (hglobal : r.globalWeights.length = dim) (h : Accepted updates dim) :
    (trustedModel (stored r.referenceWeights) (stored r.globalWeights)
      (updates.map row)).length = dim := by
  have hstored := (length_stored (ν := ℝ) r.globalWeights).trans hglobal
  rw [length_trustedModel _ fun w hw => by
    obtain ⟨u,hu,rfl⟩ := List.mem_map.mp hw
    exact (h.length_row hu).trans hstored.symm, hstored]

/-- Batches whose updates count for the same give the same model. -/
theorem trustedModel_congr (hglobal : r.globalWeights.length = dim)
    (href : r.referenceWeights.length = dim) (h : Accepted updates dim)
    (h' : Accepted updates' dim) (hvotes : List.Forall₂ (fun u u' =>
      SameVote (serverStep dim r) (step dim r (row u)) (step dim r (row u'))) updates updates') :
    trustedModel (stored r.referenceWeights) (stored r.globalWeights) (updates'.map row) =
      trustedModel (stored r.referenceWeights) (stored r.globalWeights : List ℝ)
        (updates.map row) := by
  refine eq_of_euclid_eq (length_trustedModel_row hglobal h') (length_trustedModel_row hglobal h) ?_
  have hsteps := (step_trustedModel hglobal href h').trans
    ((weighted_congr hvotes).symm.trans (step_trustedModel hglobal href h).symm)
  exact sub_left_injective hsteps

theorem trustedModel_of_untrusted (hglobal : r.globalWeights.length = dim)
    (href : r.referenceWeights.length = dim) (h : Accepted updates dim)
    (hnone : ∀ u ∈ updates, inner ℝ (step dim r (row u)) (serverStep dim r) ≤ 0) :
    trustedModel (stored r.referenceWeights) (stored r.globalWeights) (updates.map row) =
      (stored r.globalWeights : List ℝ) := by
  refine eq_of_euclid_eq (length_trustedModel_row hglobal h) ((length_stored _).trans hglobal) ?_
  have hzero : updates.map (fun u => trust (serverStep dim r) (step dim r (row u))) =
      updates.map fun _ => (0 : ℝ) :=
    List.map_congr_left fun u hu => trust_eq_zero (hnone u hu)
  have hstep := step_trustedModel hglobal href h
  rw [Means.weighted, hzero, List.map_const', List.sum_replicate, smul_zero, div_zero,
    zero_smul] at hstep
  exact sub_eq_zero.mp hstep

/-- What the reference promises of a batch's outcome: the model moves no farther than the server's
own update would, those that do not agree with it count for nothing, and how far a client went
does not count. -/
structure FollowsReference (injected : Injected) (r : TrustedReference) (dim : ℕ)
    (updates : List ClientDelta) (out : List ℝ) : Prop where
  bounded : ‖step dim r out‖ ≤ ‖serverStep dim r‖
  opposed : ∀ updates', Accepted updates' dim → List.Forall₂ (fun u u' => u = u' ∨
      inner ℝ (step dim r (row u)) (serverStep dim r) ≤ 0 ∧
        inner ℝ (step dim r (row u')) (serverStep dim r) ≤ 0) updates updates' →
    flTrust injected updates' = .ok out
  rescaled : ∀ updates', Accepted updates' dim → List.Forall₂ (fun u u' =>
      ∃ c : ℝ, 0 < c ∧ step dim r (row u') = c•step dim r (row u)) updates updates' →
    flTrust injected updates' = .ok out
  untrusted : (∀ u ∈ updates, inner ℝ (step dim r (row u)) (serverStep dim r) ≤ 0) →
    out = stored r.globalWeights

theorem flTrust_followsReference (hr : injected.reference = some r)
    (hglobal : r.globalWeights.length = dim) (href : r.referenceWeights.length = dim)
    (h : Accepted updates dim) : ∃ out, flTrust injected updates = .ok out ∧ out.length = dim ∧
      FollowsReference injected r dim updates out := by
  refine ⟨_,flTrust_of_accepted hr hglobal href h,length_trustedModel_row hglobal h,?_,
    fun updates' h' hvotes => ?_,fun updates' h' hvotes => ?_,
    trustedModel_of_untrusted hglobal href h⟩
  · rw [step_trustedModel hglobal href h]
    exact Means.norm_weighted_le (norm_nonneg _) (fun u _ => trust_nonneg _ _)
      fun u _ => norm_aligned_le _ _
  · rw [flTrust_of_accepted hr hglobal href h', trustedModel_congr hglobal href h h']
    refine hvotes.imp fun u u' hvote => ?_
    rcases hvote with rfl | ⟨hu,hu'⟩
    · exact ⟨rfl,rfl⟩
    · exact .of_nonpos hu hu'
  · rw [flTrust_of_accepted hr hglobal href h', trustedModel_congr hglobal href h h']
    refine hvotes.imp fun u u' hvote => ?_
    obtain ⟨c,hc,heq⟩ := hvote
    exact .of_smul hc heq

theorem flTrust_followsReference_unitStep :
    ∃ out, flTrust ⟨some ⟨[F32.zero],[F32.one]⟩,none⟩
        [sent "a" [F32.one],sent "b" [F32.zero]] = .ok out ∧ out.length = 1 ∧
      FollowsReference ⟨some ⟨[F32.zero],[F32.one]⟩,none⟩ ⟨[F32.zero],[F32.one]⟩ 1
        [sent "a" [F32.one],sent "b" [F32.zero]] out :=
  flTrust_followsReference rfl rfl rfl
    ⟨List.cons_ne_nil _ _,[[F32.one],[F32.zero]],by decide +kernel,rfl⟩

end Guarantee
end ConfluxFL.Trusted
