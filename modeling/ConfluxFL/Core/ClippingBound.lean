import ConfluxFL.Core.Euclid
import ConfluxFL.Lib.Means

/-! How far centered clipping lets a client pull. The step is the mean of the clipped deviations,
so none of them counts for more than the radius, whatever was sent. -/
namespace ConfluxFL.Temporal
open Fallible

section Clip
variable {E : Type*} [NormedAddCommGroup E] [NormedSpace ℝ E] {radius : ℝ}

/-- A deviation cut down to the radius; one of length zero is not rescaled. -/
noncomputable def clip (radius : ℝ) (x : E) : E :=
  (if 0 < ‖x‖ then min (radius/‖x‖) 1 else 1)•x

theorem norm_clip_le (h : 0 ≤ radius) (x : E) : ‖clip radius x‖ ≤ radius := by
  unfold clip
  split_ifs with hx
  · have hscale : 0 ≤ min (radius/‖x‖) 1 := le_min (div_nonneg h hx.le) zero_le_one
    rw [norm_smul, Real.norm_of_nonneg hscale]
    calc min (radius/‖x‖) 1*‖x‖
      _ ≤ radius/‖x‖*‖x‖ := mul_le_mul_of_nonneg_right (min_le_left _ _) hx.le
      _ = radius := div_mul_cancel₀ radius hx.ne'
  · rw [one_smul]
    exact (not_lt.mp hx).trans h

end Clip

section Step
variable {clipRadius : F32} {v : List ℝ} {n : ℕ}

theorem clipScale_real (clipRadius : F32) (d : ℝ) :
    clipScale clipRadius d = if 0 < d then min (clipRadius.toReal/d) 1 else 1 := by
  unfold clipScale
  rw [Floating.min_real]
  exact if_congr decide_eq_true_iff rfl rfl

theorem euclid_addScaledDifference {acc w : List ℝ} (hacc : acc.length = n) (hw : w.length = n)
    (hv : v.length = n) (scale : ℝ) : euclid n (addScaledDifference acc w v scale) =
      euclid n acc+scale•(euclid n w-euclid n v) := by
  ext i
  have hacc : i < acc.length := hacc.symm ▸ i.2
  have hw : i < w.length := hw.symm ▸ i.2
  have hv : i < v.length := hv.symm ▸ i.2
  have hzip : (w.zip v).getD i (0,0) = (w.getD i 0,v.getD i 0) := Coordinates.getD_zipWith 0 0 _ hw hv
  rw [euclid_apply, addScaledDifference, Coordinates.getD_zipWith 0 (0,0) 0 hacc
    (by rw [List.length_zip]; exact lt_min hw hv), hzip]
  exact congrArg (acc.getD i 0+·) (mul_comm _ _)

/-- What the step adds up. -/
theorem euclid_clippedSum (clipRadius : F32) {decoded : List (List ℝ)} (h : ∀ w ∈ decoded, w.length = v.length)
    {acc : List ℝ} (hacc : acc.length = v.length) :
    euclid v.length (decoded.foldl (fun acc w =>
        addScaledDifference acc w v (clipScale clipRadius (wideDistance w v))) acc) =
      euclid v.length acc+
        (decoded.map fun w => clip clipRadius.toReal (euclid v.length w-euclid v.length v)).sum := by
  induction decoded generalizing acc with
  | nil => simp
  | cons w decoded ih =>
    have hw := h w List.mem_cons_self
    rw [List.foldl_cons, ih (fun w' hw' => h w' (List.mem_cons_of_mem w hw'))
      (length_addScaledDifference hacc hw rfl _), euclid_addScaledDifference hacc hw rfl,
      clipScale_real, wideDistance_real hw rfl, List.map_cons, List.sum_cons, add_assoc]
    rfl

/-- The new reference is the old one moved by the mean of the clipped deviations. -/
theorem euclid_clippedStep {decoded : List (List ℝ)} (h : ∀ w ∈ decoded, w.length = v.length) :
    euclid v.length (clippedStep clipRadius decoded v) = euclid v.length v+
      Means.mean decoded fun w => clip clipRadius.toReal (euclid v.length w-euclid v.length v) := by
  have hlen := length_foldl (fun acc w hw hacc =>
    length_addScaledDifference hacc (h w hw) rfl (clipScale clipRadius (wideDistance w v)))
    (length_zeros v.length)
  have hsum := euclid_clippedSum clipRadius h (length_zeros v.length)
  rw [euclid_zeros, zero_add] at hsum
  rw [Means.mean_eq, ← hsum]
  ext i
  rw [euclid_apply, clippedStep, Coordinates.getD_zipWith 0 0 0 i.2 (by rw [hlen]; exact i.2)]
  exact congrArg (v.getD i 0+·) (div_eq_inv_mul _ _ |>.trans (congrArg (·*_) (one_div _).symm))

end Step

section Bound
variable {clipRadius : F32} {v : List ℝ} {updates updates' : List ClientDelta}

/-- What a call leaves behind when it knows the reference to clip against. -/
theorem centeredClipping_of_accepted (clipRadius : F32) (h : Accepted updates v.length) :
    centeredClipping clipRadius (some v) updates =
      (.ok (clippedStep clipRadius (updates.map row) v),
        some (clippedStep clipRadius (updates.map row) v)) := by
  have hdim : ((updates.map row).headD []).length = v.length := by
    rw [← embed_words, length_headD_embed, h.length_headD]
  unfold centeredClipping
  rw [h.onBatch]
  dsimp only
  rw [embed_words, clippingReference, hdim, Option.filter_some, if_pos (decide_eq_true rfl)]
  rfl

theorem euclid_clippedStep_row (h : Accepted updates v.length) :
    euclid v.length (clippedStep clipRadius (updates.map row) v) = euclid v.length v+
      Means.mean updates fun u =>
        clip clipRadius.toReal (euclid v.length (row u)-euclid v.length v) := by
  rw [euclid_clippedStep fun w hw => by
    obtain ⟨u,hu,rfl⟩ := List.mem_map.mp hw
    exact h.length_row hu]
  simp only [Means.mean_eq, List.length_map, List.map_map]
  rfl

/-- The stored reference moves by no more than the radius, and whoever exchanges `changed`
updates of the batch moves the outcome by no more than twice their share of it. -/
theorem centeredClipping_influence (hradius : 0 ≤ clipRadius.toReal)
    (h : Accepted updates v.length) :
    ∃ next, centeredClipping clipRadius (some v) updates = (.ok next,some next) ∧
      next.length = v.length ∧
      ‖euclid v.length next-euclid v.length v‖ ≤ clipRadius.toReal ∧
      ∀ updates' changed, Accepted updates' v.length → updates.length = updates'.length →
        (updates.diff updates').length ≤ changed →
        ∃ next', centeredClipping clipRadius (some v) updates' = (.ok next',some next') ∧
          next'.length = v.length ∧ ‖euclid v.length next-euclid v.length next'‖ ≤
            2*changed*clipRadius.toReal/updates.length := by
  have hlen {updates : List ClientDelta} (h : Accepted updates v.length) :
      (clippedStep clipRadius (updates.map row) v).length = v.length :=
    length_clippedStep clipRadius fun w hw => by
      obtain ⟨u,hu,rfl⟩ := List.mem_map.mp hw
      exact h.length_row hu
  have hclip (u : ClientDelta) :=
    norm_clip_le hradius (euclid v.length (row u)-euclid v.length v)
  refine ⟨_,centeredClipping_of_accepted clipRadius h,hlen h,?_,
    fun updates' changed h' hcount hchanged =>
      ⟨_,centeredClipping_of_accepted clipRadius h',hlen h',?_⟩⟩
  · rw [euclid_clippedStep_row h, add_sub_cancel_left]
    exact Means.norm_mean_le hradius fun u _ => hclip u
  · rw [euclid_clippedStep_row h, euclid_clippedStep_row h', add_sub_add_left_eq_sub]
    exact Means.norm_mean_sub_mean_le hcount hradius (fun u _ => hclip u) (fun u _ => hclip u)
      hchanged

/-- Two updates clipped around the origin. -/
theorem centeredClipping_influence_origin :
    ∃ next, centeredClipping F32.one (some [0])
        [sent "a" [F32.one],sent "b" [F32.zero]] = (.ok next,some next) ∧ next.length = 1 ∧
      ‖euclid 1 next-euclid 1 [0]‖ ≤ F32.one.toReal ∧
      ∀ updates' changed, Accepted updates' 1 → 2 = updates'.length →
        ([sent "a" [F32.one],sent "b" [F32.zero]].diff updates').length ≤ changed →
        ∃ next', centeredClipping F32.one (some [0]) updates' = (.ok next',some next') ∧
          next'.length = 1 ∧ ‖euclid 1 next-euclid 1 next'‖ ≤
            2*changed*F32.one.toReal/(2 : ℕ) := by
  refine @centeredClipping_influence F32.one [0] [sent "a" [F32.one],sent "b" [F32.zero]]
    (by rw [F32.toReal_one]; exact zero_le_one) ⟨List.cons_ne_nil _ _,?_⟩
  exact ⟨[[F32.one],[F32.zero]],by decide +kernel,rfl⟩

end Bound
end ConfluxFL.Temporal
