import ConfluxFL.Core.KrumCounts
import ConfluxFL.Core.Robust
import ConfluxFL.Lib.Exact
import ConfluxFL.Lib.OrderStatistics
import Mathlib.Data.List.GetD

/-! The statistics taken one coordinate at a time, in exact arithmetic: with few enough corrupted
updates, what comes out lies between two honest values. -/
namespace ConfluxFL.Robust
open OrderStatistics

/-- The median of the means of consecutive groups. -/
def medianOfMeansBy {ν : Type} [Floating ν] (groupSize : ℕ) (values : List ν) : ν :=
  median ((chunks (max groupSize 1) values).map mean)

/-- The one of the catalog takes pairs. -/
theorem medianOfMeansBy_two {ν : Type} [Floating ν] (values : List ν) :
    medianOfMeansBy 2 values = medianOfMeans values := rfl

/-- What every update has at one coordinate. -/
noncomputable def column (decoded : List (List F32)) (k : ℕ) : List ℝ :=
  (embed decoded).map fun w => w.getD k 0

/-- A method answers for the batch, and at every coordinate between two honest values. -/
def AnswersBetween (aggregate : List ClientDelta → Except AggregatorError (List ℝ))
    (updates : List ClientDelta) (decoded : List (List F32)) (honest : ℕ → Bool) : Prop :=
  ∃ out, aggregate updates = .ok out ∧ out.length = (decoded.headD []).length ∧
    ∀ k, ∀ x ∈ out[k]?, Between honest (column decoded k) x

/-- Every update of group `i` is honest. -/
def groupHonest (honest : ℕ → Bool) (n size i : ℕ) : Bool :=
  (List.range n).all fun j => j/size ≠ i || honest j

/-- How many groups of `size` a batch of `n` has. -/
def groups (n size : ℕ) : ℕ := (n+size-1)/size

/-- Up to their own number of corrupted updates, or groups, the three statistics stay between
honest values. -/
structure StaysHonest (byzantineFraction : F32) (groupSize : ℕ) (updates : List ClientDelta)
    (decoded : List (List F32)) (honest : ℕ → Bool) : Prop where
  trimmedMean : corrupted honest updates.length ≤
      min (byzantineCount byzantineFraction updates.length) ((updates.length-1)/2) →
    AnswersBetween (coordinateWise (trimmedMean byzantineFraction)) updates decoded honest
  median : corrupted honest updates.length ≤ (updates.length-1)/2 →
    AnswersBetween (coordinateWise median) updates decoded honest
  medianOfMeans : corrupted (groupHonest honest updates.length (max groupSize 1))
      (groups updates.length (max groupSize 1)) ≤
        (groups updates.length (max groupSize 1)-1)/2 →
    AnswersBetween (coordinateWise (medianOfMeansBy groupSize)) updates decoded honest

section Values
variable {honest : ℕ → Bool} {values : List ℝ}

theorem mean_real (values : List ℝ) : mean values = values.sum/values.length := by
  rw [mean, Floating.sum_real, Floating.ofNat_real]

/-- An entry of the sorted values that is far enough from both ends. -/
theorem sortBy_between (hsome : ∃ i < values.length, honest i = true) {t k : ℕ}
    (hc : corrupted honest values.length ≤ t) (ht : t ≤ k) (hk : k+t < values.length) :
    Between honest values ((Floating.sortBy id values).getD k 0) := by
  have hperm := Floating.sortBy_perm values
  rw [List.getD_eq_getElem _ _ (by rw [hperm.length_eq]; omega)]
  exact between_sorted hsome hperm (Floating.sortBy_id_sorted values) hc ht hk

theorem trimmedMean_between (hsome : ∃ i < values.length, honest i = true)
    (byzantineFraction : F32) (hc : corrupted honest values.length ≤
      min (byzantineCount byzantineFraction values.length) ((values.length-1)/2)) :
    Between honest values (trimmedMean byzantineFraction values) := by
  have hlen := (Floating.sortBy_perm values).length_eq
  have hpos : 0 < values.length := by
    obtain ⟨i,hi,-⟩ := hsome
    omega
  unfold trimmedMean
  dsimp only
  have hcap : min (byzantineCount byzantineFraction values.length) ((values.length-1)/2) ≤
      (values.length-1)/2 := Nat.min_le_right _ _
  generalize min (byzantineCount byzantineFraction values.length) ((values.length-1)/2) = trim
    at hc hcap ⊢
  rw [mean_real]
  refine between_mean hsome (List.ne_nil_of_length_pos ?_) fun x hx => ?_
  · rw [List.length_take, List.length_drop, hlen]
    omega
  -- what is kept are the places from `trim` to `n-trim`
  · obtain ⟨i,hi,rfl⟩ := List.mem_iff_getElem.mp hx
    rw [List.length_take, List.length_drop, hlen] at hi
    rw [List.getElem_take, List.getElem_drop, ← List.getD_eq_getElem _ 0]
    exact sortBy_between hsome hc (by omega) (by omega)

theorem median_between (hsome : ∃ i < values.length, honest i = true)
    (hc : corrupted honest values.length ≤ (values.length-1)/2) :
    Between honest values (median values) := by
  have hpos : 0 < values.length := by
    obtain ⟨i,hi,-⟩ := hsome
    omega
  unfold median
  dsimp only
  split
  · exact sortBy_between hsome hc (by omega) (by omega)
  · have hlow := sortBy_between hsome hc (k := values.length/2-1) (by omega) (by omega)
    have hhigh := sortBy_between hsome hc (k := values.length/2) (by omega) (by omega)
    generalize (Floating.sortBy id values).getD (values.length/2-1) 0 = a at hlow ⊢
    generalize (Floating.sortBy id values).getD (values.length/2) 0 = b at hhigh ⊢
    have hmid : (a+b)/(2.0 : ℝ) = [a,b].sum/([a,b].length : ℕ) := by
      norm_num
    refine (congrArg (Between honest values) hmid).mpr ?_
    refine between_mean hsome (List.cons_ne_nil a [b]) fun x hx => ?_
    rcases List.mem_cons.mp hx with rfl | hx
    · exact hlow
    · rwa [List.mem_singleton.mp hx]

/-- Group `i` at its places. -/
theorem getElem?_chunks {α : Type} (size : ℕ) (xs : List α) (i : ℕ) {g : List α}
    (h : (chunks size xs)[i]? = some g) :
    i < groups xs.length size ∧ g = (xs.drop (i*size)).take size := by
  unfold chunks at h
  rw [List.getElem?_map] at h
  obtain ⟨j,hj,rfl⟩ := Option.map_eq_some_iff.mp h
  obtain ⟨hlt,heq⟩ := List.getElem?_eq_some_iff.mp hj
  rw [List.length_range] at hlt
  rw [List.getElem_range] at heq
  rw [← heq]
  exact ⟨hlt,rfl⟩

theorem groups_mul {n size i : ℕ} (hsize : 0 < size) (h : i < groups n size) : i*size < n := by
  unfold groups at h
  have hle := (Nat.le_div_iff_mul_le hsize).mp (Nat.succ_le_of_lt h)
  rw [Nat.succ_mul] at hle
  omega

/-- The mean of a group without a corrupted update lies between two of its honest values. -/
theorem between_mean_group (hsome : ∃ i < values.length, honest i = true) {size i : ℕ}
    (hsize : 0 < size) {g : List ℝ} (hg : (chunks size values)[i]? = some g)
    (hh : groupHonest honest values.length size i = true) : Between honest values (mean g) := by
  obtain ⟨hi,rfl⟩ := getElem?_chunks size values i hg
  have hstart := groups_mul hsize hi
  rw [mean_real]
  refine between_mean hsome (List.ne_nil_of_length_pos ?_) fun x hx => ?_
  · rw [List.length_take, List.length_drop]
    omega
  · obtain ⟨r,hr,hx⟩ := List.mem_iff_getElem.mp hx
    rw [List.length_take, List.length_drop] at hr
    have hlt : i*size+r < values.length := by omega
    have hget : values[i*size+r]? = some x := by
      rw [← hx, List.getElem_take, List.getElem_drop, List.getElem?_eq_getElem hlt]
    have hgroup : (i*size+r)/size = i := by
      rw [Nat.mul_comm, Nat.mul_add_div hsize, Nat.div_eq_of_lt (by omega), Nat.add_zero]
    have hhonest : honest (i*size+r) = true := by
      have := List.all_eq_true.mp hh (i*size+r) (List.mem_range.mpr hlt)
      simpa [hgroup] using this
    exact ⟨⟨_,_,hget,hhonest,le_rfl⟩,_,_,hget,hhonest,le_rfl⟩

/-- What lies between values that are between honest ones is between honest ones. -/
theorem between_trans (hsome : ∃ i < values.length, honest i = true) {good : ℕ → Bool}
    {inner : List ℝ} (h : ∀ i x, inner[i]? = some x → good i = true → Between honest values x)
    {x : ℝ} (hx : Between good inner x) : Between honest values x := by
  obtain ⟨lo,hi,-,hiff⟩ := exists_bounds hsome
  obtain ⟨⟨i,a,ha,hgood,hax⟩,j,b,hb,hgood',hxb⟩ := hx
  have hlow := ((hiff a).mp (h i a ha hgood)).1
  have hhigh := ((hiff b).mp (h j b hb hgood')).2
  exact (hiff x).mpr ⟨hlow.trans hax,hxb.trans hhigh⟩

theorem length_chunks {α : Type} (size : ℕ) (xs : List α) :
    (chunks size xs).length = groups xs.length size := by
  unfold chunks groups
  rw [List.length_map, List.length_range]

theorem medianOfMeansBy_between (hsome : ∃ i < values.length, honest i = true) (groupSize : ℕ)
    (hc : corrupted (groupHonest honest values.length (max groupSize 1))
        (groups values.length (max groupSize 1)) ≤
      (groups values.length (max groupSize 1)-1)/2) :
    Between honest values (medianOfMeansBy groupSize values) := by
  have hsize : 0 < max groupSize 1 := by omega
  have hpos : 0 < values.length := by
    obtain ⟨i,hi,-⟩ := hsome
    omega
  unfold medianOfMeansBy
  generalize max groupSize 1 = size at hc hsize ⊢
  have hlen : ((chunks size values).map mean).length = groups values.length size := by
    rw [List.length_map, length_chunks]
  have hgroups : 0 < groups values.length size := by
    unfold groups
    exact Nat.div_pos (by omega) hsize
  -- fewer than half of the groups are corrupted, so one is honest
  have hgood : ∃ i < ((chunks size values).map mean).length,
      groupHonest honest values.length size i = true := by
    rw [hlen]
    exact exists_honest (by omega)
  refine between_trans hsome (fun i x hx hh => ?_)
    (median_between hgood (by rw [hlen]; exact hc))
  rw [List.getElem?_map] at hx
  obtain ⟨g,hg,rfl⟩ := Option.map_eq_some_iff.mp hx
  exact between_mean_group hsome hsize hg hh

end Values

section Batch
variable {updates : List ClientDelta} {decoded : List (List F32)} {honest : ℕ → Bool}

theorem length_column (hd : decodeAndValidate updates = .ok decoded) (k : ℕ) :
    (column decoded k).length = updates.length := by
  rw [(decodeAndValidate_ok hd).1]
  simp [column, embed]

/-- What holds of every column holds of the batch. -/
theorem answersBetween_of (hd : decodeAndValidate updates = .ok decoded) (hne : updates ≠ [])
    {combine : List ℝ → ℝ} (h : ∀ k, Between honest (column decoded k)
      (combine (column decoded k))) :
    AnswersBetween (coordinateWise combine) updates decoded honest := by
  unfold AnswersBetween coordinateWise onBatch
  rw [if_neg hne, hd]
  refine ⟨_,rfl,by rw [List.length_map, List.length_range],fun k x hx => ?_⟩
  rw [List.getElem?_map] at hx
  obtain ⟨i,hi,rfl⟩ := Option.map_eq_some_iff.mp hx
  obtain ⟨hlt,rfl⟩ := List.getElem?_eq_some_iff.mp hi
  rw [List.getElem_range]
  exact h k

end Batch

/-- With some honest update in a valid batch, each statistic withstands as many corrupted ones as
it cuts off, or outvotes. -/
theorem coordinateWise_staysHonest (byzantineFraction : F32) (groupSize : ℕ)
    (updates : List ClientDelta) (decoded : List (List F32)) (honest : ℕ → Bool)
    (hd : decodeAndValidate updates = .ok decoded)
    (hsome : ∃ i < updates.length, honest i = true) :
    StaysHonest byzantineFraction groupSize updates decoded honest := by
  have hne : updates ≠ [] := by
    rintro rfl
    obtain ⟨i,hi,-⟩ := hsome
    exact Nat.not_lt_zero i hi
  have hcolumn (k : ℕ) : ∃ i < (column decoded k).length, honest i = true := by
    rw [length_column hd k]
    exact hsome
  constructor
  · intro hc
    refine answersBetween_of hd hne fun k => trimmedMean_between (hcolumn k) byzantineFraction ?_
    rwa [length_column hd k]
  · intro hc
    refine answersBetween_of hd hne fun k => median_between (hcolumn k) ?_
    rwa [length_column hd k]
  · intro hc
    refine answersBetween_of hd hne fun k => medianOfMeansBy_between (hcolumn k) groupSize ?_
    rwa [length_column hd k]

/-- The third of three updates is not honest. -/
theorem coordinateWise_staysHonest_threeWeights :
    StaysHonest ⟨0x3e4ccccd⟩ 2 (threeWeights 5) [[⟨0x3f800000⟩],[⟨0x40000000⟩],[⟨0x41100000⟩]]
      (fun i => i != 2) :=
  coordinateWise_staysHonest ⟨0x3e4ccccd⟩ 2 (threeWeights 5) _ _ (by decide +kernel)
    ⟨0,by decide,rfl⟩

end ConfluxFL.Robust
