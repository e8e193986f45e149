import ConfluxFL.Core.Euclid
import ConfluxFL.Core.Unanimity
import ConfluxFL.Lib.Decimal

/-! Colluders against FoolsGold. A client that always sends the same has a history along what it
sends, so two that send the same are as alike as can be in every round, whatever the others do. In
exact arithmetic. -/
namespace ConfluxFL.Attacks
open Temporal Robust

section Alignment
variable {a b : List ℝ} {n : ℕ}

/-- Two histories point the same way. -/
def Aligned (a b : List ℝ) : Prop :=
  (∃ k, a.getD k 0 ≠ 0) ∧ ∃ r > 0, ∀ k, b.getD k 0 = r*a.getD k 0

theorem sum_zipWith_mul (ha : a.length ≤ n) (hb : b.length ≤ n) :
    (a.zipWith (· * ·) b).sum = ∑ i : Fin n, a.getD i 0*b.getD i 0 := by
  induction n generalizing a b with
  | zero => simp [List.eq_nil_of_length_eq_zero (Nat.le_zero.mp ha)]
  | succ n ih =>
    rw [Fin.sum_univ_succ]
    cases a with
    | nil => simp
    | cons x a =>
      cases b with
      | nil => simp
      | cons y b =>
        rw [List.zipWith_cons_cons, List.sum_cons, ih (Nat.le_of_succ_le_succ ha)
          (Nat.le_of_succ_le_succ hb)]
        simp

theorem dot_inner (ha : a.length ≤ n) (hb : b.length ≤ n) :
    (dot a b : ℝ) = inner ℝ (euclid n a) (euclid n b) := by
  unfold dot
  rw [Floating.sum_real, PiLp.inner_apply]
  refine (sum_zipWith_mul ha hb).trans (Finset.sum_congr rfl fun i _ => ?_)
  exact mul_comm _ _

theorem sqrt_dot_self (ha : a.length ≤ n) : Floating.sqrt (dot a a : ℝ) = ‖euclid n a‖ := by
  rw [dot_inner ha ha, real_inner_self_eq_norm_sq]
  exact Real.sqrt_sq (norm_nonneg _)

/-- The cosine as an angle, for histories of whatever lengths. -/
theorem cosineSimilarity_real (ha : a.length ≤ n) (hb : b.length ≤ n) : cosineSimilarity a b =
    inner ℝ (euclid n a) (euclid n b)/(‖euclid n a‖*‖euclid n b‖) := by
  unfold cosineSimilarity
  dsimp only
  rw [sqrt_dot_self ha, sqrt_dot_self hb, dot_inner ha hb]
  split
  · rename_i hzero
    cases Bool.or_eq_true_iff.mp hzero with
    | inl hzero => rw [show ‖euclid n a‖ = 0 from of_decide_eq_true hzero, zero_mul, div_zero]
    | inr hzero => rw [show ‖euclid n b‖ = 0 from of_decide_eq_true hzero, mul_zero, div_zero]
  · rfl

theorem cosineSimilarity_le_one (a b : List ℝ) : cosineSimilarity a b ≤ 1 := by
  rw [cosineSimilarity_real (le_max_left a.length b.length) (le_max_right a.length b.length)]
  exact (abs_le.mp (abs_real_inner_div_norm_mul_norm_le_one _ _)).2

theorem getD_eq_zero (ha : a.length ≤ n) {k : ℕ} (hk : ¬k < n) : a.getD k 0 = 0 :=
  List.getD_eq_default _ _ (by omega)

/-- The greatest similarity is between histories that point the same way. -/
theorem cosineSimilarity_eq_one_iff : cosineSimilarity a b = 1 ↔ Aligned a b := by
  have ha := le_max_left a.length b.length
  have hb := le_max_right a.length b.length
  generalize max a.length b.length = n at ha hb
  rw [cosineSimilarity_real ha hb, real_inner_div_norm_mul_norm_eq_one_iff]
  constructor
  · rintro ⟨hne,r,hr,heq⟩
    refine ⟨?_,r,hr,fun k => ?_⟩
    · by_contra hzero
      push Not at hzero
      refine hne ?_
      ext i
      exact hzero i
    · by_cases hk : k < n
      · exact congrFun (congrArg (fun x : EuclideanSpace ℝ (Fin n) => (x : Fin n → ℝ)) heq) ⟨k,hk⟩
      · rw [getD_eq_zero ha hk, getD_eq_zero hb hk, mul_zero]
  · rintro ⟨⟨k,hk⟩,r,hr,heq⟩
    refine ⟨fun hzero => hk ?_,r,hr,?_⟩
    · by_cases hkn : k < n
      · exact congrFun (congrArg (fun x : EuclideanSpace ℝ (Fin n) => (x : Fin n → ℝ)) hzero) ⟨k,hkn⟩
      · exact getD_eq_zero ha hkn
    · ext i
      exact heq i

theorem getD_map_mul (r : ℝ) (k : ℕ) : (a.map (r * ·)).getD k 0 = r*a.getD k 0 := by
  rw [List.getD_eq_getElem?_getD, List.getD_eq_getElem?_getD, List.getElem?_map]
  cases a[k]? with
  | none => exact (mul_zero r).symm
  | some x => rfl

/-- How far along its direction a client's history has come does not matter. -/
theorem cosineSimilarity_scaled {r s : ℝ} (hr : 0 < r) (hs : 0 < s) :
    cosineSimilarity (a.map (r * ·)) (b.map (s * ·)) = cosineSimilarity a b := by
  have ha := le_max_left a.length b.length
  have hb := le_max_right a.length b.length
  generalize max a.length b.length = n at ha hb
  have hscale (t : ℝ) (c : List ℝ) : euclid n (c.map (t * ·)) = t • euclid n c := by
    ext i
    exact getD_map_mul t i
  have ha' : (a.map (r * ·)).length ≤ n := (List.length_map _).trans_le ha
  have hb' : (b.map (s * ·)).length ≤ n := (List.length_map _).trans_le hb
  rw [cosineSimilarity_real ha' hb', cosineSimilarity_real ha hb, hscale, hscale,
    real_inner_smul_left, real_inner_smul_right, norm_smul, norm_smul, Real.norm_of_nonneg hr.le,
    Real.norm_of_nonneg hs.le, ← mul_assoc, mul_mul_mul_comm,
    mul_div_mul_left _ _ (mul_pos hr hs).ne']

end Alignment

section Weights
variable {n : ℕ} {c : ℕ → ℕ → ℝ} {i : ℕ}

theorem foldl_max_le_iff {xs : List ℝ} {a b : ℝ} :
    xs.foldl Floating.max a ≤ b ↔ a ≤ b ∧ ∀ x ∈ xs, x ≤ b := by
  induction xs generalizing a with
  | nil => simp
  | cons x xs ih => simp [ih, Floating.max_real, and_assoc]

theorem foldl_max_lt_iff {xs : List ℝ} {a b : ℝ} :
    xs.foldl Floating.max a < b ↔ a < b ∧ ∀ x ∈ xs, x < b := by
  induction xs generalizing a with
  | nil => simp
  | cons x xs ih => simp [ih, Floating.max_real, and_assoc]

theorem rowMax_le_iff {b : ℝ} : rowMax n c i ≤ b ↔ 0 ≤ b ∧ ∀ j < n, c i j ≤ b := by
  simp [rowMax, foldl_max_le_iff]

theorem rowMax_lt_iff {b : ℝ} : rowMax n c i < b ↔ 0 < b ∧ ∀ j < n, c i j < b := by
  simp [rowMax, foldl_max_lt_iff]

/-- Nobody is pardoned into a client that is as suspicious as can be, and a pardon never adds
suspicion. -/
theorem rowMax_pardonedEntry_lt_iff (hc : ∀ i < n, ∀ j < n, c i j ≤ 1) (hi : i < n) :
    rowMax n (pardonedEntry n c) i < 1 ↔ rowMax n c i < 1 := by
  have hle (i : ℕ) (hi : i < n) : rowMax n c i ≤ 1 := rowMax_le_iff.mpr ⟨zero_le_one,hc i hi⟩
  constructor
  · intro h
    by_contra hnot
    have hone := le_antisymm (hle i hi) (not_lt.mp hnot)
    refine hnot (rowMax_lt_iff.mpr ⟨zero_lt_one,fun j hj => ?_⟩)
    have hentry := (rowMax_lt_iff.mp h).2 j hj
    unfold pardonedEntry at hentry
    rw [if_neg fun hlt => ?_] at hentry
    · exact hentry
    · have := of_decide_eq_true hlt.2
      exact absurd (hone ▸ this) (not_lt.mpr (hle j hj))
  · intro h
    refine rowMax_lt_iff.mpr ⟨zero_lt_one,fun j hj => ?_⟩
    have hentry := (rowMax_lt_iff.mp h).2 j hj
    unfold pardonedEntry
    split
    · rename_i hlt
      have hrow := of_decide_eq_true hlt.2
      have hnonneg : 0 ≤ rowMax n c i := (rowMax_le_iff.mp le_rfl).1
      have hratio : rowMax n c i/rowMax n c j ≤ 1 :=
        div_le_one_of_le₀ hrow.le (hnonneg.trans hrow.le)
      have hratio0 := div_nonneg hnonneg (hnonneg.trans hrow.le)
      cases le_total 0 (c i j) with
      | inl hpos => exact (mul_le_of_le_one_right hpos hratio).trans_lt hentry
      | inr hneg => exact (mul_nonpos_of_nonpos_of_nonneg hneg hratio0).trans_lt zero_lt_one
    · exact hentry

theorem clamp_real (x : ℝ) : Floating.clamp x 0 1 = if x < 0 then 0 else if 1 < x then 1 else x := by
  unfold Floating.clamp
  exact if_congr decide_eq_true_iff rfl (if_congr decide_eq_true_iff rfl rfl)

/-- A client is not distinct at all exactly when some similarity of its is the greatest there
is. -/
theorem distinctness_eq_zero_iff (hc : ∀ i < n, ∀ j < n, c i j ≤ 1) (hi : i < n) :
    distinctness n c i = 0 ↔ ∃ j < n, c i j = 1 := by
  have hlt : distinctness n c i = 0 ↔ ¬rowMax n (pardonedEntry n c) i < 1 := by
    unfold distinctness
    rw [clamp_real]
    have hnonneg : 0 ≤ rowMax n (pardonedEntry n c) i := (rowMax_le_iff.mp le_rfl).1
    split_ifs <;> constructor <;> intro h <;> linarith
  rw [hlt, rowMax_pardonedEntry_lt_iff hc hi, rowMax_lt_iff]
  constructor
  · intro h
    by_contra hnone
    push Not at hnone
    exact h ⟨zero_lt_one,fun j hj => lt_of_le_of_ne (hc i hi j hj) (hnone j hj)⟩
  · rintro ⟨j,hj,hone⟩ ⟨-,h⟩
    exact (h j hj).ne hone

theorem foldl_max_mem {xs : List ℝ} {a : ℝ} :
    xs.foldl Floating.max a = a ∨ xs.foldl Floating.max a ∈ xs := by
  induction xs generalizing a with
  | nil => exact .inl rfl
  | cons x xs ih =>
    rw [List.foldl_cons]
    cases @ih (Floating.max a x) with
    | inr hmem => exact .inr (List.mem_cons_of_mem x hmem)
    | inl heq =>
      rw [heq, Floating.max_real]
      cases max_choice a x with
      | inl hmax => exact .inl hmax
      | inr hmax =>
        rw [hmax]
        exact .inr List.mem_cons_self

theorem distinctness_nonneg (n : ℕ) (c : ℕ → ℕ → ℝ) (i : ℕ) : 0 ≤ distinctness n c i := by
  unfold distinctness
  rw [clamp_real]
  split_ifs <;> linarith

theorem maxDistinctness_pos_iff : 0 < maxDistinctness n c ↔ ∃ i < n, distinctness n c i ≠ 0 := by
  have hle : maxDistinctness n c ≤ 0 ↔ ∀ i < n, distinctness n c i ≤ 0 := by
    simp [maxDistinctness, foldl_max_le_iff]
  rw [← not_le, hle]
  push Not
  exact exists_congr fun i => and_congr_right fun _ =>
    (distinctness_nonneg n c i).lt_iff_ne.trans ne_comm

theorem weightOf_coe : weightOf n (fun i j => (c i j : EReal)) i =
    if maxDistinctness n c ≤ 0 then 0
    else sharpened ((maxDistinctness n c : ℝ) : EReal) ((distinctness n c i : ℝ) : EReal) := by
  unfold weightOf
  rw [maxDistinctness_coe, distinctness_coe]
  exact if_congr (decide_eq_true_iff.trans EReal.coe_nonpos) rfl rfl

theorem weightOf_eq_zero (h : distinctness n c i = 0) :
    weightOf n (fun i j => (c i j : EReal)) i = 0 := by
  rw [weightOf_coe, h, EReal.coe_zero, sharpened_zero]
  exact ite_self 0

/-- As long as somebody is distinct somebody has the greatest weight. -/
theorem exists_weightOf_eq_one (h : 0 < maxDistinctness n c) :
    ∃ i < n, weightOf n (fun i j => (c i j : EReal)) i = 1 := by
  have hmem : maxDistinctness n c ∈ (List.range n).map (distinctness n c) :=
    foldl_max_mem.resolve_left h.ne'
  obtain ⟨i,hi,heq⟩ := List.mem_map.mp hmem
  refine ⟨i,List.mem_range.mp hi,?_⟩
  rw [weightOf_coe, heq, if_neg (not_le.mpr h), sharpened_self h]

end Weights

section Twins
variable {rows : List (List ℝ)} {i : ℕ}

/-- Another history of the batch points the same way. -/
def Twinned (rows : List (List ℝ)) (i : ℕ) : Prop :=
  ∃ j < rows.length, j ≠ i ∧ Aligned (rows.getD i []) (rows.getD j [])

theorem similarity_le_one (rows : List (List ℝ)) (i j : ℕ) : similarity rows i j ≤ 1 := by
  unfold similarity
  split
  · exact zero_le_one
  · exact cosineSimilarity_le_one _ _

theorem twinned_iff : Twinned rows i ↔ ∃ j < rows.length, similarity rows i j = 1 := by
  refine exists_congr fun j => and_congr_right fun _ => ?_
  unfold similarity
  by_cases h : i = j
  · rw [if_pos h]
    exact ⟨fun ht => absurd h.symm ht.1,fun h0 => absurd h0 zero_ne_one⟩
  · rw [if_neg h, cosineSimilarity_eq_one_iff]
    exact ⟨And.right,fun ha => ⟨Ne.symm h,ha⟩⟩

theorem distinctness_rows (hi : i < rows.length) :
    distinctness rows.length (similarity rows) i = 0 ↔ Twinned rows i :=
  (distinctness_eq_zero_iff (fun i _ j _ => similarity_le_one rows i j) hi).trans twinned_iff.symm

/-- The weights of histories that are real numbers. -/
noncomputable def historyWeights (rows : List (List ℝ)) : List ℝ :=
  (foolsgoldWeights (extended rows)).map EReal.toReal

theorem historyWeights_eq : historyWeights rows = (List.range rows.length).map fun i =>
    (weightOf rows.length (fun i j => ((similarity rows i j : ℝ) : EReal)) i).toReal := by
  have hsimilarity : similarity (extended rows) = fun i j => ((similarity rows i j : ℝ) : EReal) :=
    funext fun i => funext fun j => similarity_extended
  have hlen : (extended rows).length = rows.length := List.length_map _
  rw [historyWeights, foolsgoldWeights_eq, hsimilarity, hlen, List.map_map]
  rfl

theorem length_historyWeights : (historyWeights rows).length = rows.length := by
  rw [historyWeights_eq, List.length_map, List.length_range]

/-- A client with a twin has no weight. -/
theorem historyWeights_twinned (hi : i < rows.length) (h : Twinned rows i) :
    (historyWeights rows).getD i 0 = 0 := by
  rw [historyWeights_eq, Coordinates.getD_map_range hi,
    weightOf_eq_zero ((distinctness_rows hi).mpr h), EReal.toReal_zero]

/-- If everybody has a twin the plain mean is taken, -/
theorem combiningWeights_allTwinned (h : ∀ i < rows.length, Twinned rows i) :
    combiningWeights (historyWeights rows) = List.replicate rows.length 1 := by
  unfold combiningWeights
  rw [if_pos, length_historyWeights]
  rw [List.all_eq_true]
  intro w hw
  rw [historyWeights_eq] at hw
  obtain ⟨i,hi,rfl⟩ := List.mem_map.mp hw
  have hi := List.mem_range.mp hi
  refine decide_eq_true ?_
  rw [weightOf_eq_zero ((distinctness_rows hi).mpr (h i hi)), EReal.toReal_zero]

/-- and if not the weights are used, of which one is the greatest there is. -/
theorem combiningWeights_someDistinct (h : ∃ i < rows.length, ¬Twinned rows i) :
    combiningWeights (historyWeights rows) = historyWeights rows ∧ 1 ∈ historyWeights rows := by
  obtain ⟨i,hi,hnot⟩ := h
  have hpos := maxDistinctness_pos_iff.mpr ⟨i,hi,fun h0 => hnot ((distinctness_rows hi).mp h0)⟩
  obtain ⟨j,hj,hone⟩ := exists_weightOf_eq_one hpos
  have hmem : (1 : ℝ) ∈ historyWeights rows := by
    rw [historyWeights_eq]
    exact List.mem_map.mpr ⟨j,List.mem_range.mpr hj,by rw [hone]; exact EReal.toReal_one⟩
  refine ⟨?_,hmem⟩
  unfold combiningWeights
  refine if_neg fun hall => ?_
  have := of_decide_eq_true (List.all_eq_true.mp hall 1 hmem)
  exact one_ne_zero this

end Twins
section Histories
variable {P : String → List EReal → Prop} {history : History EReal}

/-- Every remembered history has a property that may depend on whose it is. -/
def Remembered (P : String → List EReal → Prop) (history : History EReal) : Prop :=
  ∀ id h, history.lookup id = some h → P id h

/-- An update starts a history with the property and keeps it. -/
def Prolongs (P : String → List EReal → Prop) (id : String) (w : List EReal) : Prop :=
  P id (addInto (zeros w.length) w) ∧ ∀ h, P id h → P id (addInto h w)

theorem Remembered.recordUpdate (h : Remembered P history) {id : String} {w : List EReal}
    (hw : Prolongs P id w) : Remembered P (recordUpdate history id w) ∧
      P id (((recordUpdate history id w).lookup id).getD []) := by
  have hnext : P id (addInto ((history.lookup id).getD (zeros w.length)) w) := by
    cases hold : history.lookup id with
    | none => exact hw.1
    | some past => exact hw.2 past (h id past hold)
  unfold Temporal.recordUpdate
  rw [KeyedTable.lookup_upsert_self]
  refine ⟨fun id' past hpast => ?_,hnext⟩
  by_cases hid : id' = id
  · subst hid
    rw [KeyedTable.lookup_upsert_self] at hpast
    cases hpast
    exact hnext
  · rw [KeyedTable.lookup_upsert_ne _ hid] at hpast
    exact h id' past hpast

theorem Remembered.recordBatch {batch : List (String × List EReal)} (h : Remembered P history)
    (hbatch : ∀ e ∈ batch, Prolongs P e.1 e.2) : Remembered P (recordBatch history batch).2 ∧
      ∀ i (hi : i < batch.length), P batch[i].1 ((recordBatch history batch).1.getD i []) := by
  induction batch generalizing history with
  | nil => exact ⟨h,fun i hi => absurd hi (Nat.not_lt_zero i)⟩
  | cons e batch ih =>
    obtain ⟨hnext,hfirst⟩ := h.recordUpdate (hbatch e List.mem_cons_self)
    obtain ⟨hlast,hrest⟩ := ih hnext fun e' he' => hbatch e' (List.mem_cons_of_mem e he')
    refine ⟨hlast,fun i hi => ?_⟩
    cases i with
    | zero => exact hfirst
    | succ i => exact hrest i (Nat.lt_of_succ_lt_succ hi)

theorem zip_extended (us : List ClientDelta) :
    (us.map ClientDelta.clientId).zip (extended (us.map row)) =
      us.map fun x => (x.clientId,(row x).map (↑)) := by
  rw [extended, List.map_map, List.zip_map']
  rfl

/-- A call that refuses its batch forgets it, and any other records it. -/
theorem foolsGold_snd (history : History EReal) (us : List ClientDelta) :
    (foolsGold history us).2 = history ∨ (foolsGold history us).2 =
      (recordBatch history (us.map fun x => (x.clientId,(row x).map (↑)))).2 := by
  unfold foolsGold onBatch
  split
  · exact .inl rfl
  · cases hd : decodeAndValidate us with
    | error e => exact .inl rfl
    | ok decoded =>
      right
      dsimp only
      rw [(decodeAndValidate_ok hd).1, embed_extended, zip_extended]
      split <;> rfl

theorem remembered_historyAfter {batches : List (List ClientDelta)}
    (h : ∀ us ∈ batches, ∀ x ∈ us, Prolongs P x.clientId ((row x).map (↑))) :
    Remembered P (historyAfter batches) := by
  have hstep : ∀ (history : History EReal) (batches : List (List ClientDelta)),
      Remembered P history →
      (∀ us ∈ batches, ∀ x ∈ us, Prolongs P x.clientId ((row x).map (↑))) →
      Remembered P (Calls.after foolsGold history batches) := by
    intro history batches hhist h
    induction batches generalizing history with
    | nil => exact hhist
    | cons us batches ih =>
      rw [Calls.after_cons]
      refine ih _ ?_ fun us' hus' => h us' (List.mem_cons_of_mem us hus')
      cases foolsGold_snd history us with
      | inl hsame =>
        rw [hsame]
        exact hhist
      | inr hrecorded =>
        rw [hrecorded]
        refine (hhist.recordBatch fun e he => ?_).1
        obtain ⟨x,hx,rfl⟩ := List.mem_map.mp he
        exact h us List.mem_cons_self x hx
  exact hstep .empty batches nofun h

end Histories

section Devotion
variable {aim : String → Option (List ℝ)} {u v : List ℝ}

/-- A client with an aim sends it in every update, as far as this batch goes. -/
def Devoted (aim : String → Option (List ℝ)) (us : List ClientDelta) : Prop :=
  ∀ x ∈ us, ∀ u, aim x.clientId = some u → row x = u

/-- A history of real numbers, and if its client has an aim some way along it. -/
def Along (aim : String → Option (List ℝ)) (id : String) (h : List EReal) : Prop :=
  ∃ r : List ℝ, h = r.map (↑) ∧ ∀ u, aim id = some u → ∃ k : ℕ, 0 < k ∧ r = u.map ((k : ℝ) * ·)

theorem addInto_coe (a b : List ℝ) :
    addInto (a.map ((↑) : ℝ → EReal)) (b.map (↑)) = (addInto a b).map (↑) := by
  induction a generalizing b with
  | nil => rfl
  | cons x a ih =>
    cases b with
    | nil => rfl
    | cons y b => exact congrArg (List.cons _) (ih b)

theorem addInto_scaled (k : ℕ) (u : List ℝ) :
    addInto (u.map ((k : ℝ) * ·)) u = u.map (((k+1 : ℕ) : ℝ) * ·) := by
  induction u with
  | nil => rfl
  | cons x u ih =>
    have hx : (k : ℝ)*x+x = ((k+1 : ℕ) : ℝ)*x := by push_cast; ring
    exact congrArg₂ List.cons hx ih

theorem addInto_zeros (u : List ℝ) : addInto (zeros u.length) u = u.map (((1 : ℕ) : ℝ) * ·) := by
  have hzeros : (zeros u.length : List ℝ) = u.map (((0 : ℕ) : ℝ) * ·) := by
    simp [zeros]
  rw [hzeros, addInto_scaled]

theorem Devoted.prolongs {us : List ClientDelta} (h : Devoted aim us) :
    ∀ x ∈ us, Prolongs (Along aim) x.clientId ((row x).map (↑)) := by
  intro x hx
  constructor
  · rw [List.length_map, zeros_extended, addInto_coe]
    refine ⟨_,rfl,fun u hu => ⟨1,Nat.one_pos,?_⟩⟩
    rw [h x hx u hu, addInto_zeros]
  · rintro past ⟨r,rfl,hr⟩
    rw [addInto_coe]
    refine ⟨_,rfl,fun u hu => ?_⟩
    obtain ⟨k,hk,rfl⟩ := hr u hu
    refine ⟨k+1,Nat.succ_pos k,?_⟩
    rw [h x hx u hu, addInto_scaled]

/-- The histories of a round, as real numbers. -/
noncomputable def pastRows (history : History EReal) (us : List ClientDelta) : List (List ℝ) :=
  (roundHistories history us).map (·.map EReal.toReal)

variable {batches : List (List ClientDelta)} {us : List ClientDelta}

theorem length_pastRows (history : History EReal) : (pastRows history us).length = us.length := by
  rw [pastRows, List.length_map, length_roundHistories]

theorem along_roundHistories (h : ∀ us' ∈ batches++[us], Devoted aim us') {i : ℕ}
    (hi : i < us.length) :
    Along aim us[i].clientId ((roundHistories (historyAfter batches) us).getD i []) := by
  have hbefore := remembered_historyAfter fun us' hus' =>
    (h us' (List.mem_append_left _ hus')).prolongs
  have hus := (h us (List.mem_append_right _ List.mem_cons_self)).prolongs
  obtain ⟨-,hentries⟩ := @Remembered.recordBatch _ _
    (us.map fun x => (x.clientId,(row x).map (↑))) hbefore fun e he => by
      obtain ⟨x,hx,rfl⟩ := List.mem_map.mp he
      exact hus x hx
  have hentry := hentries i (by rwa [List.length_map])
  rw [List.getElem_map] at hentry
  unfold roundHistories
  rwa [zip_extended]

theorem getD_pastRows (h : ∀ us' ∈ batches++[us], Devoted aim us') {i : ℕ} (hi : i < us.length) :
    ((pastRows (historyAfter batches) us).getD i []).map (↑) =
        (roundHistories (historyAfter batches) us).getD i [] ∧
      ∀ u, aim us[i].clientId = some u → ∃ k : ℕ, 0 < k ∧
        (pastRows (historyAfter batches) us).getD i [] = u.map ((k : ℝ) * ·) := by
  obtain ⟨r,hr,hscaled⟩ := along_roundHistories h hi
  have hpast : (pastRows (historyAfter batches) us).getD i [] = r := by
    have hmap := List.getD_map (roundHistories (historyAfter batches) us) [] (·.map EReal.toReal)
      (n := i)
    rw [pastRows]
    refine hmap.trans ?_
    rw [hr, List.map_map]
    exact (List.map_congr_left fun x _ => EReal.toReal_coe x).trans (List.map_id r)
  rw [hpast]
  exact ⟨hr.symm,hscaled⟩

theorem extended_pastRows (h : ∀ us' ∈ batches++[us], Devoted aim us') :
    extended (pastRows (historyAfter batches) us) = roundHistories (historyAfter batches) us := by
  have hlen := length_roundHistories (historyAfter batches) us
  refine Coordinates.ext_getD [] ?_ fun i hi => ?_
  · rw [extended, List.length_map, length_pastRows, hlen]
  · rw [extended, List.length_map, length_pastRows] at hi
    refine Eq.trans ?_ (getD_pastRows h hi).1
    exact List.getD_map (pastRows (historyAfter batches) us) [] (List.map Real.toEReal)

/-- Two clients with aims are as similar as their aims are, in every round. -/
theorem similarity_pastRows (h : ∀ us' ∈ batches++[us], Devoted aim us') {i j : ℕ}
    (hi : i < us.length) (hj : j < us.length) (hij : i ≠ j) (hu : aim us[i].clientId = some u)
    (hv : aim us[j].clientId = some v) :
    similarity (pastRows (historyAfter batches) us) i j = cosineSimilarity u v := by
  obtain ⟨k,hk,hrow⟩ := (getD_pastRows h hi).2 u hu
  obtain ⟨l,hl,hrow'⟩ := (getD_pastRows h hj).2 v hv
  unfold similarity
  rw [if_neg hij, hrow, hrow']
  exact cosineSimilarity_scaled (Nat.cast_pos.mpr hk) (Nat.cast_pos.mpr hl)

end Devotion
section Rounds
variable {aim : String → Option (List ℝ)} {batches : List (List ClientDelta)}
  {us : List ClientDelta} {dim : ℕ} {out : List ℝ}

/-- What a round answers is the plain mean of its batch. -/
def IsMean (us : List ClientDelta) (out : List ℝ) : Prop :=
  ∀ k < out.length, out.getD k 0 = (us.map fun x => (row x).getD k 0).sum/us.length

/-- What a round answers takes nothing of the clients with a mark and all of some client. -/
def LeavesOut (marked : ClientDelta → Prop) (us : List ClientDelta) (out : List ℝ) : Prop :=
  ∃ ws : List ℝ, ws.length = us.length ∧ (∀ w ∈ ws, 0 ≤ w ∧ w ≤ 1) ∧ 1 ∈ ws ∧
    (∀ p ∈ ws.zip us, marked p.2 → p.1 = 0) ∧
    ∀ k < out.length,
      out.getD k 0 = ((ws.zip us).map fun p => (row p.2).getD k 0*p.1).sum/us.length

theorem roundWeights_pastRows (h : ∀ us' ∈ batches++[us], Devoted aim us') (hone : us.length ≠ 1) :
    roundWeights (historyAfter batches) us =
      combiningWeights (historyWeights (pastRows (historyAfter batches) us)) := by
  rw [roundWeights, if_neg hone, historyWeights, extended_pastRows h]

theorem sum_shares (ws : List ℝ) (us : List ClientDelta) (k n : ℕ) :
    ((ws.zip (us.map row)).map fun p : ℝ × List ℝ => p.2.getD k 0*(p.1*(1/(n : ℝ)))).sum =
      ((ws.zip us).map fun p => (row p.2).getD k 0*p.1).sum/n := by
  have hshared : ((ws.zip us).map fun p => (row p.2).getD k 0*p.1).sum/n =
      ((ws.zip us).map fun p => (row p.2).getD k 0*p.1*(n : ℝ)⁻¹).sum := by
    rw [div_eq_mul_inv, List.sum_map_mul_right]
  rw [hshared, List.zip_map_right, List.map_map]
  refine congrArg List.sum (List.map_congr_left fun p _ => ?_)
  change (row p.2).getD k 0*(p.1*(1/(n : ℝ))) = _
  rw [one_div, mul_assoc]

theorem twinned_pastRows (h : ∀ us' ∈ batches++[us], Devoted aim us') {i j : ℕ} {u : List ℝ}
    (hi : i < us.length) (hj : j < us.length) (hij : i ≠ j) (hu : aim us[i].clientId = some u)
    (hu' : aim us[j].clientId = some u) (hne : ∃ k, u.getD k 0 ≠ 0) :
    Twinned (pastRows (historyAfter batches) us) i := by
  have hself : cosineSimilarity u u = 1 :=
    cosineSimilarity_eq_one_iff.mpr ⟨hne,1,one_pos,fun k => (one_mul _).symm⟩
  exact twinned_iff.mpr ⟨j,(length_pastRows _).symm ▸ hj,
    (similarity_pastRows h hi hj hij hu hu').trans hself⟩

/-- A round of clients of which some have an aim in common with another. -/
theorem foolsGold_round (hus : Accepted us dim) (h : ∀ us' ∈ batches++[us], Devoted aim us')
    (marked : ClientDelta → Prop) (hone : us.length ≠ 1)
    (hmarked : ∀ i (hi : i < us.length), marked us[i] → ∃ j, ∃ hj : j < us.length, i ≠ j ∧
      ∃ u, aim us[i].clientId = some u ∧ aim us[j].clientId = some u ∧ ∃ k, u.getD k 0 ≠ 0) :
    ∃ out : List ℝ, (foolsGold (historyAfter batches) us).1 = .ok (out.map (↑)) ∧
      out.length = dim ∧
      ((∀ i < us.length, Twinned (pastRows (historyAfter batches) us) i) → IsMean us out) ∧
      ((∃ i < us.length, ¬Twinned (pastRows (historyAfter batches) us) i) →
        LeavesOut marked us out) := by
  obtain ⟨out,hout,hdim,hget⟩ := foolsGold_extended (historyAfter batches) hus
  rw [roundWeights_pastRows h hone] at hget
  have hlen : (pastRows (historyAfter batches) us).length = us.length :=
    length_pastRows (historyAfter batches)
  refine ⟨out,hout,hdim,fun hall k hk => ?_,fun hsome => ?_⟩
  · have hweights := combiningWeights_allTwinned fun i hi => hall i (hlen ▸ hi)
    rw [hget k (hdim ▸ hk), hweights, sum_shares, hlen]
    have hzip : (List.replicate us.length (1 : ℝ)).zip us = us.map fun x => (1,x) := by
      have hmap := List.zip_map' (f := fun _ => (1 : ℝ)) (g := id) (l := us)
      rwa [List.map_id, List.map_const'] at hmap
    rw [hzip, List.map_map]
    simp only [Function.comp_def, mul_one]
  · rw [← hlen] at hsome
    obtain ⟨hweights,hmem⟩ := combiningWeights_someDistinct hsome
    rw [hweights] at hget
    refine ⟨_,length_historyWeights.trans hlen,?_,hmem,?_,fun k hk => ?_⟩
    · rw [← hweights, ← roundWeights_pastRows h hone]
      exact roundWeights_mem _ _
    · intro p hp hp2
      obtain ⟨i,hi,rfl⟩ := List.mem_iff_getElem.mp hp
      rw [List.length_zip, length_historyWeights, hlen, Nat.min_self] at hi
      rw [List.getElem_zip] at hp2 ⊢
      obtain ⟨j,hj,hij,u,hu,hu',hne⟩ := hmarked i hi hp2
      have hzero := historyWeights_twinned (hlen.symm ▸ hi) (twinned_pastRows h hi hj hij hu hu' hne)
      rwa [List.getD_eq_getElem _ _ (by rwa [length_historyWeights, hlen])] at hzero
    · rw [hget k (hdim ▸ hk), sum_shares]

end Rounds
section Crafting

/-- The round and sample count of the honest batch, which every attacker reports as its own. The
source stops on an empty honest batch. -/
def honestRoundAndSamples (honest : List ClientDelta) : ℕ × ℕ :=
  (honest.head?.map fun u => (u.round,u.numSamples)).getD (0,0)

def makeDelta (clientId : String) (round numSamples : ℕ) (weights : List F32) : ClientDelta :=
  ⟨clientId,round,encodeWeights weights,numSamples,none,none,none⟩

/-- The attackers' updates for a round, where each attacker's weights may depend on the round. -/
def craftWith (name : String) (update : ℕ → ℕ → List F32) (honest : List ClientDelta)
    (numAttackers : ℕ) : List ClientDelta :=
  if numAttackers = 0 then []
  else
    (List.range numAttackers).map fun i => makeDelta (name++toString i)
      (honestRoundAndSamples honest).1 (honestRoundAndSamples honest).2
      (update (honestRoundAndSamples honest).1 i)

/-- The same update from everybody, in every round. -/
structure PersistentSybilAttack where
  fixedUpdate : List F32

def PersistentSybilAttack.craft (attack : PersistentSybilAttack) :
    List ClientDelta → ℕ → List ClientDelta :=
  craftWith "sybil-attacker-" fun _ _ => attack.fixedUpdate

/-- A common objective and an offset of one's own, redrawn every round or kept. -/
structure CorrelatedSybilAttack where
  sharedUpdate : List F32
  divergence : F32
  resampleEachRound : Bool
  seed : UInt64

/-- The seed an attacker's offsets are drawn from. -/
def CorrelatedSybilAttack.stream (attack : CorrelatedSybilAttack) (round i : ℕ) : UInt64 :=
  let stream := attack.seed*1000003+i.toUInt64
  if attack.resampleEachRound then stream+round.toUInt64*7919 else stream

/-- `sample seed deviation k` is the draw number `k` of a generator with this seed. -/
def CorrelatedSybilAttack.update (attack : CorrelatedSybilAttack)
    (sample : UInt64 → F32 → ℕ → F32) (round i : ℕ) : List F32 :=
  attack.sharedUpdate.mapIdx fun k x =>
    if F32.zero.lt attack.divergence then
      x+sample (attack.stream round i) (Floating.max attack.divergence F32.zero) k
    else x

def CorrelatedSybilAttack.craft (attack : CorrelatedSybilAttack)
    (sample : UInt64 → F32 → ℕ → F32) : List ClientDelta → ℕ → List ClientDelta :=
  craftWith "correlated-attacker-" (attack.update sample)

end Crafting

section Campaigns
variable {name : String} {craft : List ClientDelta → ℕ → List ClientDelta} {update : ℕ → List F32}

/-- The name of some attacker. -/
def Named (name id : String) : Prop := ∃ i : ℕ, id = name++toString i

/-- A round under attack: who is honest, how many are not, and all their updates as they arrive.
No honest client goes by an attacker's name. -/
structure Assault (name : String) (craft : List ClientDelta → ℕ → List ClientDelta) where
  honest : List ClientDelta
  numAttackers : ℕ
  batch : List ClientDelta
  meaningful : numAttackers ≠ 0 → honest ≠ []
  apart : ∀ x ∈ honest, ¬Named name x.clientId
  arrived : batch.Perm (honest++craft honest numAttackers)

theorem toString_injective {m n : ℕ} (h : toString m = toString n) : m = n := by
  have hdigits := congrArg String.toList h
  rw [Decimal.toList_toString, Decimal.toList_toString] at hdigits
  have hparsed := congrArg Decimal.digits hdigits
  rw [Decimal.digits_toDigits, Decimal.digits_toDigits] at hparsed
  exact Option.some.inj hparsed

open Classical in
/-- What an attacker always sends. -/
noncomputable def aimOf (name : String) (update : ℕ → List F32) (id : String) : Option (List ℝ) :=
  if h : Named name id then some ((update h.choose).map F32.toReal) else none

theorem aimOf_named (name : String) (update : ℕ → List F32) (i : ℕ) :
    aimOf name update (name++toString i) = some ((update i).map F32.toReal) := by
  have hnamed : Named name (name++toString i) := ⟨i,rfl⟩
  have hi : hnamed.choose = i :=
    toString_injective ((String.append_right_inj name).mp hnamed.choose_spec.symm)
  unfold aimOf
  rw [dif_pos hnamed, hi]

theorem row_makeDelta (clientId : String) (round numSamples : ℕ) (weights : List F32) :
    row (makeDelta clientId round numSamples weights) = weights.map F32.toReal :=
  row_of_encoded rfl

theorem of_mem_craftWith {us : List ClientDelta} {m : ℕ} {x : ClientDelta}
    (hx : x ∈ craftWith name (fun _ => update) us m) :
    ∃ i, x.clientId = name++toString i ∧ row x = (update i).map F32.toReal := by
  unfold craftWith at hx
  split at hx
  · cases hx
  · obtain ⟨i,-,rfl⟩ := List.mem_map.mp hx
    exact ⟨i,rfl,row_makeDelta _ _ _ _⟩

theorem Assault.devoted (a : Assault name (craftWith name fun _ => update)) :
    Devoted (aimOf name update) a.batch := by
  intro x hx u hu
  cases List.mem_append.mp (a.arrived.mem_iff.mp hx) with
  | inl hhonest =>
    unfold aimOf at hu
    rw [dif_neg (a.apart x hhonest)] at hu
    cases hu
  | inr hcrafted =>
    obtain ⟨i,hid,hrow⟩ := of_mem_craftWith hcrafted
    rw [hid, aimOf_named] at hu
    cases hu
    exact hrow

/-- The updates of all rounds, as the server gets them. -/
def batchesOf (earlier : List (Assault name craft)) : List (List ClientDelta) :=
  earlier.map Assault.batch

theorem devoted_batchesOf (earlier : List (Assault name (craftWith name fun _ => update)))
    (last : Assault name (craftWith name fun _ => update)) :
    ∀ us ∈ batchesOf earlier++[last.batch], Devoted (aimOf name update) us := by
  intro us hus
  cases List.mem_append.mp hus with
  | inl hearlier =>
    obtain ⟨a,-,rfl⟩ := List.mem_map.mp hearlier
    exact a.devoted
  | inr hlast =>
    rw [List.mem_singleton.mp hlast]
    exact last.devoted

theorem Assault.exists_other (a : Assault name (craftWith name fun _ => update))
    (htwo : 2 ≤ a.numAttackers) (id : String) : ∃ (j : ℕ) (hj : j < a.batch.length),
      a.batch[j].clientId ≠ id ∧ ∃ n : ℕ, a.batch[j].clientId = name++toString n := by
  have hmem (n : ℕ) (hn : n < a.numAttackers) : ∃ x ∈ a.batch, x.clientId = name++toString n := by
    have hcraft : craftWith name (fun _ => update) a.honest a.numAttackers =
        (List.range a.numAttackers).map fun i => makeDelta (name++toString i)
          (honestRoundAndSamples a.honest).1 (honestRoundAndSamples a.honest).2 (update i) :=
      if_neg (by omega)
    have hcrafted : makeDelta (name++toString n) (honestRoundAndSamples a.honest).1
        (honestRoundAndSamples a.honest).2 (update n) ∈
          craftWith name (fun _ => update) a.honest a.numAttackers := by
      rw [hcraft]
      exact List.mem_map.mpr ⟨n,List.mem_range.mpr hn,rfl⟩
    exact ⟨_,a.arrived.mem_iff.mpr (List.mem_append_right _ hcrafted),rfl⟩
  have hpick : ∃ n < a.numAttackers, name++toString n ≠ id := by
    by_cases hzero : name++toString 0 = id
    · refine ⟨1,by omega,fun hone => ?_⟩
      exact absurd (toString_injective ((String.append_right_inj name).mp (hone.trans hzero.symm)))
        one_ne_zero
    · exact ⟨0,by omega,hzero⟩
  obtain ⟨n,hn,hne⟩ := hpick
  obtain ⟨x,hx,hid⟩ := hmem n hn
  obtain ⟨j,hj,rfl⟩ := List.mem_iff_getElem.mp hx
  exact ⟨j,hj,hid ▸ hne,n,hid⟩

variable {dim : ℕ} {u : List F32}

/-- What comes of a round in which colluders send the same: its answer leaves all of them out, but
for when every client points exactly where another one does and the plain mean is taken. -/
structure Silenced (name : String) (batches : List (List ClientDelta)) (us : List ClientDelta)
    (dim : ℕ) (out : List ℝ) : Prop where
  answer : (foolsGold (historyAfter batches) us).1 = .ok (out.map (↑))
  dimension : out.length = dim
  mean : (∀ i < us.length, Twinned (pastRows (historyAfter batches) us) i) → IsMean us out
  leavesOut : (∃ i < us.length, ¬Twinned (pastRows (historyAfter batches) us) i) →
    LeavesOut (fun x => Named name x.clientId) us out

theorem silenced_craftWith (hu : ∃ x ∈ u, x.toReal ≠ 0)
    (earlier : List (Assault name (craftWith name fun _ _ => u)))
    (last : Assault name (craftWith name fun _ _ => u)) (htwo : 2 ≤ last.numAttackers)
    (haccepted : Accepted last.batch dim) :
    ∃ out, Silenced name (batchesOf earlier) last.batch dim out := by
  obtain ⟨i,hi,hid,-⟩ := last.exists_other htwo ""
  have hone : last.batch.length ≠ 1 := by
    obtain ⟨j,hj,hne,-⟩ := last.exists_other htwo last.batch[i].clientId
    intro hone
    have hij : j = i := by omega
    subst hij
    exact hne rfl
  have hnonzero : ∃ k, (u.map F32.toReal).getD k 0 ≠ 0 := by
    obtain ⟨x,hx,hne⟩ := hu
    obtain ⟨k,hk,rfl⟩ := List.mem_iff_getElem.mp hx
    refine ⟨k,?_⟩
    rwa [List.getD_eq_getElem _ _ (by rwa [List.length_map]), List.getElem_map]
  obtain ⟨out,hout,hdim,hmean,hleft⟩ := foolsGold_round haccepted
    (devoted_batchesOf earlier last) (fun x => Named name x.clientId) hone fun i hi hmarked => by
      obtain ⟨n,hn⟩ := hmarked
      obtain ⟨j,hj,hne,m,hm⟩ := last.exists_other htwo last.batch[i].clientId
      refine ⟨j,hj,?_,_,?_,?_,hnonzero⟩
      · rintro rfl
        exact hne rfl
      · rw [hn, aimOf_named]
      · rw [hm, aimOf_named]
  exact ⟨out,hout,hdim,hmean,hleft⟩

/-- However the honest clients behave and however often each sybil has taken part, a round with at
least two of them takes nothing of any. -/
theorem persistentSybils_silenced (attack : PersistentSybilAttack)
    (hupdate : ∃ x ∈ attack.fixedUpdate, x.toReal ≠ 0)
    (earlier : List (Assault "sybil-attacker-" attack.craft))
    (last : Assault "sybil-attacker-" attack.craft) (htwo : 2 ≤ last.numAttackers) (dim : ℕ)
    (haccepted : Accepted last.batch dim) :
    ∃ out, Silenced "sybil-attacker-" (batchesOf earlier) last.batch dim out :=
  silenced_craftWith hupdate earlier last htwo haccepted

/-- Everybody pushes the first coordinate. -/
def twoSybils : PersistentSybilAttack := ⟨[F32.one,F32.zero]⟩

theorem not_named_of_head {name id : String}
    (h : name.toList.head?.isSome ∧ name.toList.head? ≠ id.toList.head?) :
    ¬Named name id := by
  rintro ⟨i,rfl⟩
  rw [String.toList_append, List.head?_append] at h
  cases hname : name.toList.head? with
  | none => simp [hname] at h
  | some c => simp [hname] at h

def sybilRound : Assault "sybil-attacker-" twoSybils.craft where
  honest := [sent "a" [F32.one,F32.one]]
  numAttackers := 2
  batch := [sent "a" [F32.one,F32.one]]++twoSybils.craft [sent "a" [F32.one,F32.one]] 2
  meaningful := fun _ => List.cons_ne_nil _ _
  apart := fun x hx => by
    rw [List.mem_singleton.mp hx]
    exact not_named_of_head (by decide)
  arrived := .refl _

theorem accepted_sybilRound : Accepted sybilRound.batch 2 :=
  ⟨List.cons_ne_nil _ _,[[F32.one,F32.one],[F32.one,F32.zero],[F32.one,F32.zero]],
    by decide +kernel,rfl⟩

theorem persistentSybils_silenced_twoRounds : ∃ out, Silenced "sybil-attacker-"
    (batchesOf [sybilRound]) sybilRound.batch 2 out :=
  persistentSybils_silenced twoSybils ⟨F32.one,List.mem_cons_self,by
    rw [F32.toReal_one]
    exact one_ne_zero⟩ [sybilRound] sybilRound le_rfl 2 accepted_sybilRound

/-- In exact arithmetic, and where no honest client goes by an attacker's name, attackers that keep
their offsets are as alike in every round as their updates are, however often each has taken part;
and without a divergence they are sybils that send the same. -/
theorem correlatedSybils_run (attack : CorrelatedSybilAttack) (sample : UInt64 → F32 → ℕ → F32)
    (earlier : List (Assault "correlated-attacker-" (attack.craft sample)))
    (last : Assault "correlated-attacker-" (attack.craft sample)) :
    (attack.resampleEachRound = false → ∀ i j (hi : i < last.batch.length)
      (hj : j < last.batch.length) (m n : ℕ), i ≠ j →
      last.batch[i].clientId = "correlated-attacker-"++toString m →
      last.batch[j].clientId = "correlated-attacker-"++toString n →
      similarity (pastRows (historyAfter (batchesOf earlier)) last.batch) i j =
        cosineSimilarity ((attack.update sample 0 m).map F32.toReal)
          ((attack.update sample 0 n).map F32.toReal)) ∧
    (F32.zero.lt attack.divergence = false → (∃ x ∈ attack.sharedUpdate, x.toReal ≠ 0) →
      2 ≤ last.numAttackers → ∀ dim, Accepted last.batch dim →
      ∃ out, Silenced "correlated-attacker-" (batchesOf earlier) last.batch dim out) := by
  constructor
  · intro hkept
    have hcraft : attack.craft sample =
        craftWith "correlated-attacker-" fun _ => attack.update sample 0 := by
      refine congrArg (craftWith _) (funext fun round => funext fun i => ?_)
      unfold CorrelatedSybilAttack.update CorrelatedSybilAttack.stream
      simp only [hkept, Bool.false_eq_true, if_false]
    revert earlier last
    rw [hcraft]
    intro earlier last i j hi hj m n hij hm hn
    refine similarity_pastRows (devoted_batchesOf earlier last) hi hj hij ?_ ?_
    · rw [hm, aimOf_named]
    · rw [hn, aimOf_named]
  · intro hzero
    have hcraft : attack.craft sample =
        craftWith "correlated-attacker-" fun _ _ => attack.sharedUpdate := by
      refine congrArg (craftWith _) (funext fun round => funext fun i => ?_)
      unfold CorrelatedSybilAttack.update
      simp only [hzero, Bool.false_eq_true, if_false]
      exact List.ext_getElem List.length_mapIdx fun k _ _ => List.getElem_mapIdx
    revert earlier last
    rw [hcraft]
    exact fun earlier last hupdate htwo dim => silenced_craftWith hupdate earlier last htwo

/-- Colluders without an offset, against the same honest client. -/
def oneObjective : CorrelatedSybilAttack := ⟨[F32.one,F32.zero],F32.zero,false,7⟩

def objectiveRound : Assault "correlated-attacker-" (oneObjective.craft fun _ _ _ => F32.zero) where
  honest := [sent "a" [F32.one,F32.one]]
  numAttackers := 2
  batch := [sent "a" [F32.one,F32.one]]++
    oneObjective.craft (fun _ _ _ => F32.zero) [sent "a" [F32.one,F32.one]] 2
  meaningful := fun _ => List.cons_ne_nil _ _
  apart := fun x hx => by
    rw [List.mem_singleton.mp hx]
    exact not_named_of_head (by decide)
  arrived := .refl _

theorem accepted_objectiveRound : Accepted objectiveRound.batch 2 :=
  ⟨List.cons_ne_nil _ _,[[F32.one,F32.one],[F32.one,F32.zero],[F32.one,F32.zero]],
    by decide +kernel,rfl⟩

/-- Two colluders that keep an offset from what they share: the first is off by one coordinate. -/
def twoDirections : CorrelatedSybilAttack := ⟨[F32.one,F32.zero],F32.one,false,7⟩

def firstOff (stream : UInt64) (_ : F32) (k : ℕ) : F32 :=
  if stream = twoDirections.stream 0 0 ∧ k = 1 then F32.one else F32.zero

def directionsRound : Assault "correlated-attacker-" (twoDirections.craft firstOff) where
  honest := [sent "a" [F32.one,F32.one]]
  numAttackers := 2
  batch := [sent "a" [F32.one,F32.one]]++
    twoDirections.craft firstOff [sent "a" [F32.one,F32.one]] 2
  meaningful := fun _ => List.cons_ne_nil _ _
  apart := fun x hx => by
    rw [List.mem_singleton.mp hx]
    exact not_named_of_head (by decide)
  arrived := .refl _

/-- Two colluders on different courses, and two that send the same. -/
theorem correlatedSybils_run_twoRounds :
    similarity (pastRows (historyAfter (batchesOf [directionsRound])) directionsRound.batch) 1 2 =
        cosineSimilarity ([F32.one,F32.one].map F32.toReal) ([F32.one,F32.zero].map F32.toReal) ∧
      ∃ out, Silenced "correlated-attacker-" (batchesOf [objectiveRound]) objectiveRound.batch 2
        out := by
  constructor
  · have hsimilar := (correlatedSybils_run twoDirections firstOff [directionsRound]
      directionsRound).1 rfl 1 2 (by decide) (by decide) 0 1 (by decide) rfl rfl
    have hfirst : twoDirections.update firstOff 0 0 = [F32.one,F32.one] := by decide +kernel
    have hsecond : twoDirections.update firstOff 0 1 = [F32.one,F32.zero] := by decide +kernel
    rwa [hfirst, hsecond] at hsimilar
  · refine (correlatedSybils_run oneObjective (fun _ _ _ => F32.zero) [objectiveRound]
      objectiveRound).2 rfl ⟨F32.one,List.mem_cons_self,?_⟩ le_rfl 2 accepted_objectiveRound
    rw [F32.toReal_one]
    exact one_ne_zero

end Campaigns
end ConfluxFL.Attacks
