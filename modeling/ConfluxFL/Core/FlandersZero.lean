import ConfluxFL.Core.FlandersScores
import ConfluxFL.Core.SelectionSafety

/-! FLANDERS on a history of zeros, in exact arithmetic: the fitted coefficients are zero, since
the ridge alone is left of the normal equations, and so is the forecast. -/
namespace ConfluxFL.Flanders

section Zeros

theorem getD_zeros (n k : ℕ) : (zeros n : List ℝ).getD k 0 = 0 := by
  rw [zeros, List.getD_eq_getElem?_getD, List.getElem?_replicate]
  split <;> rfl

theorem length_headD_zeroMatrix {k m : ℕ} (hk : 0 < k) :
    ((zeroMatrix k m : Matrix ℝ).headD []).length = m := by
  obtain ⟨k,rfl⟩ := Nat.exists_eq_succ_of_ne_zero hk.ne'
  exact length_zeros m

@[simp] theorem matmul_zeroMatrix (k m : ℕ) (b : Matrix ℝ) :
    matmul (zeroMatrix k m) b = zeroMatrix k (b.headD []).length := by
  unfold matmul zeroMatrix
  rw [List.map_replicate]
  refine congrArg (List.replicate k) ?_
  refine List.foldlRecOn (List.range b.length) _ (motive := fun acc => acc = zeros _) rfl
    fun acc hacc p _ => ?_
  have hskip : Floating.beq (0 : ℝ) 0 = true := decide_eq_true rfl
  rw [getD_zeros, if_pos hskip]
  exact hacc

theorem column_zeroMatrix (k m j : ℕ) :
    ((zeroMatrix k m : Matrix ℝ).map fun row => row.getD j 0) = zeros k := by
  rw [zeroMatrix, List.map_replicate, getD_zeros]
  rfl

theorem transpose_zeroMatrix {k : ℕ} (hk : 0 < k) (m : ℕ) :
    transpose (zeroMatrix k m : Matrix ℝ) = zeroMatrix m k := by
  unfold transpose
  rw [length_headD_zeroMatrix hk]
  simp only [column_zeroMatrix, List.map_const', List.length_range]
  rfl

theorem addMatrix_zeroMatrix (k m : ℕ) :
    addMatrix (zeroMatrix k m) (zeroMatrix k m : Matrix ℝ) = zeroMatrix k m := by
  unfold addMatrix zeroMatrix zeros
  rw [List.zipWith_replicate, List.zipWith_replicate, Nat.min_self, Nat.min_self, add_zero]

end Zeros

section Ridge
variable {n m : ℕ} {e : ℕ → ℝ}

/-- A diagonal matrix. -/
def diagonal (n : ℕ) (e : ℕ → ℝ) : Matrix ℝ :=
  (List.range n).map fun i => (List.range n).map fun j => if i = j then e i else 0

theorem length_diagonal : (diagonal n e).length = n := by
  rw [diagonal, List.length_map, List.length_range]

theorem getElem_diagonal {i : ℕ} (hi : i < (diagonal n e).length) : (diagonal n e)[i] =
    (List.range n).map fun j => if i = j then e i else 0 := by
  simp only [diagonal, List.getElem_map, List.getElem_range]

theorem getD_diagonal {i : ℕ} (hi : i < n) : (diagonal n e).getD i [] =
    (List.range n).map fun j => if i = j then e i else 0 := by
  rw [List.getD_eq_getElem _ _ (hi.trans_eq length_diagonal.symm), getElem_diagonal]

theorem getD_getD_diagonal {i j : ℕ} (hi : i < n) (hj : j < n) :
    ((diagonal n e).getD i []).getD j 0 = if i = j then e i else 0 := by
  rw [getD_diagonal hi, Coordinates.getD_map_range hj]

theorem addRidge_zeroMatrix (ridge : ℝ) (n : ℕ) :
    addRidge ridge (zeroMatrix n n) = diagonal n fun _ => ridge := by
  refine List.ext_getElem (by simp [addRidge,zeroMatrix,diagonal]) fun i hi hi' => ?_
  refine List.ext_getElem (by simp [addRidge,zeroMatrix,diagonal,zeros]) fun j hj hj' => ?_
  simp [addRidge,zeroMatrix,diagonal,zeros]

/-- The diagonal entry is the pivot of its column. -/
theorem argMax_column {col : ℕ} (hcol : col < n) (he : 0 < |e col|) :
    Floating.argMax ((List.range (n-col)).map fun i =>
      Floating.abs (((diagonal n e).getD (col+i) []).getD col 0)) = 0 := by
  have hcandidate {i : ℕ} (hi : i < n-col) : ((List.range (n-col)).map fun i =>
      Floating.abs (((diagonal n e).getD (col+i) []).getD col 0)).getD i 0 =
        if i = 0 then |e col| else 0 := by
    rw [Coordinates.getD_map_range hi, getD_getD_diagonal (by omega) hcol]
    by_cases hi0 : i = 0
    · rw [if_pos hi0, if_pos (by omega), hi0]
      rfl
    · rw [if_neg hi0, if_neg (by omega)]
      exact abs_zero
  unfold Floating.argMax
  rw [List.length_map, List.length_range]
  refine List.foldlRecOn (List.range (n-col)) _ (motive := fun best => best = 0) rfl
    fun best hbest i hi => ?_
  rw [hbest, hcandidate (List.mem_range.mp hi), hcandidate (Nat.sub_pos_of_lt hcol), if_pos rfl]
  by_cases hi0 : i = 0
  · rw [hi0]
    exact ite_self _
  · rw [if_neg hi0, Floating.lt_real, if_pos (decide_eq_true he)]

theorem swapRows_self (a : Matrix ℝ) (i : ℕ) (hi : i < a.length) : swapRows a i i = a := by
  unfold swapRows
  rw [List.getD_eq_getElem _ _ hi, List.set_set, List.set_getElem_self]

/-- What a row becomes whose entries left of the pivot are zero. -/
theorem take_append_map_drop {α : Type} {f : α → α} {l : List α} {k : ℕ}
    (h : ∀ x ∈ l.take k, f x = x) : l.take k++(l.drop k).map f = l.map f := by
  have htake : (l.take k).map f = l.take k := (List.map_congr_left h).trans (List.map_id _)
  conv_rhs => rw [← List.take_append_drop k l, List.map_append, htake]

/-- The pivot row with its pivot made one. -/
theorem scaled_diagonal {col : ℕ} (hcol : col < n) (he : e col ≠ 0) :
    ((diagonal n e).getD col []).take col++(((diagonal n e).getD col []).drop col).map
      (fun x => x/e col) = (List.range n).map fun j => if col = j then 1 else 0 := by
  rw [getD_diagonal hcol, take_append_map_drop, List.map_map]
  · refine List.map_congr_left fun j _ => ?_
    rw [Function.comp_apply]
    split_ifs
    · exact div_self he
    · exact zero_div _
  · intro x hx
    rw [← List.map_take, List.take_range] at hx
    obtain ⟨j,hj,rfl⟩ := List.mem_map.mp hx
    have hjcol : j < col := (List.mem_range.mp hj).trans_le (min_le_left _ _)
    rw [if_neg hjcol.ne', zero_div]

theorem map_div_zeroMatrix {col : ℕ} (hcol : col < n) (d : ℝ) :
    ((zeroMatrix n m : Matrix ℝ).getD col []).map (fun x => x/d) = zeros m := by
  have hlen : (zeroMatrix n m : Matrix ℝ).length = n := List.length_replicate
  rw [List.getD_eq_getElem _ _ (hcol.trans_eq hlen.symm)]
  simp only [zeroMatrix, zeros, List.getElem_replicate, List.map_replicate, zero_div]

/-- A diagonal entry that is not too small becomes one, and nothing else changes. -/
theorem eliminateColumn_diagonal {col : ℕ} (hcol : col < n)
    (he : Floating.lt (Floating.abs (e col)) 1e-12 = false) (hpos : 0 < |e col|) :
    eliminateColumn n (diagonal n e,zeroMatrix n m) col =
      some (diagonal n (Function.update e col 1),zeroMatrix n m) := by
  have hrhs : (zeroMatrix n m : Matrix ℝ).length = n := List.length_replicate
  have hentry : ((diagonal n e).getD col []).getD col 0 = e col := by
    rw [getD_getD_diagonal hcol hcol, if_pos rfl]
  have hfactor {i : ℕ} (hi : i < n) (hne : i ≠ col) :
      Floating.beq (((diagonal n e).getD i []).getD col 0) 0 = true := by
    rw [getD_getD_diagonal hi hcol, if_neg hne]
    exact decide_eq_true rfl
  unfold eliminateColumn
  dsimp only
  rw [argMax_column hcol hpos, add_zero, hentry, he, if_neg Bool.false_ne_true,
    swapRows_self _ _ (hcol.trans_eq length_diagonal.symm),
    swapRows_self _ _ (hcol.trans_eq hrhs.symm), hentry,
    scaled_diagonal hcol (abs_pos.mp hpos), map_div_zeroMatrix hcol]
  refine congrArg some (Prod.ext ?_ ?_)
  · refine List.ext_getElem (by simp [diagonal]) fun i hi hi' => ?_
    have hin : i < n := hi'.trans_eq length_diagonal
    rw [List.getElem_mapIdx]
    refine Eq.trans ?_ (getElem_diagonal hi').symm
    by_cases hic : i = col
    · rw [if_pos hic, hic, Function.update_self]
    · rw [if_neg hic, if_pos (hfactor hin hic), getElem_diagonal, Function.update_of_ne hic]
  · refine List.ext_getElem (by simp) fun i hi hi' => ?_
    have hin : i < n := hi'.trans_eq hrhs
    rw [List.getElem_mapIdx]
    by_cases hic : i = col
    · rw [if_pos hic]
      exact (List.getElem_replicate _).symm
    · rw [if_neg hic, if_pos (hfactor hin hic)]

/-- After some columns, those of the diagonal are ones. -/
theorem foldlM_eliminateColumn {ridge : ℝ}
    (hridge : Floating.lt (Floating.abs ridge) 1e-12 = false) (hpos : 0 < |ridge|) {k : ℕ}
    (hk : k ≤ n) : (List.range k).foldlM (eliminateColumn n)
        (diagonal n fun _ => ridge,zeroMatrix n m) =
      some (diagonal n fun i => if i < k then 1 else ridge,zeroMatrix n m) := by
  induction k with
  | zero => simp
  | succ k ih =>
    have hentry : (if k < k then (1 : ℝ) else ridge) = ridge := if_neg (lt_irrefl k)
    have hstep := @eliminateColumn_diagonal n m (fun i => if i < k then 1 else ridge) k hk
      (by rwa [hentry]) (by rwa [hentry])
    have hnext : Function.update (fun i => if i < k then (1 : ℝ) else ridge) k 1 =
        fun i => if i < k+1 then 1 else ridge := by
      funext i
      rcases lt_trichotomy i k with hlt | rfl | hgt
      · rw [Function.update_of_ne hlt.ne, if_pos hlt, if_pos (by omega)]
      · rw [Function.update_self, if_pos (by omega)]
      · rw [Function.update_of_ne hgt.ne', if_neg hgt.not_gt, if_neg (by omega)]
    rw [List.range_succ, List.foldlM_append, ih (Nat.le_of_succ_le hk)]
    change (List.foldlM (eliminateColumn n) _ [k]) = _
    rw [List.foldlM_cons, hstep, hnext]
    rfl

/-- With nothing but the ridge on the left and zeros on the right the solution is zero. -/
theorem solve_ridge {ridge : ℝ} (hridge : Floating.lt (Floating.abs ridge) 1e-12 = false)
    (hpos : 0 < |ridge|) (hn : 0 < n) :
    solve (addRidge ridge (zeroMatrix n n)) (zeroMatrix n m) = some (zeroMatrix n m) := by
  have hhead : ((diagonal n fun _ => ridge).headD []).length = n := by
    obtain ⟨k,rfl⟩ := Nat.exists_eq_succ_of_ne_zero hn.ne'
    rw [diagonal, List.range_succ_eq_map, List.map_cons, List.headD_cons]
    simp
  have hrhs : (zeroMatrix n m : Matrix ℝ).length = n := List.length_replicate
  have hfinite : ((zeroMatrix n m : Matrix ℝ).any fun r => r.any fun v => !Floating.isFinite v) =
      false := by
    simp only [List.any_eq_false]
    intro r _ h
    obtain ⟨v,-,hv⟩ := List.any_eq_true.mp h
    cases hv
  unfold solve
  rw [addRidge_zeroMatrix, length_diagonal, hhead, hrhs]
  dsimp only
  rw [if_neg (by simp [hn.ne']), foldlM_eliminateColumn hridge hpos le_rfl]
  exact if_neg (ne_true_of_eq_false hfinite)

end Ridge

section Fit
variable {d h : ℕ} {ridge : ℝ}

theorem sumOver_zero {p : Matrix ℝ × Matrix ℝ} {n : ℕ} {term : Matrix ℝ × Matrix ℝ → Matrix ℝ}
    (hterm : term p = zeroMatrix n n) : sumOver [p] n term = zeroMatrix n n := by
  change addMatrix (zeroMatrix n n) (term p) = _
  rw [hterm, addMatrix_zeroMatrix]

variable (hridge : Floating.lt (Floating.abs ridge) 1e-12 = false) (hpos : 0 < |ridge|) (hd : 0 < d)
  (hh : 0 < h)

include hridge hpos hd hh

theorem fitLeft_zero {b : Matrix ℝ} (hb : (b.headD []).length = h) :
    fitLeft ridge [(zeroMatrix d h,zeroMatrix d h)] d b = some (zeroMatrix d d) := by
  have hz : matmul (zeroMatrix d h) b = zeroMatrix d h := by rw [matmul_zeroMatrix, hb]
  have hproduct : matmul (zeroMatrix d h) (transpose (zeroMatrix d h : Matrix ℝ)) =
      zeroMatrix d d := by
    rw [transpose_zeroMatrix hd, matmul_zeroMatrix, length_headD_zeroMatrix hh]
  unfold fitLeft
  rw [sumOver_zero (by rw [hz, hproduct]), sumOver_zero (by rw [hz, hproduct])]
  dsimp only
  rw [transpose_zeroMatrix hd, solve_ridge hridge hpos hd]
  exact congrArg some (transpose_zeroMatrix hd d)

theorem fitRight_zero :
    fitRight ridge [(zeroMatrix d h,zeroMatrix d h)] h (zeroMatrix d d) =
      some (zeroMatrix h h) := by
  have hw : matmul (zeroMatrix d d) (zeroMatrix d h : Matrix ℝ) = zeroMatrix d h := by
    rw [matmul_zeroMatrix, length_headD_zeroMatrix hd]
  have hproduct : matmul (transpose (zeroMatrix d h)) (zeroMatrix d h : Matrix ℝ) =
      zeroMatrix h h := by
    rw [transpose_zeroMatrix hd, matmul_zeroMatrix, length_headD_zeroMatrix hd]
  unfold fitRight
  rw [sumOver_zero (by rw [hw, hproduct]), sumOver_zero (by rw [hw, hproduct])]
  exact solve_ridge hridge hpos hh

/-- Both coefficients come out as zero, from the first sweep on. -/
theorem fitMar_zero {iterations : ℕ} (hiterations : 0 < iterations) :
    fitMar ridge iterations [(zeroMatrix d h,zeroMatrix d h)] =
      some (zeroMatrix d d,zeroMatrix h h) := by
  have hsweeps (sweeps : List ℕ) (s : Matrix ℝ × Matrix ℝ) (hs : (s.2.headD []).length = h)
      (hend : sweeps = [] → s = (zeroMatrix d d,zeroMatrix h h)) :
      sweeps.foldlM (fun (s : Matrix ℝ × Matrix ℝ) _ => do
        let a ← fitLeft ridge [(zeroMatrix d h,zeroMatrix d h)] d s.2
        let b ← fitRight ridge [(zeroMatrix d h,zeroMatrix d h)] h a
        return (a,b)) s = some (zeroMatrix d d,zeroMatrix h h) := by
    induction sweeps generalizing s with
    | nil => rw [hend rfl]; rfl
    | cons i sweeps ih =>
      rw [List.foldlM_cons, fitLeft_zero hridge hpos hd hh hs]
      change (fitRight ridge _ h (zeroMatrix d d) >>= _) >>= _ = _
      rw [fitRight_zero hridge hpos hd hh]
      exact ih (zeroMatrix d d,zeroMatrix h h) (length_headD_zeroMatrix hh) fun _ => rfl
  have hidentity : ((identity h : Matrix ℝ).headD []).length = h := by
    obtain ⟨k,rfl⟩ := Nat.exists_eq_succ_of_ne_zero hh.ne'
    rw [identity, List.range_succ_eq_map, List.map_cons, List.headD_cons]
    simp
  have hlength : (zeroMatrix d h : Matrix ℝ).length = d := List.length_replicate
  have hfinite (n : ℕ) : finiteMatrix (zeroMatrix n n : Matrix ℝ) = true :=
    List.all_eq_true.mpr fun _ _ => List.all_eq_true.mpr fun _ _ => rfl
  unfold fitMar
  simp only [List.map_cons, List.headD_cons, length_headD_zeroMatrix hd, hlength]
  rw [hsweeps (List.range iterations) (identity d,identity h) hidentity fun hnil => by
    rw [List.range_eq_nil] at hnil
    omega]
  change (if (finiteMatrix (zeroMatrix d d) && finiteMatrix (zeroMatrix h h)) = true
    then _ else _) = _
  rw [hfinite, hfinite, if_pos (by decide)]

end Fit

section Forecast
variable {snapshot : Snapshot ℝ} {order : List String} {dim : ℕ} {coords : List ℕ}

theorem mapM_some {α β : Type} {f : α → Option β} {g : α → β} {as : List α}
    (h : ∀ a ∈ as, f a = some (g a)) : as.mapM f = some (as.map g) := by
  induction as with
  | nil => rfl
  | cons a as ih =>
    rw [List.mapM_cons, h a List.mem_cons_self, ih fun b hb => h b (List.mem_cons_of_mem a hb)]
    rfl

theorem observation_zero (h : ∀ id ∈ order, snapshot.lookup id = some (zeros dim)) :
    observation snapshot order dim coords =
      some (zeroMatrix coords.length order.length : Matrix ℝ) := by
  have hcolumns : (order.mapM fun id => (snapshot.lookup id).filter fun w => w.length = dim) =
      some (order.map fun _ => zeros dim) := mapM_some fun id hid => by
    rw [h id hid, Option.filter_some, if_pos (decide_eq_true (length_zeros dim))]
  unfold observation
  rw [hcolumns]
  refine congrArg some ?_
  have hrow (c : ℕ) : ((order.map fun _ => (zeros dim : List ℝ)).map fun w =>
      Precision.widen (w.getD c 0)) = (zeros order.length : List ℝ) := by
    rw [List.map_map]
    exact (List.map_congr_left fun _ _ => getD_zeros dim c).trans List.map_const'
  rw [List.map_congr_left fun c _ => hrow c, List.map_const']
  rfl

/-- Two rounds of zeros are followed by zeros, as far as the forecast goes. -/
theorem forecast_zero (horder : 2 ≤ order.length) (hcoords : coords ≠ [])
    (h : ∀ id ∈ order, snapshot.lookup id = some (zeros dim)) :
    forecast [snapshot,snapshot] order dim coords =
      some (order.map fun id => (id,(zeros coords.length : List ℝ))) := by
  have hd : 0 < coords.length := List.length_pos_iff.mpr hcoords
  have hh : 0 < order.length := by omega
  have hridge : Floating.lt (Floating.abs (1e-6 : ℝ)) 1e-12 = false := by
    refine decide_eq_false ?_
    change ¬|(1e-6 : ℝ)| < 1e-12
    norm_num
  have hobservation := @observation_zero snapshot order dim coords h
  have hfit := fitMar_zero hridge (by norm_num) hd hh (by decide : 0 < 5)
  have hpredicted : matmul (matmul (zeroMatrix coords.length coords.length)
      (zeroMatrix coords.length order.length)) (zeroMatrix order.length order.length : Matrix ℝ) =
        zeroMatrix coords.length order.length := by
    rw [matmul_zeroMatrix, length_headD_zeroMatrix hd, matmul_zeroMatrix,
      length_headD_zeroMatrix hh]
  unfold forecast forecastPairs
  rw [if_pos ⟨horder,le_rfl⟩]
  simp only [List.tail_cons, List.zip_cons_cons, List.zip_nil_right, List.filterMap_cons,
    List.filterMap_nil, List.getLast?_cons_cons, List.getLast?_singleton, Option.bind_eq_bind,
    Option.bind_some, Option.pure_def, hobservation]
  rw [if_neg (List.cons_ne_nil _ _), hfit]
  simp only [Option.bind_some]
  rw [hpredicted]
  simp only [column_zeroMatrix]
  exact congrArg some (List.ext_getElem (by simp) fun i _ _ => by simp)

theorem expected_zero (p : List ℝ) (clientId : String) :
    expected (some (order.map fun id => (id,p))) clientId =
      if clientId ∈ order then some p else none := by
  unfold expected
  induction order with
  | nil => rfl
  | cons id order ih =>
    change ((List.find? _ ((id,p)::order.map fun id => (id,p))).map Prod.snd) = _
    rw [List.find?_cons]
    by_cases hid : id = clientId
    · rw [decide_eq_true hid, if_pos (List.mem_cons.mpr (.inl hid.symm))]
      rfl
    · have hmem : clientId ∈ id::order ↔ clientId ∈ order := by
        rw [List.mem_cons, or_iff_right (Ne.symm hid)]
      rw [decide_eq_false hid, if_congr hmem rfl rfl]
      exact ih

end Forecast

section Common
variable {ν : Type} {history : List (Snapshot ν)} {current : Snapshot ν} {a b : String}

theorem mem_commonClients {id : String} : id ∈ commonClients history current ↔
    id ∈ current.keys ∧ ∀ s ∈ history, (s.lookup id).isSome = true := by
  rw [commonClients, StableSort.mem_sortBy, List.mem_filter, List.all_eq_true]

theorem mem_keys_snapshotOf [Floating ν] {batch : List (String × List ν)} {id : String} :
    id ∈ (snapshotOf batch).keys ↔ id ∈ batch.map Prod.fst := by
  have hfold (t : Snapshot ν) : id ∈ (batch.foldl (fun s e => s.upsert e.1 e.2) t).keys ↔
      id ∈ t.keys ∨ id ∈ batch.map Prod.fst := by
    induction batch generalizing t with
    | nil => simp
    | cons e batch ih =>
      rw [List.foldl_cons, ih, KeyedTable.mem_keys_upsert, List.map_cons, List.mem_cons]
      tauto
  exact (hfold .empty).trans (or_iff_right List.not_mem_nil)

theorem two_le_length_commonClients (hab : a ≠ b) (ha : a ∈ commonClients history current)
    (hb : b ∈ commonClients history current) : 2 ≤ (commonClients history current).length := by
  have hnodup : [a,b].Nodup := List.nodup_cons.mpr ⟨by simpa using hab,List.nodup_singleton b⟩
  refine (hnodup.subperm fun id hid => ?_).length_le
  rcases List.mem_cons.mp hid with rfl | hid
  · exact ha
  · rw [List.mem_singleton.mp hid]
    exact hb

end Common

section Base
variable {dim : ℕ} {us : List ClientDelta}

/-- The base that the catalog gives it, in exact arithmetic. -/
noncomputable def exactBase : List ClientDelta → Except AggregatorError (List ℝ) :=
  Robust.filtered (Robust.krumFilter ℝ defaultFraction) fedAvgIn

/-- An update of zeros. -/
def quiet (dim : ℕ) (clientId : String) : ClientDelta := sent clientId (List.replicate dim F32.zero)

theorem row_quiet (clientId : String) : row (quiet dim clientId) = zeros dim := by
  rw [quiet, row_sent, List.map_replicate]
  rfl

theorem finite_replicate_zero : ∀ x ∈ List.replicate dim F32.zero, x.isFinite = true := by
  intro x hx
  rw [(List.mem_replicate.mp hx).2]
  decide

/-- Updates of zeros are combined to zeros. -/
theorem exactBase_quiet (hne : us ≠ []) (h : ∀ u ∈ us, ∃ clientId, u = quiet dim clientId) :
    exactBase us = .ok (zeros dim) := by
  have hd := @decodeAndValidate_sent dim us fun u hu => by
    obtain ⟨clientId,rfl⟩ := h u hu
    exact ⟨clientId,_,rfl,List.length_replicate,finite_replicate_zero⟩
  obtain ⟨out,hout,hlen,hbetween⟩ := Robust.filtered_within defaultFraction 0 hd hne
    (fun u hu => by obtain ⟨clientId,rfl⟩ := h u hu; exact Nat.one_pos) _ List.mem_cons_self
  have hzero {k i : ℕ} {x : ℝ}
      (hx : (Robust.column (us.map fun u => words u.weights) k)[i]? = some x) : x = 0 := by
    rw [Robust.column, embed_of_ok hd, List.map_map] at hx
    obtain ⟨u,hu,rfl⟩ := List.mem_map.mp (List.mem_of_getElem? hx)
    obtain ⟨clientId,rfl⟩ := h u hu
    rw [Function.comp_apply, row_quiet, getD_zeros]
  have hdim : ((us.map fun u => words u.weights).headD []).length = dim := by
    obtain ⟨u,us,rfl⟩ := List.exists_cons_of_ne_nil hne
    obtain ⟨clientId,rfl⟩ := h u List.mem_cons_self
    exact (congrArg List.length (words_encodeWeights _)).trans List.length_replicate
  refine hout.trans (congrArg Except.ok ?_)
  refine List.eq_replicate_iff.mpr ⟨hlen.trans hdim,fun x hx => ?_⟩
  obtain ⟨k,hk⟩ := List.getElem?_of_mem hx
  obtain ⟨⟨i,a,ha,-,hlow⟩,j,b,hb,-,hhigh⟩ := hbetween k x hk
  rw [hzero ha] at hlow
  rw [hzero hb] at hhigh
  exact le_antisymm hhigh hlow

end Base

section Run

/-- A batch of zeros. -/
def quietBatch (dim : ℕ) (ids : List String) : List ClientDelta := ids.map (quiet dim)

/-- The state after two rounds of zeros. -/
noncomputable def quietState (dim : ℕ) (ids : List String) : State ℝ :=
  Calls.after (aggregate exactBase) ⟨[],none⟩ [quietBatch dim ids,quietBatch dim ids]

noncomputable def quietSnapshot (dim : ℕ) (ids : List String) : Snapshot ℝ :=
  snapshotOf (ids.map fun id => (id,zeros dim))

variable {dim : ℕ} {ids : List String}

theorem decodeAndValidate_quietBatch : decodeAndValidate (quietBatch dim ids) =
    .ok ((quietBatch dim ids).map fun u => words u.weights) :=
  @decodeAndValidate_sent dim _ fun u hu => by
    obtain ⟨id,-,rfl⟩ := List.mem_map.mp hu
    exact ⟨id,_,rfl,List.length_replicate,finite_replicate_zero⟩

theorem aggregate_quietBatch (state : State ℝ) (hne : ids ≠ []) :
    (aggregate exactBase state (quietBatch dim ids)).2 =
      ⟨(state.history++[quietSnapshot dim ids]).drop
        ((state.history++[quietSnapshot dim ids]).length-windowLength),some (zeros dim)⟩ := by
  have hd := @decodeAndValidate_quietBatch dim ids
  have hbatch : quietBatch dim ids ≠ [] := fun h => hne (List.map_eq_nil_iff.mp h)
  have hbase := @exactBase_quiet dim (keptUpdates state (quietBatch dim ids) (embed
      ((quietBatch dim ids).map fun u => words u.weights))) (keptUpdates_ne_nil state hd hbatch)
    fun u hu => by
      obtain ⟨id,-,rfl⟩ := List.mem_map.mp (keptUpdates_subset _ _ _ hu)
      exact ⟨id,rfl⟩
  have hsnapshot : ((quietBatch dim ids).map ClientDelta.clientId).zip
      (embed ((quietBatch dim ids).map fun u => words u.weights)) =
        ids.map fun id => (id,(zeros dim : List ℝ)) := by
    rw [zip_embed hd, quietBatch, List.map_map]
    exact List.map_congr_left fun id _ => Prod.ext rfl (row_quiet id)
  unfold aggregate onBatch
  rw [if_neg hbatch, hd]
  dsimp only
  rw [hbase, hsnapshot]
  rfl

theorem quietState_eq (hne : ids ≠ []) : quietState dim ids =
    ⟨[quietSnapshot dim ids,quietSnapshot dim ids],some (zeros dim)⟩ := by
  unfold quietState
  rw [Calls.after_cons, Calls.after_cons, aggregate_quietBatch _ hne, aggregate_quietBatch _ hne]
  rfl

theorem lookup_quietSnapshot (id : String) :
    (quietSnapshot dim ids).lookup id = if id ∈ ids then some (zeros dim) else none := by
  have hfold (t : Snapshot ℝ) : ((ids.map fun id => (id,(zeros dim : List ℝ))).foldl
      (fun s e => s.upsert e.1 e.2) t).lookup id =
        if id ∈ ids then some (zeros dim) else t.lookup id := by
    induction ids generalizing t with
    | nil => rfl
    | cons a ids ih =>
      rw [List.map_cons, List.foldl_cons, ih, KeyedTable.lookup_upsert]
      by_cases hmem : id ∈ ids
      · rw [if_pos hmem, if_pos (List.mem_cons_of_mem a hmem)]
      · rw [if_neg hmem]
        exact if_congr (by rw [List.mem_cons, or_iff_left hmem]) rfl rfl
  exact hfold .empty

theorem mem_commonClients_quiet {current : Snapshot ℝ} {id : String} :
    id ∈ commonClients [quietSnapshot dim ids,quietSnapshot dim ids] current ↔
      id ∈ current.keys ∧ id ∈ ids := by
  have hsome : ((quietSnapshot dim ids).lookup id).isSome = true ↔ id ∈ ids := by
    rw [lookup_quietSnapshot]
    split_ifs with hmem <;> simp [hmem]
  rw [mem_commonClients]
  simp only [List.mem_cons, List.not_mem_nil, or_false, forall_eq_or_imp, forall_eq, hsome,
    and_self]

theorem forecastCoordinates_ne_nil {limit : ℕ} (h : 0 < dim) :
    forecastCoordinates dim limit ≠ [] := by
  unfold forecastCoordinates
  split_ifs with hlimit
  · exact fun hnil => h.ne' (List.range_eq_nil.mp hnil)
  · exact fun hnil => (not_or.mp hlimit).2 (List.range_eq_nil.mp (List.map_eq_nil_iff.mp hnil))

/-- After two rounds of zeros, zeros are expected of those who sent them. -/
theorem expected_quiet {updates : List ClientDelta} {decoded : List (List F32)} {a b : String}
    (hids : ids ≠ []) (hd : decodeAndValidate updates = .ok decoded)
    (hdim : (decoded.headD []).length = dim) (hpos : 0 < dim) (hab : a ≠ b) (ha : a ∈ ids)
    (hb : b ∈ ids) (ha' : a ∈ updates.map ClientDelta.clientId)
    (hb' : b ∈ updates.map ClientDelta.clientId) (id : String)
    (hid : id ∈ updates.map ClientDelta.clientId) :
    expected (roundForecast (quietState dim ids) updates (embed decoded)) id =
      if id ∈ ids then some (zeros (forecastCoordinates dim maxForecastDim).length) else none := by
  have hkeys {id : String} : id ∈ (snapshotOf ((updates.map ClientDelta.clientId).zip
      (embed decoded : List (List ℝ)))).keys ↔ id ∈ updates.map ClientDelta.clientId := by
    rw [mem_keys_snapshotOf, zip_embed hd, List.map_map]
    rfl
  have hcommon {id : String} (hid : id ∈ updates.map ClientDelta.clientId) :
      id ∈ commonClients [quietSnapshot dim ids,quietSnapshot dim ids] (snapshotOf
        ((updates.map ClientDelta.clientId).zip (embed decoded))) ↔ id ∈ ids :=
    mem_commonClients_quiet.trans (and_iff_right (hkeys.mpr hid))
  have horder := two_le_length_commonClients hab ((hcommon ha').mpr ha) ((hcommon hb').mpr hb)
  unfold roundForecast
  rw [quietState_eq hids, length_headD_embed, hdim, forecast_zero horder
    (forecastCoordinates_ne_nil hpos) fun id hid => ?_, expected_zero]
  · exact if_congr (hcommon hid) rfl rfl
  · rw [lookup_quietSnapshot, if_pos (mem_commonClients_quiet.mp hid).2]

theorem deviatesBy_zeros (w : List ℝ) (coords : List ℕ) :
    DeviatesBy (fun c => w.getD c 0) coords w (zeros coords.length) := by
  unfold DeviatesBy
  refine List.ext_getElem (by simp [zeros]) fun i hi hi' => ?_
  simp [zeros]

end Run

section Late

/-- One coordinate more than is sampled, and only that one moved. -/
def lastWeights : List F32 := List.replicate 500 F32.zero++[F32.one]

/-- The first client was there before, the last one was not; both report the same. -/
def lateBatch : List ClientDelta := [sent "a" lastWeights,quiet 501 "b",sent "c" lastWeights]

def lateRows : List (List F32) := lateBatch.map fun u => words u.weights

theorem length_lastWeights : lastWeights.length = 501 := by
  rw [lastWeights, List.length_append, List.length_replicate]
  rfl

theorem decodeAndValidate_lateBatch : decodeAndValidate lateBatch = .ok lateRows := by
  have hlast : lastWeights.length = 501 ∧ ∀ x ∈ lastWeights, x.isFinite = true := by
    refine ⟨length_lastWeights,fun x hx => ?_⟩
    rcases List.mem_append.mp hx with hx | hx
    · exact finite_replicate_zero x hx
    · rw [List.mem_singleton.mp hx]
      decide
  refine @decodeAndValidate_sent 501 _ fun u hu => ?_
  simp only [lateBatch, List.mem_cons, List.not_mem_nil, or_false] at hu
  rcases hu with rfl | rfl | rfl
  · exact ⟨_,_,rfl,hlast⟩
  · exact ⟨_,_,rfl,List.length_replicate,finite_replicate_zero⟩
  · exact ⟨_,_,rfl,hlast⟩

theorem length_headD_lateRows : (lateRows.headD []).length = 501 :=
  (congrArg List.length (words_encodeWeights lastWeights)).trans length_lastWeights

theorem length_headD_embed_lateRows : ((embed lateRows : List (List ℝ)).headD []).length = 501 := by
  rw [length_headD_embed, length_headD_lateRows]

theorem expected_lateBatch (id : String) (hid : id ∈ ["a","b","c"]) :
    expected (roundForecast (quietState 501 ["a","b"]) lateBatch (embed lateRows)) id =
      if id ∈ ["a","b"] then some (zeros (forecastCoordinates 501 maxForecastDim).length)
      else none :=
  expected_quiet (List.cons_ne_nil _ _) decodeAndValidate_lateBatch length_headD_lateRows
    (by decide) (by decide : "a" ≠ "b") (by decide) (by decide) (by decide) (by decide) id hid

/-- What the first and the last client report, as a deviation from nothing. -/
noncomputable def lateDeviation (c : ℕ) : ℝ := (lastWeights.map F32.toReal).getD c 0

theorem deviates_lateBatch : Deviates (quietState 501 ["a","b"]) lateBatch (embed lateRows)
      lateDeviation (sent "a" lastWeights) (lastWeights.map F32.toReal) ∧
    Deviates (quietState 501 ["a","b"]) lateBatch (embed lateRows)
      lateDeviation (sent "c" lastWeights) (lastWeights.map F32.toReal) := by
  have hglobal : (quietState 501 ["a","b"]).global = some (zeros 501) := by
    rw [quietState_eq (List.cons_ne_nil _ _)]
  constructor
  · refine .known _ ((expected_lateBatch "a" (by decide)).trans (if_pos (by decide))) ?_
    rw [length_headD_embed_lateRows]
    exact deviatesBy_zeros _ _
  · have hrange := deviatesBy_zeros (lastWeights.map F32.toReal) (List.range 501)
    rw [List.length_range] at hrange
    refine .cold _ ((expected_lateBatch "c" (by decide)).trans (if_neg (by decide))) hglobal ?_ ?_
    · rw [length_headD_embed_lateRows, List.length_map, length_lastWeights]
    · rw [length_headD_embed_lateRows]
      exact hrange

theorem roundScore_eq_iff_lateBatch :
    roundScore (quietState 501 ["a","b"]) lateBatch (embed lateRows) (sent "a" lastWeights)
        (lastWeights.map F32.toReal) =
      roundScore (quietState 501 ["a","b"]) lateBatch (embed lateRows) (sent "c" lastWeights)
        (lastWeights.map F32.toReal) ↔
      isKnown (quietState 501 ["a","b"]) lateBatch (embed lateRows) (sent "a" lastWeights) =
        isKnown (quietState 501 ["a","b"]) lateBatch (embed lateRows) (sent "c" lastWeights) ∨
      ∀ c < ((embed lateRows : List (List ℝ)).headD []).length,
        c ∉ forecastCoordinates ((embed lateRows : List (List ℝ)).headD []).length maxForecastDim →
          lateDeviation c = 0 :=
  roundScore_eq_iff deviates_lateBatch.1 deviates_lateBatch.2

/-- In an accepted batch, after two others, a known client and a new one that deviate alike from
their references are scored differently. -/
theorem roundScore_ne_lateBatch : decodeAndValidate lateBatch = .ok lateRows ∧
    Deviates (quietState 501 ["a","b"]) lateBatch (embed lateRows)
      lateDeviation (sent "a" lastWeights) (lastWeights.map F32.toReal) ∧
    Deviates (quietState 501 ["a","b"]) lateBatch (embed lateRows)
      lateDeviation (sent "c" lastWeights) (lastWeights.map F32.toReal) ∧
    roundScore (quietState 501 ["a","b"]) lateBatch (embed lateRows) (sent "a" lastWeights)
        (lastWeights.map F32.toReal) ≠
      roundScore (quietState 501 ["a","b"]) lateBatch (embed lateRows) (sent "c" lastWeights)
        (lastWeights.map F32.toReal) := by
  have hknown : isKnown (quietState 501 ["a","b"]) lateBatch (embed lateRows)
      (sent "a" lastWeights) = true :=
    congrArg Option.isSome ((expected_lateBatch "a" (by decide)).trans (if_pos (by decide)))
  have hcold : isKnown (quietState 501 ["a","b"]) lateBatch (embed lateRows)
      (sent "c" lastWeights) = false :=
    congrArg Option.isSome ((expected_lateBatch "c" (by decide)).trans (if_neg (by decide)))
  refine ⟨decodeAndValidate_lateBatch,deviates_lateBatch.1,deviates_lateBatch.2,fun h => ?_⟩
  rw [deviates_lateBatch.1.roundScore_eq, deviates_lateBatch.2.roundScore_eq, hknown, hcold,
    length_headD_embed_lateRows, if_pos rfl, if_neg Bool.false_ne_true, sum_sampled_eq_iff] at h
  -- the samples end one coordinate early
  have hsampled : 500 ∉ forecastCoordinates 501 maxForecastDim := fun hmem => by
    obtain ⟨i,hi,heq⟩ := List.mem_map.mp hmem
    have hlt := List.mem_range.mp hi
    change i < 500 at hlt
    change i*501/500 = 500 at heq
    omega
  have hlast : lateDeviation 500 = 1 := by
    unfold lateDeviation lastWeights
    rw [List.getD_eq_getElem?_getD, List.map_append, List.map_replicate,
      List.getElem?_append_right (by rw [List.length_replicate]), List.length_replicate]
    exact F32.toReal_one
  exact one_ne_zero (hlast.symm.trans (h 500 (by decide) hsampled))

end Late
end ConfluxFL.Flanders
