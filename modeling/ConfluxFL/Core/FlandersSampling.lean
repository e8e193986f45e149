import ConfluxFL.Core.FlandersScores
import ConfluxFL.Core.FlandersSolve

/-! The coordinates a forecast is fitted over, as the machine computes them, and what is read and
built with them: the sample is even, it stays inside the vectors, and it bounds the fit. -/
namespace ConfluxFL.Flanders
variable {ν ω : Type} [Floating ν] [Floating ω] [Precision ν ω]
open Precision

section Sample
variable {dim limit size : ℕ}

/-- The coordinates in a machine word of `size` values, where a product wraps around. -/
def forecastCoordinatesIn (size dim limit : ℕ) : List ℕ :=
  if dim ≤ limit ∨ limit = 0 then List.range dim
  else (List.range limit).map fun i => i*dim%size/limit

/-- An even sample of at most `limit` coordinates below `dim`. -/
structure EvenSample (dim limit : ℕ) (coords : List ℕ) : Prop where
  increasing : coords.Pairwise (· < ·)
  inBounds : ∀ c ∈ coords, c < dim
  length_eq : coords.length = min dim limit
  first : 0 < dim → coords.head? = some 0
  spacing : limit < dim → ∀ i < limit,
    (coords++[dim]).getD (i+1) 0 = (coords++[dim]).getD i 0+dim/limit ∨
      (coords++[dim]).getD (i+1) 0 = (coords++[dim]).getD i 0+(dim+limit-1)/limit

theorem forecastCoordinatesIn_eq (hsize : limit*dim < size) :
    forecastCoordinatesIn size dim limit = forecastCoordinates dim limit := by
  unfold forecastCoordinatesIn forecastCoordinates
  split
  · rfl
  · refine List.map_congr_left fun i hi => ?_
    have hle : i*dim ≤ limit*dim := Nat.mul_le_mul_right dim (List.mem_range.mp hi).le
    rw [Nat.mod_eq_of_lt (hle.trans_lt hsize)]

/-- A step forward is the rounded step, and one more when the remainders fill up. -/
theorem step_div (hlimit : 0 < limit) (i dim : ℕ) :
    (i+1)*dim/limit = i*dim/limit+dim/limit ∨
      (i+1)*dim/limit = i*dim/limit+(dim+limit-1)/limit := by
  rw [Nat.add_mul, Nat.one_mul, Nat.add_div hlimit]
  split
  · next hfull =>
    right
    have hmod : 0 < dim%limit := by
      have := Nat.mod_lt (i*dim) hlimit
      omega
    have hceil : (dim+limit-1)/limit = dim/limit+1 := by
      have hdiv := Nat.div_add_mod dim limit
      have hlt := Nat.mod_lt dim hlimit
      rw [Nat.div_eq_iff hlimit, Nat.mul_comm, Nat.mul_add]
      omega
    rw [hceil, Nat.add_assoc]
  · exact .inl rfl

theorem getD_forecastCoordinates (hlimit : 0 < limit) (hdim : limit < dim) {i : ℕ}
    (hi : i ≤ limit) : (forecastCoordinates dim limit++[dim]).getD i 0 = i*dim/limit := by
  have hlen : (forecastCoordinates dim limit).length = limit := by
    rw [forecastCoordinates, if_neg (by omega), List.length_map, List.length_range]
  rcases hi.lt_or_eq with hlt | rfl
  · rw [List.getD_append _ _ _ _ (by omega), forecastCoordinates, if_neg (by omega)]
    exact Coordinates.getD_map_range hlt
  · rw [List.getD_append_right _ _ _ _ (by omega), hlen, Nat.sub_self,
      Nat.mul_div_cancel_left _ hlimit]
    rfl

theorem evenSample (hlimit : 0 < limit) : EvenSample dim limit (forecastCoordinates dim limit) where
  increasing := pairwise_forecastCoordinates dim limit
  inBounds _ := lt_of_mem_forecastCoordinates
  length_eq := by
    unfold forecastCoordinates
    split
    · rw [List.length_range]
      omega
    · rw [List.length_map, List.length_range]
      omega
  first hdim := by
    unfold forecastCoordinates
    split
    · rw [List.head?_range, if_neg hdim.ne']
    · rw [List.head?_map, List.head?_range, if_neg hlimit.ne', Option.map_some, Nat.zero_mul,
        Nat.zero_div]
  spacing hdim i hi := by
    rw [getD_forecastCoordinates hlimit hdim hi, getD_forecastCoordinates hlimit hdim hi.le]
    exact step_div hlimit i dim

end Sample
section Checked

def setEntry (m : Matrix ω) (row col : ℕ) (x : ω) : Except SolveStop (Matrix ω) := do
  let r ← index m row
  let _ ← index r col
  return m.set row (r.set col x)

/-- One client's column, coordinate by coordinate, from a row on. -/
def fillColumn (w : List ν) (col : ℕ) : List ℕ → ℕ → Matrix ω → Except SolveStop (Matrix ω)
  | [], _, m => .ok m
  | c::coords, row, m => do
    fillColumn w col coords (row+1) (← setEntry m row col (widen (← index w c)))

/-- The columns of these clients, from a column on. -/
def fillColumns (snapshot : Snapshot ν) (dim : ℕ) (coords : List ℕ) :
    List String → ℕ → Matrix ω → Except SolveStop (Option (Matrix ω))
  | [], _, m => .ok (some m)
  | id::order, col, m =>
    match snapshot.lookup id with
    | none => .ok none
    | some w =>
      if w.length ≠ dim then .ok none
      else do fillColumns snapshot dim coords order (col+1) (← fillColumn w col coords 0 m)

/-- The observation as the source builds it, in place, with every index checked. -/
def observationChecked (snapshot : Snapshot ν) (order : List String) (dim : ℕ)
    (coords : List ℕ) : Except SolveStop (Option (Matrix ω)) :=
  fillColumns snapshot dim coords order 0 (zeroMatrix coords.length order.length)

variable {snapshot : Snapshot ν} {w : List ν} {coords : List ℕ} {dim col : ℕ}

/-- A column fills up row by row; the rows before are done. -/
theorem fillColumn_ok (hcoords : ∀ c ∈ coords, c < w.length) (done : Matrix ω) {m : Matrix ω}
    (hlen : m.length = coords.length) (hrows : ∀ r ∈ m, col < r.length) :
    fillColumn w col coords done.length (done++m) =
      .ok (done++m.zipWith (fun r c => r.set col (widen (w.getD c 0))) coords) := by
  induction coords generalizing done m with
  | nil =>
    obtain rfl := List.eq_nil_of_length_eq_zero hlen
    rfl
  | cons c coords ih =>
    obtain ⟨r,m,rfl⟩ := List.exists_cons_of_length_eq_add_one hlen
    have hrow : index (done++r::m) done.length = .ok r := by
      rw [index, List.getElem?_append_right le_rfl, Nat.sub_self]
      rfl
    have hset (x : List ω) : (done++r::m).set done.length x = done++[x]++m := by
      rw [List.set_append_right _ _ le_rfl, Nat.sub_self, List.append_assoc]
      rfl
    rw [fillColumn, Dense.index_ok (hcoords c List.mem_cons_self) 0, Fallible.ok_bind, setEntry, hrow,
      Fallible.ok_bind, Dense.index_ok (hrows r List.mem_cons_self) 0, Fallible.ok_bind, hset]
    have hrest := ih (fun e he => hcoords e (List.mem_cons_of_mem c he))
      (done++[r.set col (widen (w.getD c 0))]) (Nat.succ.inj hlen)
      fun e he => hrows e (List.mem_cons_of_mem r he)
    rw [List.length_append, List.length_singleton] at hrest
    refine hrest.trans ?_
    rw [List.append_assoc, List.zipWith_cons_cons]
    rfl

/-- The columns of `ws` in a matrix with room for `rest` more. -/
def filled (coords : List ℕ) (ws : List (List ν)) (rest : ℕ) : Matrix ω :=
  coords.map fun c => (ws.map fun w => widen (w.getD c 0))++zeros rest

theorem fillColumn_filled (hcoords : ∀ c ∈ coords, c < w.length) (ws : List (List ν)) (rest : ℕ) :
    fillColumn w ws.length coords 0 (filled coords ws (rest+1)) =
      .ok (filled coords (ws++[w]) rest : Matrix ω) := by
  refine (fillColumn_ok hcoords [] (List.length_map _) fun r hr => ?_).trans ?_
  · obtain ⟨c,-,rfl⟩ := List.mem_map.mp hr
    rw [List.length_append, List.length_map, length_zeros]
    omega
  · unfold filled
    rw [List.nil_append, List.zipWith_map_left, List.zipWith_self]
    refine congrArg Except.ok (List.map_congr_left fun c _ => ?_)
    rw [List.set_append_right _ _ (List.length_map _).le, List.length_map, Nat.sub_self,
      List.map_append, List.append_assoc]
    rfl

theorem fillColumns_filled (hcoords : ∀ c ∈ coords, c < dim) (order : List String)
    (ws : List (List ν)) :
    fillColumns snapshot dim coords order ws.length (filled coords ws order.length : Matrix ω) =
      .ok ((order.mapM fun id => (snapshot.lookup id).filter fun w => w.length = dim).map
        fun ws' => filled coords (ws++ws') 0) := by
  induction order generalizing ws with
  | nil =>
    rw [List.mapM_nil]
    change _ = Except.ok (some (filled coords (ws++[]) 0))
    rw [List.append_nil]
    rfl
  | cons id order ih =>
    rw [fillColumns, List.mapM_cons]
    cases hw : snapshot.lookup id with
    | none => rfl
    | some w =>
      dsimp only
      rw [Option.filter_some]
      by_cases hdim : w.length = dim
      · rw [if_neg (not_not.mpr hdim), if_pos (decide_eq_true hdim)]
        have hcolumn := fillColumn_filled (ω := ω) (fun c hc => (hcoords c hc).trans_eq hdim.symm) ws
          order.length
        rw [List.length_cons, hcolumn]
        have hnext := ih (ws++[w])
        rw [List.length_append, List.length_singleton] at hnext
        refine hnext.trans ?_
        cases order.mapM fun id => (snapshot.lookup id).filter fun w => decide (w.length = dim) with
        | none => rfl
        | some ws' =>
          change Except.ok (some (filled coords (ws++[w]++ws') 0)) = _
          rw [List.append_assoc]
          rfl
      · rw [if_pos hdim, if_neg (by simpa using hdim)]
        rfl

/-- Every index the observation uses is in range. -/
theorem observationChecked_ok (hcoords : ∀ c ∈ coords, c < dim) (order : List String) :
    observationChecked snapshot order dim coords =
      .ok (observation snapshot order dim coords : Option (Matrix ω)) := by
  have hzero : (zeroMatrix coords.length order.length : Matrix ω) =
      filled coords ([] : List (List ν)) order.length := by
    rw [zeroMatrix, filled]
    exact List.map_const'.symm
  rw [observationChecked, hzero]
  refine (fillColumns_filled hcoords order []).trans ?_
  unfold observation
  cases order.mapM fun id => (snapshot.lookup id).filter fun w => decide (w.length = dim) with
  | none => rfl
  | some ws =>
    refine congrArg (fun m => Except.ok (some m)) (List.map_congr_left fun c _ => ?_)
    exact List.append_nil _

end Checked

section Fitted
variable {k n col : ℕ} {a b m rhs x : Matrix ω} {pairs : List (Matrix ω × Matrix ω)} {ridge : ω}

/-- At most `k` rows of at most `k` entries. -/
structure Within (k : ℕ) (a : Matrix ω) : Prop where
  length_le : a.length ≤ k
  row_le : ∀ r ∈ a, r.length ≤ k

omit [Floating ω] in
theorem Within.length_flatten (h : Within k a) : a.flatten.length ≤ k^2 := by
  rw [List.length_flatten]
  have hrows : ∀ l ∈ a.map List.length, l ≤ k := fun l hl => by
    obtain ⟨r,hr,rfl⟩ := List.mem_map.mp hl
    exact h.row_le r hr
  calc (a.map List.length).sum ≤ (a.map List.length).length*k := by
        simpa using List.sum_le_card_nsmul _ _ hrows
    _ ≤ k^2 := by
      rw [List.length_map, sq]
      exact Nat.mul_le_mul_right k h.length_le

theorem within_zeroMatrix (k : ℕ) : Within k (zeroMatrix k k : Matrix ω) where
  length_le := (List.length_replicate).le
  row_le r hr := by rw [List.eq_of_mem_replicate hr, length_zeros]

theorem within_identity (k : ℕ) : Within k (identity k : Matrix ω) where
  length_le := by rw [identity, List.length_map, List.length_range]
  row_le r hr := by
    obtain ⟨i,-,rfl⟩ := List.mem_map.mp hr
    rw [List.length_map, List.length_range]

theorem Within.transpose (h : Within k a) : Within k (transpose a) where
  length_le := by
    rw [Flanders.transpose, List.length_map, List.length_range]
    cases a with
    | nil => exact Nat.zero_le k
    | cons r a => exact h.row_le r List.mem_cons_self
  row_le r hr := by
    obtain ⟨j,-,rfl⟩ := List.mem_map.mp hr
    rw [List.length_map]
    exact h.length_le

theorem Within.addMatrix (h : Within k a) (b : Matrix ω) : Within k (addMatrix a b) where
  length_le := (List.length_zipWith.trans_le (min_le_left _ _)).trans h.length_le
  row_le r hr := by
    obtain ⟨i,hi,rfl⟩ := List.mem_iff_getElem.mp hr
    simp only [Flanders.addMatrix, List.getElem_zipWith, List.length_zipWith]
    exact (min_le_left _ _).trans (h.row_le _ (List.getElem_mem _))

theorem within_sumOver (pairs : List (Matrix ω × Matrix ω)) (k : ℕ)
    (term : Matrix ω × Matrix ω → Matrix ω) : Within k (sumOver pairs k term) := by
  unfold sumOver
  induction pairs using List.reverseRecOn with
  | nil => exact within_zeroMatrix k
  | append_singleton pairs p ih =>
    rw [List.foldl_append]
    exact ih.addMatrix (term p)

omit [Floating ω] in
theorem Within.getD (h : Within k a) (i : ℕ) : (a.getD i []).length ≤ k := by
  rw [List.getD_eq_getElem?_getD]
  cases hi : a[i]? with
  | none => exact Nat.zero_le k
  | some r => exact h.row_le r (List.mem_of_getElem? hi)

omit [Floating ω] in
theorem Within.swapRows (h : Within k a) (i j : ℕ) : Within k (swapRows a i j) where
  length_le := by
    rw [Flanders.swapRows, List.length_set, List.length_set]
    exact h.length_le
  row_le r hr := by
    rcases List.mem_or_eq_of_mem_set hr with hr | rfl
    · rcases List.mem_or_eq_of_mem_set hr with hr | rfl
      · exact h.row_le r hr
      · exact h.getD j
    · exact h.getD i

/-- Clearing a column does not make the right-hand sides larger. -/
theorem Within.eliminateColumn {s s' : Matrix ω × Matrix ω} (h : Within k s.2)
    (hs : eliminateColumn n s col = some s') : Within k s'.2 := by
  unfold Flanders.eliminateColumn at hs
  dsimp only at hs
  split at hs
  · cases hs
  have hswap := h.swapRows col (col+Floating.argMax
    ((List.range (n-col)).map fun i => Floating.abs ((s.1.getD (col+i) []).getD col 0)))
  obtain rfl := Option.some.inj hs
  refine ⟨by rw [List.length_mapIdx]; exact hswap.length_le,fun r hr => ?_⟩
  obtain ⟨row,hrow,rfl⟩ := List.mem_mapIdx.mp hr
  have hle := hswap.row_le _ (List.getElem_mem hrow)
  split
  · rw [List.length_map]
    exact hswap.getD col
  split
  · exact hle
  · rw [List.length_zipWith]
    exact (min_le_left _ _).trans hle

theorem Within.solve (h : Within k rhs) (hx : solve m rhs = some x) : Within k x := by
  unfold Flanders.solve at hx
  dsimp only at hx
  split at hx
  · cases hx
  obtain ⟨s,hs,hx⟩ := Option.bind_eq_some_iff.mp hx
  split at hx
  · cases hx
  obtain rfl := Option.some.inj hx
  exact Fallible.foldlM_some_of_step (fun s c s' (hs : Within k s.2) => hs.eliminateColumn) h hs

theorem within_of_fitLeft {d : ℕ} (h : fitLeft ridge pairs d b = some a) : Within d a := by
  obtain ⟨at',hat,ha⟩ := Option.bind_eq_some_iff.mp h
  obtain rfl := Option.some.inj ha
  exact ((within_sumOver pairs d _).transpose.solve hat).transpose

/-- The left coefficients are no larger than the number of rows they are fitted to. -/
theorem within_of_fitMar {iterations : ℕ} (h : fitMar ridge iterations pairs = some (a,b)) :
    Within ((pairs.map Prod.fst).headD []).length a := by
  obtain ⟨⟨a',b'⟩,hs,h⟩ := Option.bind_eq_some_iff.mp h
  dsimp only at h
  split at h
  · obtain ⟨rfl,rfl⟩ := Prod.mk.inj (Option.some.inj h)
    refine Fallible.foldlM_some_of_step
      (P := fun s => Within ((pairs.map Prod.fst).headD []).length s.1) (fun s c s' _ hs' => ?_)
      (within_identity _) hs
    obtain ⟨a'',ha',hs'⟩ := Option.bind_eq_some_iff.mp hs'
    obtain ⟨b'',-,hs'⟩ := Option.bind_eq_some_iff.mp hs'
    obtain rfl := Option.some.inj hs'
    exact within_of_fitLeft ha'
  · cases h

end Fitted

section Forecast
variable {dim limit size : ℕ}

omit [Floating ω] in
/-- A matrix of observations has a row for every coordinate. -/
theorem length_observation {snapshot : Snapshot ν} {order : List String} {coords : List ℕ}
    {x : Matrix ω} (h : observation snapshot order dim coords = some x) :
    x.length = coords.length := by
  obtain ⟨columns,-,hx⟩ := Option.bind_eq_some_iff.mp h
  obtain rfl := Option.some.inj hx
  exact List.length_map _

/-- The forecast coordinates are an even sample that the machine computes without wrapping; no
observation over them leaves its vectors, and what is fitted to them has at most `limit^2`
entries. -/
theorem forecast_sampled (hlimit : 0 < limit) (hsize : limit*dim < size) :
    EvenSample dim limit (forecastCoordinatesIn size dim limit) ∧
    forecastCoordinatesIn size dim limit = forecastCoordinates dim limit ∧
    (∀ (snapshot : Snapshot ν) order,
      observationChecked snapshot order dim (forecastCoordinatesIn size dim limit) =
        .ok (observation snapshot order dim (forecastCoordinates dim limit) :
          Option (Matrix ω))) ∧
    ∀ (ridge : ω) iterations pairs a b,
      (∀ p ∈ pairs, ∃ (snapshot : Snapshot ν) (order : List String),
        observation snapshot order dim (forecastCoordinates dim limit) = some p.1) →
      fitMar ridge iterations pairs = some (a,b) → a.flatten.length ≤ limit^2 := by
  rw [forecastCoordinatesIn_eq hsize]
  have heven : EvenSample dim limit (forecastCoordinates dim limit) := evenSample hlimit
  refine ⟨heven,rfl,fun snapshot order => observationChecked_ok heven.inBounds order,?_⟩
  intro ridge iterations pairs a b hpairs hfit
  have hwithin := (within_of_fitMar hfit).length_flatten
  refine hwithin.trans (Nat.pow_le_pow_left ?_ 2)
  cases pairs with
  | nil => exact Nat.zero_le limit
  | cons p pairs =>
    obtain ⟨snapshot,order,hp⟩ := hpairs p List.mem_cons_self
    have hlen := length_observation hp
    have hcount := heven.length_eq
    change p.1.length ≤ limit
    omega

theorem forecast_sampled_three : EvenSample 3 2 (forecastCoordinatesIn (2^64) 3 2) ∧
    forecastCoordinatesIn (2^64) 3 2 = [0,1] :=
  ⟨(@forecast_sampled F32 F64 _ _ _ 3 2 (2^64) (by decide) (by decide)).1,by decide⟩

end Forecast
end ConfluxFL.Flanders
