import ConfluxFL.Core.FlandersSolution
import ConfluxFL.Lib.RidgeRegression

/-! The alternating fit in exact arithmetic: each half of a sweep solves the normal equations of
its side, so each takes the best coefficients for the other side's, and nothing gets worse. -/
namespace ConfluxFL.Dense
open Flanders hiding Matrix
open RidgeRegression
variable {d h : ℕ}

/-- Pairs of consecutive observations, as matrices. -/
abbrev Pairs (d h : ℕ) := List (Matrix (Fin d) (Fin h) ℝ × Matrix (Fin d) (Fin h) ℝ)

/-- The same pairs, row by row. -/
def listed (pairs : Pairs d h) : List (List (List ℝ) × List (List ℝ)) :=
  pairs.map fun p => (rows p.1,rows p.2)

section Objective
variable (ridge : ℝ) (pairs : Pairs d h)

/-- The squared forecast errors. -/
noncomputable def misfit (A : Matrix (Fin d) (Fin d) ℝ) (B : Matrix (Fin h) (Fin h) ℝ) : ℝ :=
  (pairs.map fun p => frobenius (p.2-A*p.1*B)).sum

noncomputable def objective (A : Matrix (Fin d) (Fin d) ℝ) (B : Matrix (Fin h) (Fin h) ℝ) : ℝ :=
  misfit pairs A B+ridge*(frobenius A+frobenius B)

/-- The objective at coefficients given row by row. -/
noncomputable def objectiveAt (s : List (List ℝ) × List (List ℝ)) : ℝ :=
  objective ridge pairs (entries d d s.1) (entries h h s.2)

variable {ridge pairs} {A A' : Matrix (Fin d) (Fin d) ℝ} {B B' : Matrix (Fin h) (Fin h) ℝ}

theorem leftLoss_eq (A : Matrix (Fin d) (Fin d) ℝ) (B : Matrix (Fin h) (Fin h) ℝ) :
    leftLoss ridge (pairs.map fun p => (p.1*B,p.2)) A = misfit pairs A B+ridge*frobenius A := by
  rw [leftLoss, misfit, List.map_map]
  simp only [Function.comp_def, Matrix.mul_assoc]

theorem rightLoss_eq (A : Matrix (Fin d) (Fin d) ℝ) (B : Matrix (Fin h) (Fin h) ℝ) :
    rightLoss ridge (pairs.map fun p => (A*p.1,p.2)) B = misfit pairs A B+ridge*frobenius B := by
  rw [rightLoss, misfit, List.map_map]
  rfl

theorem UniqueMin.le {α : Type} {f : α → ℝ} {a : α} (hmin : UniqueMin f a) (b : α) : f a ≤ f b := by
  by_cases heq : b = a
  · rw [heq]
  · exact (hmin b heq).le

theorem objective_le_left (hmin : UniqueMin (fun A => misfit pairs A B+ridge*frobenius A) A') :
    objective ridge pairs A' B ≤ objective ridge pairs A B := by
  have hle := UniqueMin.le hmin A
  rw [objective, objective]
  linarith

theorem objective_le_right (hmin : UniqueMin (fun B => misfit pairs A B+ridge*frobenius B) B') :
    objective ridge pairs A B' ≤ objective ridge pairs A B := by
  have hle := UniqueMin.le hmin B
  rw [objective, objective]
  linarith

end Objective

section Steps
variable {ridge : ℝ} {pairs : Pairs d h}

theorem sumOver_listed {n : ℕ} {term : List (List ℝ) × List (List ℝ) → List (List ℝ)}
    {F : Matrix (Fin d) (Fin h) ℝ × Matrix (Fin d) (Fin h) ℝ → Matrix (Fin n) (Fin n) ℝ}
    (hterm : ∀ p ∈ pairs, term (rows p.1,rows p.2) = rows (F p)) :
    sumOver (listed pairs) n term = rows (pairs.map F).sum := by
  have hfold (S : Matrix (Fin n) (Fin n) ℝ) :
      (listed pairs).foldl (fun acc p => addMatrix acc (term p)) (rows S) =
        rows (S+(pairs.map F).sum) := by
    induction pairs generalizing S with
    | nil => rw [List.map_nil, List.sum_nil, add_zero]; rfl
    | cons p pairs ih =>
      change (listed pairs).foldl _ (addMatrix (rows S) (term (rows p.1,rows p.2))) = _
      rw [hterm p List.mem_cons_self, addMatrix_rows,
        ih (fun q hq => hterm q (List.mem_cons_of_mem _ hq)), List.map_cons, List.sum_cons,
        add_assoc]
  rw [sumOver, zeroMatrix_eq, hfold 0, zero_add]

/-- Sums of products with their own transpose are symmetric. -/
theorem transpose_gram {n m : ℕ} (f : Matrix (Fin d) (Fin h) ℝ × Matrix (Fin d) (Fin h) ℝ →
    Matrix (Fin n) (Fin m) ℝ) : (pairs.map fun p => f p*(f p).transpose).sum.transpose =
      (pairs.map fun p => f p*(f p).transpose).sum := by
  rw [Matrix.transpose_list_sum, List.map_map]
  simp only [Function.comp_def, Matrix.transpose_mul, Matrix.transpose_transpose]

variable {B : Matrix (Fin h) (Fin h) ℝ} {A : Matrix (Fin d) (Fin d) ℝ} {a b : List (List ℝ)}

/-- The system is solved for the transpose; its matrix is symmetric, so this is the left one. -/
theorem leftNormal_of_fitLeft (hd : 0 < d) (hh : 0 < h)
    (hfit : fitLeft ridge (listed pairs) d (rows B) = some a) :
    ∃ A, a = rows A ∧ LeftNormal ridge (pairs.map fun p => (p.1*B,p.2)) A := by
  unfold fitLeft at hfit
  dsimp only at hfit
  rw [sumOver_listed (F := fun p => p.1*B*(p.1*B).transpose) fun p _ => by
      rw [matmul_rows hh, transpose_rows hd, matmul_rows hh],
    sumOver_listed (F := fun p => p.2*(p.1*B).transpose) fun p _ => by
      rw [matmul_rows hh, transpose_rows hd, matmul_rows hh],
    addRidge_rows, transpose_rows hd] at hfit
  obtain ⟨at',hsolve,ha⟩ := Option.bind_eq_some_iff.mp hfit
  obtain ⟨-,-,X,rfl,hX⟩ := exists_of_solve hsolve
  obtain rfl := Option.some.inj ha
  refine ⟨X.transpose,transpose_rows hd X,?_⟩
  have hsystem := congrArg Matrix.transpose hX
  rw [Matrix.transpose_mul, Matrix.transpose_transpose, Matrix.transpose_add, transpose_gram,
    Matrix.transpose_smul, Matrix.transpose_one] at hsystem
  rw [LeftNormal, List.map_map, List.map_map]
  exact hsystem

theorem rightNormal_of_fitRight (hd : 0 < d)
    (hfit : fitRight ridge (listed pairs) h (rows A) = some b) :
    ∃ B, b = rows B ∧ RightNormal ridge (pairs.map fun p => (A*p.1,p.2)) B := by
  unfold fitRight at hfit
  dsimp only at hfit
  rw [sumOver_listed (F := fun p => (A*p.1).transpose*(A*p.1)) fun p _ => by
      rw [matmul_rows hd, transpose_rows hd, matmul_rows hd],
    sumOver_listed (F := fun p => (A*p.1).transpose*p.2) fun p _ => by
      rw [matmul_rows hd, transpose_rows hd, matmul_rows hd],
    addRidge_rows] at hfit
  obtain ⟨-,-,X,rfl,hX⟩ := exists_of_solve hfit
  refine ⟨X,rfl,?_⟩
  rw [RightNormal, List.map_map, List.map_map]
  exact hX

end Steps
section Degenerate
variable {ridge : ℝ} {pairs : Pairs d h}

theorem solve_eq_none {m rhs : List (List ℝ)} (hm : m.headD [] = []) : solve m rhs = none := by
  unfold solve
  dsimp only
  refine if_pos ?_
  rw [hm, List.length_nil]
  omega

theorem headD_addMatrix (a b : List (List ℝ)) :
    (addMatrix a b).headD [] = (a.headD []).zipWith (· + ·) (b.headD []) := by
  cases a with
  | nil => rfl
  | cons r a =>
    cases b with
    | nil => simp [addMatrix]
    | cons s b => rfl

theorem headD_sumOver {n : ℕ} {term : List (List ℝ) × List (List ℝ) → List (List ℝ)}
    {ps : List (List (List ℝ) × List (List ℝ))} (hne : ps ≠ [])
    (hterm : ∀ p ∈ ps, (term p).headD [] = []) : (sumOver ps n term).headD [] = [] := by
  have hfold (acc : List (List ℝ)) (hacc : acc.headD [] = [] ∨ ps ≠ []) :
      (ps.foldl (fun acc p => addMatrix acc (term p)) acc).headD [] = [] := by
    clear hne
    induction ps generalizing acc with
    | nil => exact hacc.resolve_right fun h => h rfl
    | cons p ps ih =>
      refine ih (fun q hq => hterm q (List.mem_cons_of_mem _ hq)) _ (.inl ?_)
      rw [headD_addMatrix, hterm p List.mem_cons_self, List.zipWith_nil_right]
  exact hfold _ (.inr hne)

theorem headD_matmul (a b : List (List ℝ)) (h : a = [] ∨ b = []) : (matmul a b).headD [] = [] := by
  rcases h with rfl | rfl
  · rfl
  · cases a <;> rfl

theorem headD_addRidge {a : List (List ℝ)} (h : a.headD [] = []) :
    (addRidge ridge a).headD [] = [] := by
  cases a with
  | nil => rfl
  | cons r a =>
    obtain rfl : r = [] := h
    rw [addRidge, List.mapIdx_cons]
    rfl

theorem rows_eq_nil {n k : ℕ} (hn : n = 0) (A : Matrix (Fin n) (Fin k) ℝ) : rows A = [] :=
  List.eq_nil_of_length_eq_zero ((shaped_rows A).length_eq.trans hn)

/-- Matrices without rows or without columns leave nothing to fit. -/
theorem fitLeft_eq_none (hne : pairs ≠ []) {b : List (List ℝ)} (hzero : d = 0 ∨ b = []) :
    fitLeft ridge (listed pairs) d b = none := by
  have hlisted : listed pairs ≠ [] := fun hnil => hne (List.map_eq_nil_iff.mp hnil)
  unfold fitLeft
  dsimp only
  rw [solve_eq_none (headD_addRidge (headD_sumOver hlisted fun p hp => headD_matmul _ _ ?_))]
  · rfl
  obtain ⟨q,-,rfl⟩ := List.mem_map.mp hp
  rcases hzero with hd | hb
  · exact .inl (by rw [rows_eq_nil hd]; rfl)
  · right
    have hhead : (matmul (rows q.1) b).headD [] = [] := headD_matmul _ _ (.inr hb)
    rw [transpose, hhead]
    rfl

end Degenerate

section Sweeps
variable {ridge : ℝ} {pairs : Pairs d h} {A : Matrix (Fin d) (Fin d) ℝ}
  {B : Matrix (Fin h) (Fin h) ℝ} {a b : List (List ℝ)}

/-- The left half of a sweep takes the only best left coefficients. -/
theorem exists_of_fitLeft (hne : pairs ≠ []) (hridge : 0 < ridge)
    (hfit : fitLeft ridge (listed pairs) d (rows B) = some a) :
    ∃ A', a = rows A' ∧ UniqueMin (fun A => misfit pairs A B+ridge*frobenius A) A' := by
  have hpos : ¬(d = 0 ∨ h = 0) := fun hzero => by
    rw [fitLeft_eq_none hne (hzero.imp_right fun hh => rows_eq_nil hh B)] at hfit
    cases hfit
  obtain ⟨A',rfl,hnormal⟩ := leftNormal_of_fitLeft (by omega) (by omega) hfit
  refine ⟨A',rfl,fun A hA => ?_⟩
  have hlt := hnormal.uniqueMin hridge A hA
  rwa [leftLoss_eq, leftLoss_eq] at hlt

/-- The right half does the same on its side. -/
theorem exists_of_fitRight (hd : 0 < d) (hridge : 0 < ridge)
    (hfit : fitRight ridge (listed pairs) h (rows A) = some b) :
    ∃ B', b = rows B' ∧ UniqueMin (fun B => misfit pairs A B+ridge*frobenius B) B' := by
  obtain ⟨B',rfl,hnormal⟩ := rightNormal_of_fitRight hd hfit
  refine ⟨B',rfl,fun B hB => ?_⟩
  have hlt := hnormal.uniqueMin hridge B hB
  rwa [rightLoss_eq, rightLoss_eq] at hlt

theorem finiteMatrix_eq_true (a : List (List ℝ)) : finiteMatrix a = true :=
  List.all_eq_true.mpr fun _ _ => List.all_eq_true.mpr fun _ _ => rfl

theorem fitMar_cons (p : Matrix (Fin d) (Fin h) ℝ × Matrix (Fin d) (Fin h) ℝ)
    (ps : Pairs d h) (k : ℕ) : fitMar ridge k (listed (p::ps)) = (List.range k).foldlM (fun s _ => do
      let a ← fitLeft ridge (listed (p::ps)) d s.2
      let b ← fitRight ridge (listed (p::ps)) ((rows p.1).headD []).length a
      return (a,b)) (identity d,identity ((rows p.1).headD []).length) := by
  have hfirst : ((listed (p::ps)).map Prod.fst).headD [] = rows p.1 := rfl
  unfold fitMar
  dsimp only
  rw [hfirst, (shaped_rows p.1).length_eq]
  simp only [finiteMatrix_eq_true, Bool.and_self, if_true]
  exact bind_pure _

/-- One sweep more. -/
theorem fitMar_succ (hne : pairs ≠ []) (k : ℕ) : fitMar ridge (k+1) (listed pairs) = (do
    let s ← fitMar ridge k (listed pairs)
    let a ← fitLeft ridge (listed pairs) d s.2
    let b ← fitRight ridge (listed pairs) h a
    return (a,b)) := by
  obtain ⟨p,ps,rfl⟩ := List.exists_cons_of_ne_nil hne
  rw [fitMar_cons, fitMar_cons, List.range_succ, List.foldlM_append]
  refine bind_congr fun s => (bind_pure _).trans ?_
  dsimp only
  rcases Nat.eq_zero_or_pos d with hd | hd
  · rw [fitLeft_eq_none hne (.inl hd)]
    rfl
  · rw [length_headD_rows hd]

/-- With a row in the data, the coefficients stay square matrices of their sizes. -/
theorem exists_of_fitMar (hne : pairs ≠ []) (hd : 0 < d) (hridge : 0 < ridge) {k : ℕ}
    {s : List (List ℝ) × List (List ℝ)} (hfit : fitMar ridge k (listed pairs) = some s) :
    ∃ (A : Matrix (Fin d) (Fin d) ℝ) (B : Matrix (Fin h) (Fin h) ℝ), s = (rows A,rows B) := by
  induction k generalizing s with
  | zero =>
    obtain ⟨p,ps,rfl⟩ := List.exists_cons_of_ne_nil hne
    rw [fitMar_cons, length_headD_rows hd, identity_eq, identity_eq] at hfit
    exact ⟨1,1,(Option.some.inj hfit).symm⟩
  | succ k ih =>
    rw [fitMar_succ hne] at hfit
    obtain ⟨t,ht,hfit⟩ := Option.bind_eq_some_iff.mp hfit
    obtain ⟨A,B,rfl⟩ := ih ht
    obtain ⟨a,ha,hfit⟩ := Option.bind_eq_some_iff.mp hfit
    obtain ⟨b,hb,hs⟩ := Option.bind_eq_some_iff.mp hfit
    obtain ⟨A',rfl,-⟩ := exists_of_fitLeft hne hridge ha
    obtain ⟨B',rfl,-⟩ := exists_of_fitRight hd hridge hb
    exact ⟨A',B',(Option.some.inj hs).symm⟩

/-- What the two halves of a sweep do to the state of a run. -/
theorem halves_descend (hne : pairs ≠ []) (hridge : 0 < ridge) {k : ℕ}
    {s : List (List ℝ) × List (List ℝ)} (hs : fitMar ridge k (listed pairs) = some s)
    (ha : fitLeft ridge (listed pairs) d s.2 = some a) :
    ∃ A B A', s = (rows A,rows B) ∧ a = rows A' ∧
      UniqueMin (fun A => misfit pairs A B+ridge*frobenius A) A' ∧
      objective ridge pairs A' B ≤ objective ridge pairs A B ∧
      ∀ b, fitRight ridge (listed pairs) h a = some b →
        ∃ B', b = rows B' ∧ UniqueMin (fun B => misfit pairs A' B+ridge*frobenius B) B' ∧
          objective ridge pairs A' B' ≤ objective ridge pairs A' B := by
  have hd : 0 < d := by
    by_contra hzero
    rw [fitLeft_eq_none hne (.inl (by omega))] at ha
    cases ha
  obtain ⟨A,B,rfl⟩ := exists_of_fitMar hne hd hridge hs
  obtain ⟨A',rfl,hleft⟩ := exists_of_fitLeft hne hridge ha
  refine ⟨A,B,A',rfl,rfl,hleft,objective_le_left hleft,fun b hb => ?_⟩
  obtain ⟨B',rfl,hright⟩ := exists_of_fitRight hd hridge hb
  exact ⟨B',rfl,hright,objective_le_right hright⟩

/-- No further sweep makes the objective worse. -/
theorem objectiveAt_fitMar_le (hne : pairs ≠ []) (hridge : 0 < ridge) {i j : ℕ} (hij : i ≤ j)
    {s t : List (List ℝ) × List (List ℝ)} (hs : fitMar ridge i (listed pairs) = some s)
    (ht : fitMar ridge j (listed pairs) = some t) :
    objectiveAt ridge pairs t ≤ objectiveAt ridge pairs s := by
  induction j, hij using Nat.le_induction generalizing t with
  | base => rw [Option.some.inj (hs.symm.trans ht)]
  | succ j hij ih =>
    rw [fitMar_succ hne] at ht
    obtain ⟨u,hu,ht⟩ := Option.bind_eq_some_iff.mp ht
    obtain ⟨a,ha,ht⟩ := Option.bind_eq_some_iff.mp ht
    obtain ⟨b,hb,ht⟩ := Option.bind_eq_some_iff.mp ht
    obtain rfl := Option.some.inj ht
    obtain ⟨A,B,A',rfl,rfl,-,hleft,hright⟩ := halves_descend hne hridge hu ha
    obtain ⟨B',rfl,-,hle⟩ := hright b hb
    have hstep := (hle.trans hleft).trans_eq (by
      rw [objectiveAt, entries_rows, entries_rows] : _ = objectiveAt ridge pairs (rows A,rows B))
    rw [objectiveAt, entries_rows, entries_rows]
    exact hstep.trans (ih hu)

end Sweeps

/-- Alternating least squares descends: on the states the sweeps reach, each half takes the one
minimiser over its side of the errors and the ridge, so no half and no sweep raises the
objective. -/
theorem fitMar_descends {ridge : ℝ} {pairs : Pairs d h} (hne : pairs ≠ []) (hridge : 0 < ridge) :
    (∀ k, fitMar ridge (k+1) (listed pairs) = do
      let s ← fitMar ridge k (listed pairs)
      let a ← fitLeft ridge (listed pairs) d s.2
      let b ← fitRight ridge (listed pairs) h a
      return (a,b)) ∧
    (∀ k s a, fitMar ridge k (listed pairs) = some s →
      fitLeft ridge (listed pairs) d s.2 = some a →
      ∃ A B A', s = (rows A,rows B) ∧ a = rows A' ∧
        UniqueMin (fun A => misfit pairs A B+ridge*frobenius A) A' ∧
        objective ridge pairs A' B ≤ objective ridge pairs A B ∧
        ∀ b, fitRight ridge (listed pairs) h a = some b →
          ∃ B', b = rows B' ∧ UniqueMin (fun B => misfit pairs A' B+ridge*frobenius B) B' ∧
            objective ridge pairs A' B' ≤ objective ridge pairs A' B) ∧
    ∀ i j s t, i ≤ j → fitMar ridge i (listed pairs) = some s →
      fitMar ridge j (listed pairs) = some t →
      objectiveAt ridge pairs t ≤ objectiveAt ridge pairs s := by
  refine ⟨fitMar_succ hne,fun k s a hs ha => ?_,fun i j s t hij hs ht => ?_⟩
  · exact halves_descend hne hridge hs ha
  · exact objectiveAt_fitMar_le hne hridge hij hs ht

section Single
variable {ridge c r x y a b : ℝ}

theorem matmul_single : matmul [[x]] [[y]] = [[x*y]] := by
  have hterm : matmul [[x]] [[y]] = [if Floating.beq x 0 = true then [0] else [0+x*y]] := rfl
  rw [hterm]
  by_cases hx : x = 0
  · have hskip : Floating.beq x 0 = true := decide_eq_true hx
    rw [if_pos hskip, hx, zero_mul]
  · have hkeep : Floating.beq x 0 = false := decide_eq_false hx
    rw [hkeep, if_neg Bool.false_ne_true, zero_add]

/-- A pivot from one on is usable. -/
theorem solve_single (hc : 1 ≤ c) : solve [[c]] [[r]] = some [[r/c]] := by
  have hpivot : Floating.lt (Floating.abs c) 1e-12 = false :=
    decide_eq_false fun hlt : |c| < 1e-12 => absurd (hlt.trans_le' (hc.trans (le_abs_self c)))
      (by norm_num)
  have hpick : Floating.argMax ((List.range (1-0)).map fun i =>
      Floating.abs ((([[c]] : List (List ℝ)).getD (0+i) []).getD 0 0)) = 0 := ite_self _
  have hstep : eliminateColumn 1 ([[c]],[[r]]) 0 = some ([[c/c]],[[r/c]]) := by
    unfold eliminateColumn
    dsimp only
    rw [hpick]
    exact if_neg (Bool.eq_false_iff.mp hpivot)
  change ([0].foldlM (eliminateColumn 1) ([[c]],[[r]])).bind _ = _
  rw [List.foldlM_cons, hstep]
  rfl

theorem fitLeft_single : fitLeft 1 [([[x]],[[y]])] 1 [[b]] =
    some [[(0+y*(x*b))/(0+x*b*(x*b)+1)]] := by
  have hone : 1 ≤ 0+x*b*(x*b)+1 := by nlinarith [mul_self_nonneg (x*b)]
  have htranspose (z : ℝ) : transpose [[z]] = [[z]] := rfl
  unfold fitLeft
  dsimp only
  rw [sumOver, sumOver, List.foldl_cons, List.foldl_cons, List.foldl_nil, List.foldl_nil,
    matmul_single, htranspose, matmul_single, matmul_single]
  change (solve [[0+x*b*(x*b)+1]] [[0+y*(x*b)]]).bind _ = _
  rw [solve_single hone]
  rfl

theorem fitRight_single : fitRight 1 [([[x]],[[y]])] 1 [[a]] =
    some [[(0+a*x*y)/(0+a*x*(a*x)+1)]] := by
  have hone : 1 ≤ 0+a*x*(a*x)+1 := by nlinarith [mul_self_nonneg (a*x)]
  have htranspose (z : ℝ) : transpose [[z]] = [[z]] := rfl
  unfold fitRight
  dsimp only
  rw [sumOver, sumOver, List.foldl_cons, List.foldl_cons, List.foldl_nil, List.foldl_nil,
    matmul_single, htranspose, matmul_single, matmul_single]
  exact solve_single hone

end Single

/-- One client and one coordinate, whose value doubles: every sweep has an answer, and it
descends. -/
theorem fitMar_descends_doubled :
    let pairs : Pairs 1 1 := [(!![1],!![2])]
    (∀ k, (fitMar 1 k (listed pairs)).isSome) ∧
    ∀ i j s t, i ≤ j → fitMar 1 i (listed pairs) = some s → fitMar 1 j (listed pairs) = some t →
      objectiveAt 1 pairs t ≤ objectiveAt 1 pairs s := by
  intro pairs
  obtain ⟨hsweep,-,hdescends⟩ := fitMar_descends (List.cons_ne_nil _ _ : pairs ≠ []) one_pos
  have hlisted : listed pairs = [([[1]],[[2]])] := by
    simp [pairs,listed,rows]
  have hreached (k : ℕ) : ∃ a b, fitMar 1 k (listed pairs) = some ([[a]],[[b]]) := by
    induction k with
    | zero =>
      rw [fitMar_cons]
      exact ⟨1,1,rfl⟩
    | succ k ih =>
      obtain ⟨a,b,hk⟩ := ih
      rw [hsweep, hk, hlisted]
      change ∃ a' b', (fitLeft 1 _ 1 [[b]]).bind _ = _
      rw [fitLeft_single]
      change ∃ a' b', (fitRight 1 _ 1 [[_]]).bind _ = _
      rw [fitRight_single]
      exact ⟨_,_,rfl⟩
  refine ⟨fun k => ?_,hdescends⟩
  obtain ⟨a,b,hk⟩ := hreached k
  rw [hk]
  rfl

end ConfluxFL.Dense
