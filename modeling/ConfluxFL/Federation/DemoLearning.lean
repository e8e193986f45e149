import ConfluxFL.Client
import ConfluxFL.Core.Euclid
import ConfluxFL.Federation.Demo
import ConfluxFL.Lib.GradientDescent

/-! The linear demo model at work: what its clients are given, how they train, and what becomes of
the global model when FedAvg averages them. In exact arithmetic a federation of them learns one
model, whatever it starts from, exactly where its data tell all models apart. -/
namespace ConfluxFL

section Program
variable {ν : Type} [Floating ν]

/-- The next value, in any arithmetic. -/
def Lcg.draw (rng : Lcg) : ν × Lcg :=
  let state := rng.state*6364136223846793005+1442695040888963407
  (Floating.ofNat (state >>> 33).toNat/Floating.ofNat (2^30)-1,⟨state⟩)

theorem Lcg.draw_f32 (rng : Lcg) : (rng.draw : F32 × Lcg) = rng.next := rfl

namespace Demo

def samples : ℕ := 120
def localSteps : ℕ := 60

/-- Three weights and a bias. -/
structure Fit (ν : Type) where
  w₀ : ν
  w₁ : ν
  w₂ : ν
  b : ν

def Fit.predict (p : Fit ν) (x : ν × ν × ν) : ν := p.w₀*x.1+p.w₁*x.2.1+p.w₂*x.2.2+p.b

def setFeature (x : ν × ν × ν) (value : ν) : Fin 3 → ν × ν × ν
  | 0 => (value,x.2.1,x.2.2)
  | 1 => (x.1,value,x.2.2)
  | 2 => (x.1,x.2.1,value)

def drawShard (frozen : Fin 3) : ℕ → Lcg → List (ν × ν × ν)
  | 0, _ => []
  | n+1, rng =>
    let (x₀,rng) : ν × Lcg := rng.draw
    let (x₁,rng) : ν × Lcg := rng.draw
    let (x₂,rng) : ν × Lcg := rng.draw
    let (e,rng) : ν × Lcg := rng.draw
    setFeature (x₀*2.0,x₁*2.0,x₂*2.0) (1.0+e*0.02) frozen::drawShard frozen n rng

/-- One client's features, with `frozen` held nearly constant. -/
def features (frozen : Fin 3) (seed : ℕ) : List (ν × ν × ν) :=
  drawShard frozen samples (Lcg.new (UInt64.ofNat seed))

/-- The model the regressions are to recover. -/
def trueFit : Fit ν := ⟨1.5,Floating.ofF32 ⟨0xc0000000⟩,0.5,3.0⟩

def drawTargets : List (ν × ν × ν) → Lcg → List ν
  | [], _ => []
  | x::xs, rng =>
    let (e,rng) : ν × Lcg := rng.draw
    (trueFit.predict x+e*0.1)::drawTargets xs rng

theorem length_drawTargets (xs : List (ν × ν × ν)) (rng : Lcg) :
    (drawTargets xs rng).length = xs.length := by
  induction xs generalizing rng with
  | nil => rfl
  | cons x xs ih => exact congrArg (· + 1) (ih _)

/-- A client of the linear demo: its features, with a target for each. -/
structure LinReg (ν : Type) where
  xs : List (ν × ν × ν)
  ys : List ν
  length_ys : ys.length = xs.length

namespace LinReg

def forClient (index : ℕ) : LinReg ν where
  xs := features (Fin.ofNat 3 index) (1000+index)
  ys := drawTargets (features (Fin.ofNat 3 index) (1000+index))
    (Lcg.new (UInt64.ofNat (7000+index)))
  length_ys := length_drawTargets _ _

variable (c : LinReg ν)

def gradient (p : Fit ν) : Fit ν :=
  (c.xs.zip c.ys).foldl (fun g s =>
    let error := p.predict s.1-s.2
    ⟨g.w₀+2.0*error*s.1.1,g.w₁+2.0*error*s.1.2.1,g.w₂+2.0*error*s.1.2.2,g.b+2.0*error⟩) ⟨0,0,0,0⟩

def gradientStep (p : Fit ν) : Fit ν :=
  let g := c.gradient p
  let n := Floating.ofNat c.xs.length
  ⟨p.w₀-0.05*g.w₀/n,p.w₁-0.05*g.w₁/n,p.w₂-0.05*g.w₂/n,p.b-0.05*g.b/n⟩

/-- The steps of one round. A model with fewer than four parameters is indexed out of range, and the
process panics; what a longer one has beyond them is left as it is. -/
def trained : List ν → Option (List ν)
  | p₀::p₁::p₂::p₃::rest =>
    let p := c.gradientStep^[localSteps] ⟨p₀,p₁,p₂,p₃⟩
    some (p.w₀::p.w₁::p.w₂::p.b::rest)
  | _ => none

/-- What the client submits. -/
def train (c : LinReg F32) (weights : List F32) : Option TrainResult :=
  (c.trained weights).map fun weights =>
    ⟨weights,c.xs.length,some localSteps,none,none⟩

/-- As much of the submission as its average reads beside the weights. -/
def submission : ClientDelta where
  clientId := ""
  round := 0
  weights := []
  numSamples := c.xs.length
  localSteps := some localSteps
  controlVariate := none
  localLoss := none

end LinReg

/-- A round of all clients under FedAvg. -/
def round (clients : List (LinReg ν)) (global : List ν) : Option (List ν) := do
  let rows ← clients.mapM fun c => c.trained global
  (averageBySamples (clients.map LinReg.submission) rows).toOption

def rounds (clients : List (LinReg ν)) : ℕ → List ν → Option (List ν)
  | 0, global => some global
  | k+1, global => (round clients global).bind (rounds clients k)

end Demo
end Program

namespace Lcg

def advance (rng : Lcg) : Lcg := ⟨rng.state*6364136223846793005+1442695040888963407⟩

/-- The bits of the next value. -/
def raw (rng : Lcg) : ℕ := (rng.advance.state >>> 33).toNat

noncomputable def unit (rng : Lcg) : ℝ := Floating.ofNat rng.raw/Floating.ofNat (2^30)-1

theorem unit_eq (rng : Lcg) : rng.unit = rng.raw/2^30-1 := by
  rw [unit, Floating.ofNat_real, Floating.ofNat_real, Nat.cast_pow, Nat.cast_ofNat]

theorem draw_real (rng : Lcg) : (rng.draw : ℝ × Lcg) = (rng.unit,rng.advance) := rfl

theorem abs_unit_le (rng : Lcg) : |rng.unit| ≤ 1 := by
  have hraw : rng.raw < 2^31 := by
    rw [raw, UInt64.toNat_shiftRight, Nat.shiftRight_eq_div_pow]
    exact Nat.div_lt_of_lt_mul (rng.advance.state.toNat_lt.trans_eq (by decide))
  have hcast : (rng.raw : ℝ) ≤ 2^31 := by exact_mod_cast hraw.le
  have hnonneg : (0 : ℝ) ≤ rng.raw := Nat.cast_nonneg _
  rw [unit_eq, abs_le]
  constructor
  · linarith [div_nonneg hnonneg (pow_nonneg (zero_le_two (α := ℝ)) 30)]
  · rw [sub_le_iff_le_add, div_le_iff₀ (by positivity)]
    linarith

/-- The generator after a row of features. -/
def afterRow (rng : Lcg) : Lcg := rng.advance.advance.advance.advance

/-- The bits that a row is made of. -/
def rowBits (rng : Lcg) : List ℕ :=
  [rng.raw,rng.advance.raw,rng.advance.advance.raw,rng.advance.advance.advance.raw]

end Lcg

namespace Demo
section Exact
open GradientDescent

/-- What a model multiplies with a sample's features, and its bias with one. -/
noncomputable def point (x : ℝ × ℝ × ℝ) : EuclideanSpace ℝ (Fin 4) := euclid 4 [x.1,x.2.1,x.2.2,1]

noncomputable def Fit.point (p : Fit ℝ) : EuclideanSpace ℝ (Fin 4) :=
  euclid 4 [p.w₀,p.w₁,p.w₂,p.b]

theorem two_eq : (2.0 : ℝ) = 2 := by norm_num

theorem learningRate_eq : (0.05 : ℝ) = 1/20 := by norm_num

theorem inner_point (x : ℝ × ℝ × ℝ) (p : Fit ℝ) : inner ℝ (point x) p.point = p.predict x := by
  simp only [point, Fit.point, PiLp.inner_apply, Fin.sum_univ_four, euclid_apply]
  simp [Fit.predict]

theorem norm_sq_point (x : ℝ × ℝ × ℝ) : ‖point x‖^2 = x.1^2+x.2.1^2+x.2.2^2+1 := by
  rw [point, EuclideanSpace.norm_sq_eq, Fin.sum_univ_four]
  simp [sq_abs]

/-- Every vector is a model. -/
theorem exists_point (v : EuclideanSpace ℝ (Fin 4)) : ∃ p : Fit ℝ, p.point = v := by
  refine ⟨⟨v 0,v 1,v 2,v 3⟩,?_⟩
  ext i
  fin_cases i <;> rfl

theorem point_eq_zero_iff {p : Fit ℝ} : p.point = 0 ↔ p = ⟨0,0,0,0⟩ := by
  constructor
  · intro h
    have hentry (i : Fin 4) : p.point i = 0 := by rw [h]; rfl
    obtain ⟨w₀,w₁,w₂,b⟩ := p
    have h₀ : w₀ = 0 := hentry 0
    have h₁ : w₁ = 0 := hentry 1
    have h₂ : w₂ = 0 := hentry 2
    have h₃ : b = 0 := hentry 3
    rw [h₀, h₁, h₂, h₃]
  · rintro rfl
    ext i
    fin_cases i <;> rfl

namespace LinReg
variable (c : LinReg ℝ)

/-- The client's samples in the library's terms. -/
noncomputable def examples : List (EuclideanSpace ℝ (Fin 4) × ℝ) :=
  (c.xs.zip c.ys).map fun s => (Demo.point s.1,s.2)

/-- The rate of the mean squared error, on the errors themselves. -/
noncomputable def rate : ℝ := 0.05*2.0/c.xs.length

theorem rate_eq : c.rate = 1/(10*c.xs.length) := by
  rw [rate, learningRate_eq, two_eq]
  ring

theorem examples_fst : c.examples.map Prod.fst = c.xs.map Demo.point := by
  rw [examples, List.map_map]
  change (c.xs.zip c.ys).map (Demo.point ∘ Prod.fst) = _
  rw [← List.map_map, List.map_fst_zip c.length_ys.ge]

theorem point_gradient (p : Fit ℝ) : (c.gradient p).point =
    (2 : ℝ) • (c.examples.map fun e => (inner ℝ e.1 p.point-e.2) • e.1).sum := by
  have hfold (l : List ((ℝ × ℝ × ℝ) × ℝ)) (g : Fit ℝ) :
      (l.foldl (fun g s =>
        let error := p.predict s.1-s.2
        ⟨g.w₀+2.0*error*s.1.1,g.w₁+2.0*error*s.1.2.1,g.w₂+2.0*error*s.1.2.2,g.b+2.0*error⟩) g).point =
      g.point+(2 : ℝ) • (l.map fun s => (p.predict s.1-s.2) • Demo.point s.1).sum := by
    induction l generalizing g with
    | nil => simp
    | cons s l ih =>
      rw [List.foldl_cons, ih, List.map_cons, List.sum_cons, smul_add, ← add_assoc]
      congr 1
      ext i
      fin_cases i <;> simp [Fit.point, Demo.point, two_eq] <;> ring
  have hzero : (⟨0,0,0,0⟩ : Fit ℝ).point = 0 := point_eq_zero_iff.mpr rfl
  rw [gradient]
  refine (hfold _ _).trans ?_
  rw [hzero, zero_add, examples, List.map_map]
  simp only [Function.comp_def, inner_point]

theorem point_gradientStep (p : Fit ℝ) :
    (c.gradientStep p).point = examplesStep c.rate c.examples p.point := by
  have hsum : c.rate • (c.examples.map fun e => (inner ℝ e.1 p.point-e.2) • e.1).sum =
      (1/20/c.xs.length : ℝ) • (c.gradient p).point := by
    rw [point_gradient, smul_smul, rate_eq]
    congr 1
    ring
  rw [examplesStep, hsum]
  ext i
  fin_cases i <;> simp [Fit.point, gradientStep, learningRate_eq] <;> ring

theorem point_iterate (k : ℕ) (p : Fit ℝ) :
    (c.gradientStep^[k] p).point = (examplesStep c.rate c.examples)^[k] p.point :=
  (Function.Semiconj.iterate_right (c.point_gradientStep) k).eq p

end LinReg
section Rounds
variable {clients : List (LinReg ℝ)}

noncomputable def Fit.list (p : Fit ℝ) : List ℝ := [p.w₀,p.w₁,p.w₂,p.b]

theorem exists_list {weights : List ℝ} (h : weights.length = 4) :
    ∃ p : Fit ℝ, p.list = weights := by
  match weights,h with
  | [w₀,w₁,w₂,b],_ => exact ⟨⟨w₀,w₁,w₂,b⟩,rfl⟩

/-- What part of all samples a client has. -/
noncomputable def share (clients : List (LinReg ℝ)) (c : LinReg ℝ) : ℝ :=
  c.xs.length/totalSamples (clients.map LinReg.submission)

/-- A round, as a map of the space of models. -/
noncomputable def averagedStep (clients : List (LinReg ℝ)) (w : EuclideanSpace ℝ (Fin 4)) :
    EuclideanSpace ℝ (Fin 4) :=
  (clients.map fun c => share clients c • (examplesStep c.rate c.examples)^[localSteps] w).sum

theorem euclid_combination (n : ℕ) (ps : List (ℝ × List ℝ)) :
    euclid n (Coordinates.combination n ps) = (ps.map fun p => p.1 • euclid n p.2).sum := by
  ext i
  have hsum : (ps.map fun p => p.1 • euclid n p.2).sum i =
      (ps.map fun p => p.1*p.2.getD i 0).sum := by
    induction ps with
    | nil => rfl
    | cons p ps ih =>
      rw [List.map_cons, List.sum_cons, List.map_cons, List.sum_cons, ← ih]
      rfl
  rw [hsum, euclid_apply, Coordinates.combination, Coordinates.getD_map_range i.2]

theorem sum_share (h : totalSamples (clients.map LinReg.submission) ≠ 0) :
    (clients.map (share clients)).sum = 1 := by
  have hsum := sum_sampleShare h
  rwa [List.map_map] at hsum

/-- A round takes a model to one, as the map of the space does. -/
theorem round_list (h : totalSamples (clients.map LinReg.submission) ≠ 0) (p : Fit ℝ) :
    ∃ q : Fit ℝ, Demo.round clients p.list = some q.list ∧
      q.point = averagedStep clients p.point := by
  let row (c : LinReg ℝ) := (c.gradientStep^[localSteps] p).list
  have hrows : (clients.mapM fun c => c.trained p.list) = some (clients.map row) :=
    List.mapM_pure (m := Option)
  have hne : clients ≠ [] := by
    rintro rfl
    exact h rfl
  obtain ⟨first,rest,rfl⟩ := List.exists_cons_of_ne_nil hne
  let ps := (first::rest).map fun c => (share (first::rest) c,row c)
  have haverage : averageBySamples ((first::rest).map LinReg.submission) ((first::rest).map row) =
      .ok (Coordinates.combination 4 ps) := by
    have hraw : (((first::rest).map LinReg.submission).map
        fun u => (Floating.ofNat u.numSamples : ℝ)) = (first::rest).map fun c => (c.xs.length : ℝ) := by
      rw [List.map_map]
      rfl
    have htotal : ((first::rest).map fun c => (c.xs.length : ℝ)).sum =
        totalSamples ((first::rest).map LinReg.submission) := by
      rw [← sum_numSamples, List.map_map]
      rfl
    unfold averageBySamples
    dsimp only
    rw [hraw, Floating.sum_real, htotal]
    rw [if_neg (by simpa [Floating.beq] using h), List.zip_map', List.foldl_map]
    refine congrArg Except.ok ?_
    rw [← Coordinates.foldl_combination (f := fun acc p => acc.zipWith (fun e x => e+p.1*x) p.2)
      (by simp [ps, row, Fit.list]) fun _ _ _ => rfl, List.foldl_map]
    unfold addScaled
    simp only [mul_comm]
    rfl
  have hlen : (Coordinates.combination 4 ps).length = 4 := Coordinates.length_combination
  obtain ⟨q,hq⟩ := exists_list hlen
  refine ⟨q,?_,?_⟩
  · rw [Demo.round, hrows, hq]
    change (averageBySamples _ _).toOption = _
    rw [haverage]
    rfl
  · have hpoint : q.point = euclid 4 (Coordinates.combination 4 ps) := by
      rw [← hq]
      rfl
    rw [hpoint, euclid_combination, List.map_map, averagedStep]
    refine congrArg List.sum (List.map_congr_left fun c _ => ?_)
    rw [← c.point_iterate]
    rfl

theorem rounds_list (h : totalSamples (clients.map LinReg.submission) ≠ 0) (k : ℕ) (p : Fit ℝ) :
    ∃ q : Fit ℝ, rounds clients k p.list = some q.list ∧
      q.point = (averagedStep clients)^[k] p.point := by
  induction k generalizing p with
  | zero => exact ⟨p,rfl,rfl⟩
  | succ k ih =>
    obtain ⟨q,hround,hq⟩ := round_list h p
    obtain ⟨r,hrounds,hr⟩ := ih q
    refine ⟨r,?_,?_⟩
    · rw [rounds, hround]
      exact hrounds
    · rw [hr, hq, Function.iterate_succ_apply]

end Rounds
section Learning
variable {clients : List (LinReg ℝ)}

/-- Data that the demo's rate suits: some samples, and no feature beyond two and a half. -/
structure Trainable (c : LinReg ℝ) : Prop where
  ne_nil : c.xs ≠ []
  bounded : ∀ x ∈ c.xs, |x.1| ≤ 5/2 ∧ |x.2.1| ≤ 5/2 ∧ |x.2.2| ≤ 5/2

/-- No model but zero predicts zero on all that the clients have: their data tell models apart. -/
def Determined (clients : List (LinReg ℝ)) : Prop :=
  ∀ p : Fit ℝ, (∀ c ∈ clients, ∀ x ∈ c.xs, p.predict x = 0) → p = ⟨0,0,0,0⟩

/-- Whatever the first model is, the rounds approach one and the same model, each by one factor. -/
def Learns (clients : List (LinReg ℝ)) : Prop :=
  ∃ (fit : List ℝ) (q : ℝ), fit.length = 4 ∧ 0 ≤ q ∧ q < 1 ∧
    ∀ start : List ℝ, start.length = 4 → ∀ k, ∃ model, Demo.rounds clients k start = some model ∧
      ‖euclid 4 model-euclid 4 fit‖ ≤ q^k*‖euclid 4 start-euclid 4 fit‖

theorem length_pos_of_trainable {c : LinReg ℝ} (h : Trainable c) : (0 : ℝ) < c.xs.length :=
  Nat.cast_pos.mpr (List.length_pos_iff.mpr h.ne_nil)

theorem totalSamples_ne_zero (hne : clients ≠ []) (h : ∀ c ∈ clients, Trainable c) :
    totalSamples (clients.map LinReg.submission) ≠ 0 := by
  obtain ⟨c,rest,rfl⟩ := List.exists_cons_of_ne_nil hne
  have hpos := List.length_pos_iff.mpr (h c List.mem_cons_self).ne_nil
  simp only [totalSamples, List.map_cons, List.sum_cons, LinReg.submission]
  omega

theorem share_pos (hne : clients ≠ []) (h : ∀ c ∈ clients, Trainable c) :
    ∀ c ∈ clients, 0 < share clients c := fun c hc =>
  div_pos (length_pos_of_trainable (h c hc))
    (Nat.cast_pos.mpr (Nat.pos_of_ne_zero (totalSamples_ne_zero hne h)))

/-- The steps of a round forget what the client's samples say something about. -/
theorem damps_round {c : LinReg ℝ} (h : Trainable c) :
    Damps (slope c.rate (c.xs.map point)^localSteps) (Unseen (c.xs.map point)) := by
  have hpos := length_pos_of_trainable h
  have hbound : ∀ v ∈ c.xs.map point, ‖v‖^2 ≤ 79/4 := by
    intro v hv
    obtain ⟨x,hx,rfl⟩ := List.mem_map.mp hv
    obtain ⟨h₀,h₁,h₂⟩ := h.bounded x hx
    rw [norm_sq_point]
    have hsquare {a : ℝ} (ha : |a| ≤ 5/2) : a^2 ≤ 25/4 :=
      (sq_le_sq' (neg_le_of_abs_le ha) (le_of_abs_le ha)).trans_eq (by norm_num)
    linarith [hsquare h₀, hsquare h₁, hsquare h₂]
  have hrate : 0 < c.rate := by
    rw [c.rate_eq]
    exact div_pos one_pos (mul_pos (by norm_num) hpos)
  have hsmall : c.rate*((c.xs.map point).length*(79/4)) < 2 := by
    rw [List.length_map, c.rate_eq]
    field_simp
    norm_num
  exact (damps_slope hrate hbound hsmall).iterate (by decide)

theorem hasSlope_averagedStep (clients : List (LinReg ℝ)) : HasSlope (averagedStep clients)
    (clients.map fun c => share clients c • slope c.rate (c.xs.map point)^localSteps).sum := by
  have hclient : ∀ c ∈ clients, HasSlope (examplesStep c.rate c.examples)^[localSteps]
      (slope c.rate (c.xs.map point)^localSteps) := by
    intro c _
    have hstep := (hasSlope_examplesStep c.rate c.examples).iterate localSteps
    rwa [c.examples_fst] at hstep
  exact HasSlope.mean hclient

theorem mem_unseen_iff {c : LinReg ℝ} {p : Fit ℝ} :
    p.point ∈ Unseen (c.xs.map point) ↔ ∀ x ∈ c.xs, p.predict x = 0 := by
  simp only [Unseen, Set.mem_ofPred_eq, List.forall_mem_map, inner_point]

theorem learns_of_determined (hne : clients ≠ []) (h : ∀ c ∈ clients, Trainable c)
    (hdetermined : Determined clients) : Learns clients := by
  have htotal := totalSamples_ne_zero hne h
  have hdamps := Damps.mean (fun c hc => damps_round (h c hc)) (share_pos hne h) (sum_share htotal)
  have hblind : {v | ∀ c ∈ clients, v ∈ Unseen (c.xs.map point)} = {0} := by
    ext v
    obtain ⟨p,rfl⟩ := exists_point v
    rw [Set.mem_ofPred_eq, Set.mem_singleton_iff, point_eq_zero_iff]
    simp only [mem_unseen_iff]
    refine ⟨hdetermined p,?_⟩
    rintro rfl c _ x _
    simp [Fit.predict]
  rw [hblind] at hdamps
  obtain ⟨w,q,hq,hlt,-,happroach⟩ := (hasSlope_averagedStep clients).exists_fixed hdamps
  obtain ⟨p,rfl⟩ := exists_point w
  refine ⟨p.list,q,rfl,hq,hlt,fun start hstart k => ?_⟩
  obtain ⟨p₀,rfl⟩ := exists_list hstart
  obtain ⟨r,hrounds,hr⟩ := rounds_list htotal k p₀
  refine ⟨r.list,hrounds,?_⟩
  have hk := happroach p₀.point k
  rw [← hr] at hk
  exact hk

/-- What no client's data say anything about stays as it was. -/
theorem inner_averagedStep (hsum : (clients.map (share clients)).sum = 1) {p : Fit ℝ}
    (hp : ∀ c ∈ clients, ∀ x ∈ c.xs, p.predict x = 0) (w : EuclideanSpace ℝ (Fin 4)) :
    inner ℝ p.point (averagedStep clients w) = inner ℝ p.point w := by
  have hkept {c : LinReg ℝ} (hc : c ∈ clients) (k : ℕ) :
      inner ℝ p.point ((examplesStep c.rate c.examples)^[k] w) = inner ℝ p.point w := by
    have hunseen : p.point ∈ Unseen (c.examples.map Prod.fst) := by
      rw [c.examples_fst]
      exact mem_unseen_iff.mpr (hp c hc)
    induction k with
    | zero => rfl
    | succ k ih => rw [Function.iterate_succ_apply', inner_examplesStep hunseen, ih]
  have hmean (l : List (LinReg ℝ)) (hl : l ⊆ clients) :
      inner ℝ p.point (l.map fun c => share clients c •
        (examplesStep c.rate c.examples)^[localSteps] w).sum =
          (l.map (share clients)).sum*inner ℝ p.point w := by
    induction l with
    | nil => simp
    | cons c l ih =>
      rw [List.map_cons, List.sum_cons, inner_add_right, real_inner_smul_right,
        hkept (hl List.mem_cons_self), ih fun c' hc' => hl (List.mem_cons_of_mem c hc'),
        List.map_cons, List.sum_cons, add_mul]
  rw [averagedStep, hmean clients (List.Subset.refl _), hsum, one_mul]

theorem determined_of_learns (hne : clients ≠ []) (h : ∀ c ∈ clients, Trainable c)
    (hlearns : Learns clients) : Determined clients := by
  intro p hp
  obtain ⟨fit,q,-,hq,hlt,happroach⟩ := hlearns
  have htotal := totalSamples_ne_zero hne h
  -- along the direction the model is where it started, and it approaches the fit
  have hstart (p₀ : Fit ℝ) : inner ℝ p.point p₀.point = inner ℝ p.point (euclid 4 fit) := by
    have hbound (k : ℕ) : |inner ℝ p.point p₀.point-inner ℝ p.point (euclid 4 fit)| ≤
        ‖p.point‖*(q^k*‖p₀.point-euclid 4 fit‖) := by
      obtain ⟨model,hmodel,hclose⟩ := happroach p₀.list rfl k
      obtain ⟨r,hr,hpoint⟩ := rounds_list htotal k p₀
      obtain rfl := Option.some.inj (hr.symm.trans hmodel)
      have hkept : inner ℝ p.point r.point = inner ℝ p.point p₀.point := by
        rw [hpoint]
        clear hpoint hr hclose hmodel
        induction k with
        | zero => rfl
        | succ k ih => rw [Function.iterate_succ_apply', inner_averagedStep (sum_share htotal) hp, ih]
      rw [← hkept, ← inner_sub_right]
      exact (abs_real_inner_le_norm _ _).trans
        (mul_le_mul_of_nonneg_left hclose (norm_nonneg _))
    have hlimit : Filter.Tendsto (fun k : ℕ => ‖p.point‖*(q^k*‖p₀.point-euclid 4 fit‖))
        Filter.atTop (nhds 0) := by
      have hpow := tendsto_pow_atTop_nhds_zero_of_lt_one hq hlt
      simpa using (hpow.mul_const ‖p₀.point-euclid 4 fit‖).const_mul ‖p.point‖
    have hzero := ge_of_tendsto' hlimit hbound
    exact sub_eq_zero.mp (abs_eq_zero.mp (le_antisymm hzero (abs_nonneg _)))
  have hnorm : inner ℝ p.point p.point = inner ℝ p.point (⟨0,0,0,0⟩ : Fit ℝ).point :=
    (hstart p).trans (hstart _).symm
  have horigin : (⟨0,0,0,0⟩ : Fit ℝ).point = 0 := point_eq_zero_iff.mpr rfl
  rw [horigin, inner_zero_right] at hnorm
  exact point_eq_zero_iff.mp (inner_self_eq_zero.mp hnorm)

def feature (x : ℝ × ℝ × ℝ) : Fin 3 → ℝ
  | 0 => x.1
  | 1 => x.2.1
  | 2 => x.2.2

/-- A coefficient that nobody varies is a coefficient that nobody learns. -/
theorem not_determined_of_constant {i : Fin 3} {a : ℝ}
    (h : ∀ c ∈ clients, ∀ x ∈ c.xs, feature x i = a) : ¬Determined clients := by
  intro hdetermined
  -- what the coefficient of a constant feature gives, the bias can take away
  have hdirection (p : Fit ℝ) (hp : ∀ x, p.predict x = feature x i-a) : p = ⟨0,0,0,0⟩ :=
    hdetermined p fun c hc x hx => by rw [hp, h c hc x hx, sub_self]
  fin_cases i
  · exact one_ne_zero (congrArg Fit.w₀ (hdirection ⟨1,0,0,-a⟩ fun x => by
      simp [Fit.predict, feature, sub_eq_add_neg]))
  · exact one_ne_zero (congrArg Fit.w₁ (hdirection ⟨0,1,0,-a⟩ fun x => by
      simp [Fit.predict, feature, sub_eq_add_neg]))
  · exact one_ne_zero (congrArg Fit.w₂ (hdirection ⟨0,0,1,-a⟩ fun x => by
      simp [Fit.predict, feature, sub_eq_add_neg]))

end Learning
section Data
variable {rng : Lcg} {frozen : Fin 3}

noncomputable def featureRow (frozen : Fin 3) (rng : Lcg) : ℝ × ℝ × ℝ :=
  setFeature (rng.unit*2.0,rng.advance.unit*2.0,rng.advance.advance.unit*2.0)
    (1.0+rng.advance.advance.advance.unit*0.02) frozen

theorem featureRow_eq (frozen : Fin 3) (rng : Lcg) : featureRow frozen rng =
    setFeature (rng.unit*2,rng.advance.unit*2,rng.advance.advance.unit*2)
      (1+rng.advance.advance.advance.unit/50) frozen := by
  have hfiftieth (a : ℝ) : (1.0 : ℝ)+a*0.02 = 1+a/50 := by norm_num; ring
  rw [featureRow, two_eq, hfiftieth]

theorem drawShard_succ (n : ℕ) : (drawShard frozen (n+1) rng : List (ℝ × ℝ × ℝ)) =
    featureRow frozen rng::drawShard frozen n rng.afterRow := by
  rw [drawShard]
  simp only [Lcg.draw_real]
  rfl

theorem length_drawShard (n : ℕ) :
    (drawShard frozen n rng : List (ℝ × ℝ × ℝ)).length = n := by
  induction n generalizing rng with
  | zero => rfl
  | succ n ih => rw [drawShard_succ, List.length_cons, ih]

theorem featureRow_bounded (frozen : Fin 3) (rng : Lcg) : |(featureRow frozen rng).1| ≤ 5/2 ∧
    |(featureRow frozen rng).2.1| ≤ 5/2 ∧ |(featureRow frozen rng).2.2| ≤ 5/2 := by
  have hdoubled (r : Lcg) : |r.unit*2| ≤ 5/2 := by
    rw [abs_mul, abs_two]
    linarith [r.abs_unit_le]
  have hnearly (r : Lcg) : |1+r.unit/50| ≤ 5/2 := by
    have h := abs_le.mp r.abs_unit_le
    rw [abs_le]
    constructor <;> linarith [h.1, h.2]
  rw [featureRow_eq]
  fin_cases frozen
  · exact ⟨hnearly _,hdoubled _,hdoubled _⟩
  · exact ⟨hdoubled _,hnearly _,hdoubled _⟩
  · exact ⟨hdoubled _,hdoubled _,hnearly _⟩

theorem drawShard_bounded {n : ℕ} : ∀ x ∈ (drawShard frozen n rng : List (ℝ × ℝ × ℝ)),
    |x.1| ≤ 5/2 ∧ |x.2.1| ≤ 5/2 ∧ |x.2.2| ≤ 5/2 := by
  induction n generalizing rng with
  | zero => exact fun x hx => (List.not_mem_nil hx).elim
  | succ n ih =>
    rw [drawShard_succ]
    exact List.forall_mem_cons.mpr ⟨featureRow_bounded frozen rng,ih⟩

/-- The demo's own clients are within the range. -/
theorem trainable_forClient (index : ℕ) : Trainable (LinReg.forClient index) where
  ne_nil := by
    rw [← List.length_pos_iff]
    exact (length_drawShard samples).symm ▸ (by decide : 0 < samples)
  bounded := drawShard_bounded

theorem mem_drawShard {k n : ℕ} (hk : k < n) :
    featureRow frozen (Lcg.afterRow^[k] rng) ∈ (drawShard frozen n rng : List (ℝ × ℝ × ℝ)) := by
  induction n generalizing k rng with
  | zero => exact absurd hk (Nat.not_lt_zero k)
  | succ n ih =>
    rw [drawShard_succ]
    cases k with
    | zero => exact List.mem_cons_self
    | succ k =>
      rw [Function.iterate_succ_apply]
      exact List.mem_cons_of_mem _ (ih (Nat.lt_of_succ_lt_succ hk))

theorem predict_featureRow {a b c e : ℕ} (p : Fit ℝ) (h : rng.rowBits = [a,b,c,e]) :
    p.predict (featureRow 0 rng) = p.w₀*(1+(e/2^30-1)/50)+p.w₁*((b/2^30-1)*2)+
      p.w₂*((c/2^30-1)*2)+p.b := by
  simp only [Lcg.rowBits, List.cons.injEq, and_true] at h
  obtain ⟨-,rfl,rfl,rfl⟩ := h
  simp only [featureRow_eq, Lcg.unit_eq]
  rfl

/-- Four rows of the first client are enough to tell all models apart. -/
theorem determined_of_mem_forClient {clients : List (LinReg ℝ)}
    (h : LinReg.forClient 0 ∈ clients) : Determined clients := by
  intro p hp
  have hrow {k : ℕ} (hk : k < samples) {a b c e : ℕ}
      (hbits : (Lcg.afterRow^[k] (.new 1000)).rowBits = [a,b,c,e]) :
      p.w₀*(1+(e/2^30-1)/50)+p.w₁*((b/2^30-1)*2)+p.w₂*((c/2^30-1)*2)+p.b = 0 := by
    rw [← predict_featureRow p hbits]
    exact hp _ h _ (mem_drawShard hk)
  have h₀ := hrow (k := 0) (by decide) (show _ = [283235393,1171406762,634680646,439839063] by
    decide +kernel)
  have h₁ := hrow (k := 1) (by decide) (show _ = [960133948,699053307,2134236308,2143132529] by
    decide +kernel)
  have h₂ := hrow (k := 2) (by decide) (show _ = [1507850074,1420598201,666136413,1244119503] by
    decide +kernel)
  have h₃ := hrow (k := 3) (by decide) (show _ = [1131299670,1848956472,991903606,133150432] by
    decide +kernel)
  norm_num at h₀ h₁ h₂ h₃
  obtain ⟨w₀,w₁,w₂,b⟩ := p
  have hw₀ : w₀ = 0 := by linarith only [h₀, h₁, h₂, h₃]
  have hw₁ : w₁ = 0 := by linarith only [h₀, h₁, h₂, h₃]
  have hw₂ : w₂ = 0 := by linarith only [h₀, h₁, h₂, h₃]
  have hb : b = 0 := by linarith only [h₀, h₁, h₂, h₃]
  rw [hw₀, hw₁, hw₂, hb]

/-- In exact arithmetic a federation of linear clients learns one model, whatever it starts from,
exactly where their data taken together tell all models apart. So it does not where all of them hold
a feature constant; and any number of the demo's own clients does. -/
theorem linreg_learns :
    (∀ clients : List (LinReg ℝ), clients ≠ [] → (∀ c ∈ clients, Trainable c) →
      (Learns clients ↔ Determined clients) ∧
      ((∃ i a, ∀ c ∈ clients, ∀ x ∈ c.xs, feature x i = a) → ¬Learns clients)) ∧
    ∀ n, 0 < n → Learns ((List.range n).map LinReg.forClient) := by
  refine ⟨fun clients hne h => ⟨⟨determined_of_learns hne h,learns_of_determined hne h⟩,?_⟩,
    fun n hn => ?_⟩
  · rintro ⟨i,a,hconstant⟩ hlearns
    exact not_determined_of_constant hconstant (determined_of_learns hne h hlearns)
  · have hmem : LinReg.forClient 0 ∈ (List.range n).map (LinReg.forClient (ν := ℝ)) :=
      List.mem_map_of_mem (List.mem_range.mpr hn)
    refine learns_of_determined (List.ne_nil_of_mem hmem) ?_ (determined_of_mem_forClient hmem)
    intro c hc
    obtain ⟨index,-,rfl⟩ := List.mem_map.mp hc
    exact trainable_forClient index

end Data
end Exact
end Demo
end ConfluxFL
