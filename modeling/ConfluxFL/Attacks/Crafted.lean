import ConfluxFL.Attacks.Dilution

/-! Attackers that look at the honest batch and submit what pulls a plain average where they want
it: all of them the same update, boosted towards a target or away from the honest mean. -/
namespace ConfluxFL.Attacks

section Craft
variable {ν : Type} [Floating ν]

/-- The mean of every coordinate, whatever the sample counts. -/
def coordinateMeans (decoded : List (List ν)) : List ν :=
  (List.range (decoded.headD []).length).map fun k =>
    Floating.sum (decoded.map fun v => v.getD k 0)/Floating.ofNat decoded.length

/-- The honest batch's means; the source stops on an empty batch. -/
def honestMeans (honest : List (Submission ν)) : List ν :=
  coordinateMeans (honest.map Submission.weights)

/-- The same update from every attacker, at the honest batch's round and sample count. -/
def colluders (name : String) (honest : List (Submission ν)) (malicious : List ν)
    (numAttackers : ℕ) : List (Submission ν) :=
  (List.range numAttackers).map fun i =>
    ⟨name++toString i,(roundAndSamples honest).1,(roundAndSamples honest).2,malicious⟩

structure SignFlippingAttack (ν : Type) where
  scale : ν

def SignFlippingAttack.malicious (attack : SignFlippingAttack ν) (honest : List (Submission ν)) :
    List ν :=
  (honestMeans honest).map fun m => (Floating.negZero-attack.scale)*m

def SignFlippingAttack.craft (attack : SignFlippingAttack ν) (honest : List (Submission ν))
    (numAttackers : ℕ) : List (Submission ν) :=
  if numAttackers = 0 then []
  else colluders "signflip-attacker-" honest (attack.malicious honest) numAttackers

structure ScalingAttack (ν : Type) where
  scaleFactor : ν
  maliciousDirection : List ν

def ScalingAttack.boosted (attack : ScalingAttack ν) (honest : List (Submission ν)) : List ν :=
  (honestMeans honest).zipWith (fun mean target => mean+attack.scaleFactor*(target-mean))
    attack.maliciousDirection

/-- The source asserts that the target has the honest updates' dimension. -/
def ScalingAttack.craft (attack : ScalingAttack ν) (honest : List (Submission ν))
    (numAttackers : ℕ) : Option (List (Submission ν)) :=
  if numAttackers = 0 then some []
  else if (honestMeans honest).length = attack.maliciousDirection.length then
    some (colluders "scaling-attacker-" honest (attack.boosted honest) numAttackers)
  else none

end Craft

section Pull
variable {honest : List (Submission ℝ)} {w : List ℝ} {m k : ℕ}

/-- The samples an attacker claims. -/
noncomputable def claimed (honest : List (Submission ℝ)) : ℝ := (roundAndSamples honest).2

theorem honest_ne_of_ok (h : fedAvg honest = .ok w) : honest ≠ [] := by
  rintro rfl
  cases h

theorem exists_head (h : fedAvg honest = .ok w) :
    ∃ u ∈ honest, (roundAndSamples honest).2 = u.numSamples := by
  obtain ⟨u,us,rfl⟩ := List.exists_cons_of_ne_nil (honest_ne_of_ok h)
  exact ⟨u,List.mem_cons_self,rfl⟩

theorem length_honestMeans : (honestMeans honest).length = dimension honest := by
  rw [honestMeans, coordinateMeans, List.length_map, List.length_range]
  cases honest <;> rfl

/-- FedAvg on the honest batch with some colluders: between the honest average and what they
submit, at the shares their samples have. -/
theorem fedAvg_colluders (h : fedAvg honest = .ok w) (name : String) {malicious : List ℝ}
    (hlen : malicious.length = w.length) (m : ℕ) :
    ∃ w', fedAvg (honest++colluders name honest malicious m) = .ok w' ∧ w'.length = w.length ∧
      ∀ k < w.length, (samples honest+m*claimed honest)*w'.getD k 0 =
        samples honest*w.getD k 0+m*claimed honest*malicious.getD k 0 := by
  obtain ⟨hdim,hcount,hpos⟩ := of_fedAvg_ok h
  have hne := honest_ne_of_ok h
  obtain ⟨w₀,hw₀,hlen₀,hcenter⟩ := fedAvg_real hne hdim hcount hpos
  cases hw₀.symm.trans h
  have hcolluders : ∀ c ∈ colluders name honest malicious m,
      c.numSamples = (roundAndSamples honest).2 ∧ c.weights = malicious := by
    intro c hc
    obtain ⟨i,-,rfl⟩ := List.mem_map.mp hc
    exact ⟨rfl,rfl⟩
  obtain ⟨hsamples,hblend⟩ := center_append (n := dimension honest) hcolluders hpos
  have hnum : (colluders name honest malicious m).length = m := by
    rw [colluders, List.length_map, List.length_range]
  rw [hnum] at hsamples hblend
  have hclaimed : ((roundAndSamples honest).2 : ℝ) = claimed honest := rfl
  rw [hclaimed] at hsamples hblend
  have hclaimed0 : 0 ≤ claimed honest := Nat.cast_nonneg _
  have htotal : 0 < samples honest+m*claimed honest := by positivity
  have hall : ∀ u ∈ honest++colluders name honest malicious m,
      u.weights.length = dimension honest ∧ u.numSamples ≤ maxPlausibleSampleCount := by
    intro u hu
    cases List.mem_append.mp hu with
    | inl hu => exact ⟨hdim u hu,hcount u hu⟩
    | inr hc =>
      obtain ⟨hsame,hweights⟩ := hcolluders u hc
      obtain ⟨v,hv,hhead⟩ := exists_head h
      rw [hsame, hweights, hhead, hlen]
      exact ⟨hlen₀,hcount v hv⟩
  obtain ⟨w',hw',hlen',hcenter'⟩ := fedAvg_real (List.append_ne_nil_of_left_ne_nil hne _)
    (fun u hu => (hall u hu).1) (fun u hu => (hall u hu).2) (hsamples.symm ▸ htotal)
  refine ⟨w',hw',hlen'.trans hlen₀.symm,fun k hk => ?_⟩
  have hpoint := congrArg (fun x : EuclideanSpace ℝ (Fin (dimension honest)) => x ⟨k,hlen₀ ▸ hk⟩) hblend
  rw [← hcenter', ← hcenter] at hpoint
  simp only [PiLp.sub_apply, PiLp.smul_apply, euclid_apply, smul_eq_mul] at hpoint
  have hmul : (samples honest+m*claimed honest)*(w'.getD k 0-malicious.getD k 0) =
      samples honest*(w.getD k 0-malicious.getD k 0) := by
    rw [hpoint, ← mul_assoc, mul_div_cancel₀ _ htotal.ne']
  linear_combination hmul

theorem weightedSum_apply (n : ℕ) (us : List (Submission ℝ)) (i : Fin n) : weightedSum n us i =
    (us.map fun u => (u.numSamples : ℝ)*u.weights.getD i 0).sum := by
  unfold weightedSum
  induction us with
  | nil => rfl
  | cons u us ih => rw [List.map_cons, List.sum_cons, List.map_cons, List.sum_cons, ← ih]; rfl

/-- Where all claim as much, the honest average is the mean the attackers look at. -/
theorem getD_honestMeans (h : fedAvg honest = .ok w) {c : ℕ}
    (hc : ∀ u ∈ honest, u.numSamples = c) (hk : k < w.length) :
    (honestMeans honest).getD k 0 = w.getD k 0 := by
  obtain ⟨hdim,hcount,hpos⟩ := of_fedAvg_ok h
  obtain ⟨w₀,hw₀,hlen₀,hcenter⟩ := fedAvg_real (honest_ne_of_ok h) hdim hcount hpos
  cases hw₀.symm.trans h
  have hhead : ((honest.map Submission.weights).headD []).length = dimension honest := by
    cases honest <;> rfl
  have hmean : (honestMeans honest).getD k 0 =
      (honest.map fun u => u.weights.getD k 0).sum/honest.length := by
    rw [honestMeans, coordinateMeans, hhead, Coordinates.getD_map_range (hlen₀ ▸ hk),
      Floating.sum_real, List.map_map, List.length_map]
    rfl
  have hsamples : samples honest = honest.length*c := by
    rw [samples, List.map_congr_left fun u hu => by rw [hc u hu]]
    simp
  have hsum : weightedSum (dimension honest) honest ⟨k,hlen₀ ▸ hk⟩ =
      c*(honest.map fun u => u.weights.getD k 0).sum := by
    rw [weightedSum_apply, ← List.sum_map_mul_left]
    exact congrArg List.sum (List.map_congr_left fun u hu => by rw [hc u hu])
  have hpoint := congrArg (fun x : EuclideanSpace ℝ (Fin (dimension honest)) => x ⟨k,hlen₀ ▸ hk⟩)
    hcenter
  rw [center_eq] at hpoint
  simp only [PiLp.smul_apply, euclid_apply, smul_eq_mul, hsum, hsamples] at hpoint
  rw [hsamples] at hpos
  have hc0 : (c : ℝ) ≠ 0 := fun h0 => by simp [h0] at hpos
  rw [hmean, hpoint]
  field_simp

theorem ScalingAttack.getD_boosted (attack : ScalingAttack ℝ)
    (hlen : (honestMeans honest).length = attack.maliciousDirection.length)
    (hk : k < (honestMeans honest).length) : (attack.boosted honest).getD k 0 =
      (honestMeans honest).getD k 0+attack.scaleFactor*
        (attack.maliciousDirection.getD k 0-(honestMeans honest).getD k 0) :=
  Coordinates.getD_zipWith 0 0 0 hk (hlen ▸ hk)

/-- Boosting against FedAvg: how far the aggregate ends up from the target is what is left of the
honest average's distance and, times what the boost falls short of one, of the honest mean's. -/
theorem ScalingAttack.fedAvg_craft (attack : ScalingAttack ℝ) (h : fedAvg honest = .ok w)
    {crafted : List (Submission ℝ)} (hcraft : attack.craft honest m = some crafted) :
    ∃ w', fedAvg (honest++crafted) = .ok w' ∧ w'.length = w.length ∧ ∀ k < w.length,
      (samples honest+m*claimed honest)*(w'.getD k 0-attack.maliciousDirection.getD k 0) =
        samples honest*(w.getD k 0-attack.maliciousDirection.getD k 0)+
          m*claimed honest*(1-attack.scaleFactor)*
            ((honestMeans honest).getD k 0-attack.maliciousDirection.getD k 0) := by
  unfold ScalingAttack.craft at hcraft
  by_cases hm : m = 0
  · rw [if_pos hm] at hcraft
    cases hcraft
    subst hm
    refine ⟨w,by rw [List.append_nil, h],rfl,fun k _ => ?_⟩
    push_cast
    ring
  · rw [if_neg hm] at hcraft
    split at hcraft
    · rename_i hlen
      cases hcraft
      obtain ⟨hdim,hcount,hpos⟩ := of_fedAvg_ok h
      obtain ⟨w₀,hw₀,hlen₀,-⟩ := fedAvg_real (honest_ne_of_ok h) hdim hcount hpos
      cases hw₀.symm.trans h
      have hmeans : (honestMeans honest).length = w.length := length_honestMeans.trans hlen₀.symm
      have hboosted : (attack.boosted honest).length = w.length := by
        rw [ScalingAttack.boosted, List.length_zipWith, ← hlen, Nat.min_self, hmeans]
      obtain ⟨w',hw',hlen',hget⟩ := fedAvg_colluders h "scaling-attacker-" hboosted m
      refine ⟨w',hw',hlen',fun k hk => ?_⟩
      have hpull := hget k hk
      rw [attack.getD_boosted hlen (hmeans.symm ▸ hk)] at hpull
      linear_combination hpull
    · cases hcraft

theorem ScalingAttack.craft_length (attack : ScalingAttack ℝ) (h : fedAvg honest = .ok w)
    {crafted : List (Submission ℝ)} (hcraft : attack.craft honest m = some crafted) (hm : m ≠ 0) :
    attack.maliciousDirection.length = w.length := by
  obtain ⟨hdim,hcount,hpos⟩ := of_fedAvg_ok h
  obtain ⟨w₀,hw₀,hlen₀,-⟩ := fedAvg_real (honest_ne_of_ok h) hdim hcount hpos
  cases hw₀.symm.trans h
  unfold ScalingAttack.craft at hcraft
  rw [if_neg hm] at hcraft
  split at hcraft
  · rename_i hlen
    rw [← hlen, length_honestMeans, hlen₀]
  · cases hcraft

/-- The whole model is replaced by the target at exactly one boost: what all clients together are
to the attackers among them. Where sample counts differ the law says what is left. -/
theorem ScalingAttack.replaces (attack : ScalingAttack ℝ) (h : fedAvg honest = .ok w)
    {crafted : List (Submission ℝ)} (hcraft : attack.craft honest m = some crafted) :
    ∃ w', fedAvg (honest++crafted) = .ok w' ∧
      (∀ k < w.length,
        (samples honest+m*claimed honest)*(w'.getD k 0-attack.maliciousDirection.getD k 0) =
          samples honest*(w.getD k 0-attack.maliciousDirection.getD k 0)+
            m*claimed honest*(1-attack.scaleFactor)*
              ((honestMeans honest).getD k 0-attack.maliciousDirection.getD k 0)) ∧
      ∀ c, (∀ u ∈ honest, u.numSamples = c) → m ≠ 0 →
        (w' = attack.maliciousDirection ↔ w = attack.maliciousDirection ∨
          m*attack.scaleFactor = honest.length+m) := by
  obtain ⟨w',hw',hlen',hlaw⟩ := attack.fedAvg_craft h hcraft
  refine ⟨w',hw',hlaw,fun c hc hm => ?_⟩
  have htarget := attack.craft_length h hcraft hm
  obtain ⟨v,hv,hhead⟩ := exists_head h
  have hclaimed : claimed honest = c := by
    rw [claimed, hhead, hc v hv]
  have hsamples : samples honest = honest.length*c := by
    rw [samples, List.map_congr_left fun u hu => by rw [hc u hu]]
    simp
  obtain ⟨-,-,hpos⟩ := of_fedAvg_ok h
  have hc0 : (c : ℝ) ≠ 0 := fun h0 => by simp [hsamples, h0] at hpos
  have hlaw' : ∀ k < w.length,
      (honest.length+m)*(w'.getD k 0-attack.maliciousDirection.getD k 0) =
        (honest.length+m-m*attack.scaleFactor)*
          (w.getD k 0-attack.maliciousDirection.getD k 0) := by
    intro k hk
    have hk' := hlaw k hk
    rw [getD_honestMeans h hc hk, hclaimed, hsamples] at hk'
    refine mul_left_cancel₀ hc0 ?_
    linear_combination hk'
  have hall (hne : (honest.length+m : ℝ) ≠ 0) : w' = attack.maliciousDirection ↔ ∀ k < w.length,
      (honest.length+m-m*attack.scaleFactor)*
        (w.getD k 0-attack.maliciousDirection.getD k 0) = 0 := by
    constructor
    · intro heq k hk
      rw [← hlaw' k hk, heq, sub_self, mul_zero]
    · intro hzero
      refine Coordinates.ext_getD 0 (hlen'.trans htarget.symm) fun k hk => ?_
      rw [hlen'] at hk
      have hprod := (hlaw' k hk).trans (hzero k hk)
      exact sub_eq_zero.mp ((mul_eq_zero.mp hprod).resolve_left hne)
  have hcount : (0 : ℝ) < honest.length+m := by
    have := List.length_pos_iff.mpr (honest_ne_of_ok h)
    positivity
  rw [hall hcount.ne']
  constructor
  · intro hzero
    by_cases hscale : m*attack.scaleFactor = honest.length+m
    · exact .inr hscale
    · left
      refine Coordinates.ext_getD 0 htarget.symm fun k hk => ?_
      exact sub_eq_zero.mp ((mul_eq_zero.mp (hzero k hk)).resolve_left
        (sub_ne_zero.mpr (Ne.symm hscale)))
  · rintro (heq | hscale) k hk
    · rw [heq, sub_self, mul_zero]
    · rw [hscale, sub_self, zero_mul]

/-- One attacker among three clients, at a boost of three. -/
def boost : ScalingAttack ℝ := ⟨1+1+1,[1]⟩

theorem replaces_three : ∃ w', fedAvg ([⟨"a",1,2,[0]⟩,⟨"b",1,2,[4]⟩]++
      colluders "scaling-attacker-" [⟨"a",1,2,[0]⟩,⟨"b",1,2,[4]⟩]
        (boost.boosted [⟨"a",1,2,[0]⟩,⟨"b",1,2,[4]⟩]) 1) = .ok w' ∧ w' = [1] := by
  have hok : ∃ w, fedAvg [(⟨"a",1,2,[0]⟩ : Submission ℝ),⟨"b",1,2,[4]⟩] = .ok w := by
    have hpos : 0 < samples [(⟨"a",1,2,[0]⟩ : Submission ℝ),⟨"b",1,2,[4]⟩] := by
      norm_num [samples]
    obtain ⟨w,hw,-⟩ := fedAvg_real (n := 1) (List.cons_ne_nil _ _) (by simp)
      (by simp [maxPlausibleSampleCount]) hpos
    exact ⟨w,hw⟩
  obtain ⟨w,hw⟩ := hok
  obtain ⟨w',hw',-,hiff⟩ := boost.replaces (m := 1) hw rfl
  exact ⟨w',hw',(hiff 2 (by simp) one_ne_zero).mpr (.inr (by norm_num [boost]))⟩

/-- Flipping against FedAvg: what the honest mean is scaled by comes off the average. -/
theorem SignFlippingAttack.fedAvg_craft (attack : SignFlippingAttack ℝ)
    (h : fedAvg honest = .ok w) (m : ℕ) :
    ∃ w', fedAvg (honest++attack.craft honest m) = .ok w' ∧ w'.length = w.length ∧
      ∀ k < w.length, (samples honest+m*claimed honest)*w'.getD k 0 =
        samples honest*w.getD k 0-m*claimed honest*attack.scale*(honestMeans honest).getD k 0 := by
  unfold SignFlippingAttack.craft
  by_cases hm : m = 0
  · rw [if_pos hm]
    subst hm
    refine ⟨w,by rw [List.append_nil, h],rfl,fun k _ => ?_⟩
    push_cast
    ring
  · rw [if_neg hm]
    obtain ⟨hdim,hcount,hpos⟩ := of_fedAvg_ok h
    obtain ⟨w₀,hw₀,hlen₀,-⟩ := fedAvg_real (honest_ne_of_ok h) hdim hcount hpos
    cases hw₀.symm.trans h
    have hmalicious : (attack.malicious honest).length = w.length := by
      rw [SignFlippingAttack.malicious, List.length_map, length_honestMeans, hlen₀]
    obtain ⟨w',hw',hlen',hget⟩ := fedAvg_colluders h "signflip-attacker-" hmalicious m
    refine ⟨w',hw',hlen',fun k hk => ?_⟩
    have hflipped : (attack.malicious honest).getD k 0 = -attack.scale*(honestMeans honest).getD k 0 := by
      rw [SignFlippingAttack.malicious, List.getD_eq_getElem?_getD, List.getD_eq_getElem?_getD,
        List.getElem?_map]
      have hneg : (Floating.negZero : ℝ)-attack.scale = -attack.scale := zero_sub _
      rw [hneg]
      cases (honestMeans honest)[k]? with
      | none => exact (mul_zero _).symm
      | some x => rfl
    have hpull := hget k hk
    rw [hflipped] at hpull
    linear_combination hpull

end Pull
end ConfluxFL.Attacks
