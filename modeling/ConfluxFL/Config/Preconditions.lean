import ConfluxFL.Lib.F32

/-! What a robust method's citation requires of the batch it aggregates. The same arithmetic
serves startup validation, against the quorum, and the round loop, against the batch. -/
namespace ConfluxFL

/-- The smallest batch a citation covers, the number of submissions the method excludes
there, and the rule in the citation's words. -/
structure BatchRequirement where
  required : ℕ
  excluded : ℕ
  citation : String
  deriving DecidableEq, Repr

def BatchRequirement.satisfiedBy (req : BatchRequirement) (n : ℕ) : Bool := req.required ≤ n

/-- How many submissions an implementation excludes at batch size `n`. -/
def excludedAt (byzantineFraction : F32) (n : ℕ) : ℕ :=
  min (byzantineFraction*F32.ofNat n).floorToNat (n-1)

/-- How many updates a method's citation wants once `excluded` of them are left out. -/
def citedMinimum (aggregator : String) (excluded : ℕ) : Option (ℕ × String) :=
  match aggregator with
  | "krum" => some (2*excluded+3,"Krum requires n ≥ 2f + 3")
  | "multi_krum" => some (2*excluded+3,"Krum requires n ≥ 2f + 3")
  | "bulyan" => some (4*excluded+3,"Bulyan requires n ≥ 4f + 3")
  | "trimmed_mean" => some (2*excluded+1,"the trimmed mean must keep ≥ 1 value")
  | _ => none

def batchRequirement (aggregator : String) (byzantineFraction : F32) (n : ℕ) :
    Option BatchRequirement :=
  if n = 0 ∨ !(F32.zero.le byzantineFraction && byzantineFraction.le F32.one) then none
  else
    let excluded := excludedAt byzantineFraction n
    (citedMinimum aggregator excluded).map fun r => ⟨r.1,excluded,r.2⟩

/-- A batch is within the citation: the method states no minimum for it, or it reaches it. -/
def meetsRequirement (aggregator : String) (byzantineFraction : F32) (n : ℕ) : Bool :=
  (batchRequirement aggregator byzantineFraction n).all fun req => req.satisfiedBy n

theorem excludedAt_lt {byzantineFraction : F32} {n : ℕ} (h : n ≠ 0) :
    excludedAt byzantineFraction n < n := by
  have hle : excludedAt byzantineFraction n ≤ n-1 := Nat.min_le_right _ _
  omega

example : batchRequirement "krum" ⟨0x3e99999a⟩ 4 = some ⟨5,1,"Krum requires n ≥ 2f + 3"⟩ := by
  decide

end ConfluxFL
