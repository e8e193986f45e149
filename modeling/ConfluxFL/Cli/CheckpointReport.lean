import ConfluxFL.Lib.FixedText
import ConfluxFL.Lib.FloatText
import ConfluxFL.Server.Health
import ConfluxFL.Server.Sampling
import ConfluxFL.StoreHistory

/-! What `cflux checkpoint` reports about a durable store, read beside the server that writes it:
the rounds on record with the gaps between them, and the shape of one checkpoint. Over a run of
any number of server processes the rounds that are written run from one without a gap. -/
namespace Windows
variable {α : Type*}

/-- `windows(2)`. -/
def pairs (l : List α) : List (α × α) := l.zip l.tail

@[simp] theorem pairs_cons_cons (a b : α) (l : List α) :
    pairs (a::b::l) = (a,b)::pairs (b::l) := rfl

theorem map_fst_pairs (l : List α) : (pairs l).map Prod.fst = l.dropLast := by
  induction l with
  | nil => rfl
  | cons a l ih =>
    cases l with
    | nil => rfl
    | cons b l => rw [pairs_cons_cons, List.map_cons, ih]; rfl

/-- The pairs of an ascending list are its members with none between them. -/
theorem mem_pairs_iff [LinearOrder α] {l : List α} (h : l.Pairwise (· < ·)) {a b : α} :
    (a,b) ∈ pairs l ↔ a ∈ l ∧ b ∈ l ∧ a < b ∧ ∀ c ∈ l, a < c → b ≤ c := by
  induction l with
  | nil => simp [pairs]
  | cons x l ih =>
    cases l with
    | nil =>
      refine ⟨fun hp => absurd hp List.not_mem_nil,?_⟩
      rintro ⟨ha,hb,hab,_⟩
      rw [List.mem_singleton.mp ha, List.mem_singleton.mp hb] at hab
      exact absurd hab (lt_irrefl x)
    | cons y l =>
      obtain ⟨hx,hrest⟩ := List.pairwise_cons.mp h
      have hy : x < y := hx y List.mem_cons_self
      have hleast : ∀ c ∈ y::l, y ≤ c := by
        intro c hc
        rcases List.mem_cons.mp hc with rfl | hc
        · exact le_rfl
        · exact ((List.pairwise_cons.mp hrest).1 c hc).le
      rw [pairs_cons_cons, List.mem_cons, ih hrest, Prod.mk.injEq]
      constructor
      · rintro (⟨rfl,rfl⟩ | ⟨ha,hb,hab,hnext⟩)
        · refine ⟨List.mem_cons_self,List.mem_cons_of_mem _ List.mem_cons_self,hy,?_⟩
          intro c hc hac
          exact hleast c ((List.mem_cons.mp hc).resolve_left hac.ne')
        · refine ⟨List.mem_cons_of_mem _ ha,List.mem_cons_of_mem _ hb,hab,fun c hc hac => ?_⟩
          rcases List.mem_cons.mp hc with rfl | hc
          · exact absurd hac (hx a ha).not_gt
          · exact hnext c hc hac
      · rintro ⟨ha,hb,hab,hnext⟩
        rcases List.mem_cons.mp ha with rfl | ha
        · have hb' : b ∈ y::l := (List.mem_cons.mp hb).resolve_left hab.ne'
          have hby := hnext y (List.mem_cons_of_mem _ List.mem_cons_self) hy
          exact .inl ⟨rfl,le_antisymm hby (hleast b hb')⟩
        · refine .inr ⟨ha,?_,hab,fun c hc => hnext c (List.mem_cons_of_mem _ hc)⟩
          refine (List.mem_cons.mp hb).resolve_left fun hbx => ?_
          exact absurd hab (hbx ▸ (hx a ha)).not_gt

end Windows

namespace ConfluxFL

/-- A member of a report's JSON object. -/
inductive ReportField where
  | bool (b : Bool)
  | text (s : String)
  | count (n : ℕ)
  | rounds (rs : List ℕ)
  | single (x : F32)
  | double (x : F64)
  deriving DecidableEq, Repr

/-- A command's answer in both renderings, and the exit code it earns. -/
structure Report where
  text : String
  json : List (String × ReportField)
  exitCode : ℕ
  deriving DecidableEq, Repr

def exitNegative : ℕ := 1

inductive CheckpointError where
  /-- The arithmetic on 64-bit rounds left its range. -/
  | overflow
  | store (e : StoreError)

/-- `a - b` on unsigned numbers. -/
def checkedSub (a b : ℕ) : Except CheckpointError ℕ :=
  if b ≤ a then .ok (a-b) else .error .overflow

def succRound (r : ℕ) : Except CheckpointError ℕ :=
  if r+1 < 2^64 then .ok (r+1) else .error .overflow

namespace CheckpointReport
open Windows

def headTail : ℕ := 8

def roundLine (round : ℕ) : String := s!"  {round}\n"

/-- The rounds, one a line; of a long listing only both ends. -/
def roundLines (rounds : List ℕ) : String :=
  if rounds.length ≤ headTail*2+1 then String.join (rounds.map roundLine)
  else String.join ((rounds.take headTail).map roundLine)++
    s!"  … {rounds.length-headTail*2} more …\n"++
    String.join ((rounds.drop (rounds.length-headTail)).map roundLine)

/-- Whether rounds are missing between two neighbours of the listing. -/
def isGap (w : ℕ × ℕ) : Except CheckpointError Bool := do
  let next ← succRound w.1
  return decide (next < w.2)

def gapWidth (w : ℕ × ℕ) : Except CheckpointError ℕ := do
  let distance ← checkedSub w.2 w.1
  checkedSub distance 1

def gapSection (gaps widest : ℕ) : String :=
  if 0 < gaps then s!"\n{gaps} gap(s) in the sequence, the widest {widest} round(s) wide\n" else ""

def gapText (rounds : List ℕ) : Except CheckpointError String := do
  let gaps := (← (pairs rounds).mapM isGap).count true
  let widest ← if 0 < gaps then do
      let widths ← (pairs rounds).mapM gapWidth
      pure (widths.max?.getD 0)
    else pure 0
  return gapSection gaps widest

def listJson (rounds : List ℕ) : List (String × ReportField) :=
  [("ok",.bool true),("rounds",.rounds rounds),("count",.count rounds.length)]

def heading (rounds : List ℕ) (first last : ℕ) : String :=
  s!"{rounds.length} checkpoint(s), rounds {first} … {last}\n"

def listReport : List ℕ → Except CheckpointError Report
  | [] => .ok ⟨"no checkpoints saved yet\n",listJson [],0⟩
  | first::rest => do
    let rounds := first::rest
    let last := rounds.getLast (List.cons_ne_nil first rest)
    let gaps ← gapText rounds
    return ⟨heading rounds first last++roundLines rounds++gaps,listJson rounds,0⟩

/-- The scan of a model's weights. -/
structure Tally where
  sumSquares : F64
  min : F32
  max : F32
  nonFinite : ℕ

def Tally.start : Tally := ⟨F64.zero,F32.infinity,⟨0xff800000⟩,0⟩

def Tally.add (t : Tally) (w : F32) : Tally :=
  if w.isFinite then
    ⟨t.sumSquares+F64.ofF32 w*F64.ofF32 w,if w.lt t.min then w else t.min,
      if t.max.lt w then w else t.max,t.nonFinite⟩
  else { t with nonFinite := t.nonFinite+1 }

structure Shape where
  parameters : ℕ
  l2Norm : F64
  min : F32
  max : F32
  nonFinite : ℕ
  placeholder : Bool

def Shape.of (weights : List F32) : Shape :=
  let t := weights.foldl Tally.add Tally.start
  { parameters := weights.length
    l2Norm := t.sumSquares.sqrt
    min := if t.min.isFinite then t.min else F32.zero
    max := if t.max.isFinite then t.max else F32.zero
    nonFinite := t.nonFinite
    placeholder := weights.all fun w => w.beq F32.zero }

def sixDecimals (x : F32) : String := (F64.ofF32 x).fixed 6

def showText (round : ℕ) (shape : Shape) : String :=
  s!"round {round}\n  parameters:  {shape.parameters}\n  l2 norm:     {shape.l2Norm.fixed 6}\n"++
  s!"  range:       {sixDecimals shape.min} … {sixDecimals shape.max}\n"++
  (if shape.placeholder then "  placeholder: yes — every weight is zero, which is the seed " ++
    "the server hands out before any client has trained\n" else "")++
  (if 0 < shape.nonFinite then s!"  NOT A NUMBER: {shape.nonFinite} of {shape.parameters} "++
    "weights are NaN or infinite — this checkpoint is not safe to resume from\n" else "")

def showReport (round : ℕ) (weights : List F32) : Report :=
  let shape := Shape.of weights
  ⟨showText round shape,
    [("ok",.bool (shape.nonFinite = 0)),("round",.count round),
      ("parameters",.count shape.parameters),("l2_norm",.double shape.l2Norm),
      ("min",.single shape.min),("max",.single shape.max),
      ("non_finite",.count shape.nonFinite),("placeholder",.bool shape.placeholder)],
    if 0 < shape.nonFinite then exitNegative else 0⟩

def notFound (round : ℕ) : Report :=
  ⟨s!"no checkpoint for round {round}\n",
    [("ok",.bool false),("round",.count round),("found",.bool false)],exitNegative⟩

def inMemory : Report :=
  ⟨"store backend is in-memory: checkpoints live inside the server's own process and no " ++
    "separate process can read them.\nSet CONFLUX_STORE_BACKEND=postgres or =s3 for " ++
    "checkpoints this command can inspect.\n",
    [("ok",.bool false),("backend",.text "memory"),
      ("reason",.text "checkpoints are process-local and unreadable from another process")],
    exitNegative⟩

section Missing
variable {held : Set ℕ} {rounds : List ℕ} {r k : ℕ} {w : ℕ × ℕ}

/-- After `r`, which is on record, `k` rounds are missing up to the next that is. -/
structure Stretch (held : Set ℕ) (r k : ℕ) : Prop where
  before : r ∈ held
  after : r+k+1 ∈ held
  missing : ∀ j, r < j → j < r+k+1 → j ∉ held

/-- A listing holds the rounds on record in their order. -/
structure ListsHeld (held : Set ℕ) (rounds : List ℕ) : Prop where
  ascending : rounds.Pairwise (· < ·)
  mem_iff : ∀ r, r ∈ rounds ↔ r ∈ held
  lt : ∀ r ∈ held, r < 2^64

theorem Stretch.pos_iff (hs : Stretch held r k) : 0 < k ↔ r+1 ∉ held := by
  constructor
  · intro hk
    exact hs.missing (r+1) (by omega) (by omega)
  · intro hr
    rcases Nat.eq_zero_or_pos k with rfl | hk
    · exact absurd hs.after hr
    · exact hk

namespace ListsHeld

theorem mem_pairs_iff (h : ListsHeld held rounds) :
    w ∈ pairs rounds ↔ w.1 < w.2 ∧ Stretch held w.1 (w.2-w.1-1) := by
  obtain ⟨a,b⟩ := w
  simp only [Windows.mem_pairs_iff h.ascending, h.mem_iff]
  constructor
  · rintro ⟨ha,hb,hab,hnext⟩
    have hsum : a+(b-a-1)+1 = b := by omega
    refine ⟨hab,ha,hsum.symm ▸ hb,fun j hj hjb hmem => ?_⟩
    have := hnext j hmem hj
    omega
  · rintro ⟨hab,ha,hb,hnone⟩
    have hsum : a+(b-a-1)+1 = b := by omega
    refine ⟨ha,hsum ▸ hb,hab,fun c hc hac => ?_⟩
    by_contra hlt
    exact hnone c hac (by omega) hc

theorem mem_pairs (h : ListsHeld held rounds) (hs : Stretch held r k) :
    (r,r+k+1) ∈ pairs rounds := by
  refine h.mem_pairs_iff.mpr ⟨by simp only; omega,?_⟩
  have hk : r+k+1-r-1 = k := by omega
  exact hk.symm ▸ hs

/-- The arithmetic on neighbours stays in range. -/
theorem isGap_eq (h : ListsHeld held rounds) (hw : w ∈ pairs rounds) :
    isGap w = .ok (decide (w.1+1 ∉ rounds)) := by
  obtain ⟨hab,hs⟩ := h.mem_pairs_iff.mp hw
  have hsum : w.1+(w.2-w.1-1)+1 = w.2 := by omega
  have hb := h.lt w.2 (hsum ▸ hs.after)
  have hnext : succRound w.1 = .ok (w.1+1) := if_pos (by omega)
  rw [isGap, hnext]
  refine congrArg Except.ok (decide_eq_decide.mpr ?_)
  rw [h.mem_iff, ← hs.pos_iff]
  omega

theorem gapWidth_eq (h : ListsHeld held rounds) (hw : w ∈ pairs rounds) :
    gapWidth w = .ok (w.2-w.1-1) := by
  have hab := (h.mem_pairs_iff.mp hw).1
  have hdistance : checkedSub w.2 w.1 = .ok (w.2-w.1) := if_pos hab.le
  rw [gapWidth, hdistance]
  exact if_pos (by omega)

end ListsHeld

/-- The listed rounds after which at least one is missing. -/
def gapsIn (rounds : List ℕ) : List ℕ := rounds.dropLast.filter fun r => r+1 ∉ rounds

def widestIn (rounds : List ℕ) : ℕ := ((pairs rounds).map fun w => w.2-w.1-1).max?.getD 0

namespace ListsHeld

theorem mem_gapsIn_iff (h : ListsHeld held rounds) :
    r ∈ gapsIn rounds ↔ ∃ k, 0 < k ∧ Stretch held r k := by
  rw [gapsIn, List.mem_filter, decide_eq_true_iff, h.mem_iff, ← map_fst_pairs, List.mem_map]
  constructor
  · rintro ⟨⟨w,hw,rfl⟩,hnext⟩
    have hs := (h.mem_pairs_iff.mp hw).2
    exact ⟨_,hs.pos_iff.mpr hnext,hs⟩
  · rintro ⟨k,hk,hs⟩
    exact ⟨⟨_,h.mem_pairs hs,rfl⟩,hs.pos_iff.mp hk⟩

theorem length_gapsIn (h : ListsHeld held rounds) :
    (gapsIn rounds).length = {r | ∃ k, 0 < k ∧ Stretch held r k}.ncard := by
  have hrounds : rounds.Nodup := h.ascending.imp fun hab => hab.ne
  have hnodup : (gapsIn rounds).Nodup := (hrounds.sublist (List.dropLast_sublist _)).filter _
  have hset : {r | ∃ k, 0 < k ∧ Stretch held r k} = ((gapsIn rounds).toFinset : Set ℕ) := by
    ext r
    rw [List.coe_toFinset]
    exact h.mem_gapsIn_iff.symm
  rw [hset, Set.ncard_coe_finset, List.toFinset_card_of_nodup hnodup]

/-- No gap is counted exactly when the rounds on record run without one. -/
theorem gapsIn_eq_nil_iff (h : ListsHeld held rounds) : gapsIn rounds = [] ↔ held.OrdConnected := by
  rw [List.eq_nil_iff_forall_not_mem]
  simp only [h.mem_gapsIn_iff]
  constructor
  · intro hnone
    refine ⟨fun a ha b hb r hr => ?_⟩
    induction r, hr.1 using Nat.le_induction with
    | base => exact ha
    | succ r har ih =>
      have hrb := Nat.lt_of_succ_le hr.2
      have hmem := ih ⟨har,hrb.le⟩
      -- the first round on record after `r` ends a stretch, which is empty
      have hex : ∃ c, r < c ∧ c ∈ held := ⟨b,hrb,hb⟩
      classical
      obtain ⟨hlt,hc⟩ := Nat.find_spec hex
      have hsum : r+(Nat.find hex-r-1)+1 = Nat.find hex := by omega
      have hs : Stretch held r (Nat.find hex-r-1) := by
        refine ⟨hmem,hsum.symm ▸ hc,fun j hj hjlt hjmem => ?_⟩
        exact Nat.find_min hex (by omega) ⟨hj,hjmem⟩
      by_contra hnext
      exact hnone r ⟨_,hs.pos_iff.mpr hnext,hs⟩
  · rintro hconn r ⟨k,hk,hs⟩
    exact hs.pos_iff.mp hk (hconn.out hs.before hs.after ⟨by omega,by omega⟩)

/-- The width that is reported is that of the longest stretch. -/
theorem isGreatest_widestIn (h : ListsHeld held rounds) (hne : pairs rounds ≠ []) :
    IsGreatest {k | ∃ r, Stretch held r k} (widestIn rounds) := by
  have hmap : ((pairs rounds).map fun w => w.2-w.1-1) ≠ [] := by simpa using hne
  obtain ⟨m,hm⟩ := Option.ne_none_iff_exists'.mp fun hnone => hmap (List.max?_eq_none_iff.mp hnone)
  obtain ⟨hmem,hle⟩ := List.max?_eq_some_iff.mp hm
  have hwidest : widestIn rounds = m := by rw [widestIn, hm]; rfl
  rw [hwidest]
  constructor
  · obtain ⟨w,hw,rfl⟩ := List.mem_map.mp hmem
    exact ⟨w.1,(h.mem_pairs_iff.mp hw).2⟩
  · rintro k ⟨r,hs⟩
    refine hle k (List.mem_map.mpr ⟨_,h.mem_pairs hs,?_⟩)
    simp only
    omega

theorem count_isGap (h : ListsHeld held rounds) : ∃ flags, (pairs rounds).mapM isGap = .ok flags ∧
    flags.count true = (gapsIn rounds).length := by
  refine ⟨_,Fallible.mapM_ok fun w hw => h.isGap_eq hw,?_⟩
  rw [gapsIn, ← map_fst_pairs, List.filter_map, List.length_map, List.count, List.countP_map,
    List.countP_eq_length_filter]
  congr 2
  funext w
  simp

theorem gapText_eq (h : ListsHeld held rounds) :
    gapText rounds = .ok (gapSection (gapsIn rounds).length (widestIn rounds)) := by
  obtain ⟨flags,hflags,hcount⟩ := h.count_isGap
  have hwidths := Fallible.mapM_ok fun w (hw : w ∈ pairs rounds) => h.gapWidth_eq hw
  by_cases hgaps : 0 < (gapsIn rounds).length
  · simp only [gapText, hflags, hwidths, hcount, bind, Except.bind, pure, Except.pure, if_pos hgaps,
      widestIn]
  · simp only [gapText, hflags, hcount, bind, Except.bind, pure, Except.pure, if_neg hgaps,
      gapSection]

end ListsHeld

/-- A report that accounts for the rounds on record: it lists them in order, and says between its
first and its last how often some are missing and how many at most. -/
structure AccountsFor (held : Set ℕ) (report : Report) (rounds : List ℕ) : Prop where
  lists : ListsHeld held rounds
  json : report.json = listJson rounds
  exitCode : report.exitCode = 0
  empty : held = ∅ → report.text = "no checkpoints saved yet\n"
  text : ∀ first last, IsLeast held first → IsGreatest held last → ∃ gaps widest,
    report.text = heading rounds first last++roundLines rounds++gapSection gaps widest ∧
    gaps = {r | ∃ k, 0 < k ∧ Stretch held r k}.ncard ∧ (gaps = 0 ↔ held.OrdConnected) ∧
    (0 < gaps → IsGreatest {k | ∃ r, Stretch held r k} widest)

theorem ListsHeld.accountsFor (h : ListsHeld held rounds) :
    ∃ report, listReport rounds = .ok report ∧ AccountsFor held report rounds := by
  cases rounds with
  | nil =>
    refine ⟨_,rfl,h,rfl,rfl,fun _ => rfl,fun first last hfirst => ?_⟩
    exact absurd ((h.mem_iff first).mpr hfirst.1) List.not_mem_nil
  | cons a rest =>
    have hlast := List.getLast_mem (List.cons_ne_nil a rest)
    refine ⟨_,by simp only [listReport, h.gapText_eq, bind, Except.bind, pure, Except.pure]; rfl,
      h,rfl,rfl,fun hempty => ?_,fun first last hfirst hgreatest => ?_⟩
    · have ha := (h.mem_iff a).mp List.mem_cons_self
      rw [hempty] at ha
      exact ha.elim
    · have hasc := List.pairwise_cons.mp h.ascending
      have ha : a = first := by
        refine le_antisymm ?_ (hfirst.2 ((h.mem_iff a).mp List.mem_cons_self))
        rcases List.mem_cons.mp ((h.mem_iff first).mpr hfirst.1) with he | hmem
        · exact he.ge
        · exact (hasc.1 first hmem).le
      have hl : (a::rest).getLast (List.cons_ne_nil a rest) = last := by
        refine le_antisymm (hgreatest.2 ((h.mem_iff _).mp hlast)) ?_
        have hsplit := h.ascending
        rw [← List.dropLast_append_getLast (List.cons_ne_nil a rest), List.pairwise_append] at hsplit
        have hmem := (h.mem_iff last).mpr hgreatest.1
        rw [← List.dropLast_append_getLast (List.cons_ne_nil a rest), List.mem_append] at hmem
        rcases hmem with hmem | hmem
        · exact (hsplit.2.2 last hmem _ (List.mem_singleton_self _)).le
        · exact (List.mem_singleton.mp hmem).le
      refine ⟨(gapsIn (a::rest)).length,widestIn (a::rest),by rw [← ha, ← hl],h.length_gapsIn,?_,?_⟩
      · rw [List.length_eq_zero_iff]
        exact h.gapsIn_eq_nil_iff
      · intro hpos
        refine h.isGreatest_widestIn fun hnil => ?_
        have hdrop : (a::rest).dropLast = [] := by rw [← map_fst_pairs, hnil]; rfl
        rw [gapsIn, hdrop] at hpos
        exact absurd hpos (lt_irrefl 0)

end Missing
end CheckpointReport

inductive CheckpointCommand where
  | list
  | show (round : ℕ)

namespace CheckpointCommand
open CheckpointReport

def answer (listing : List ℕ) (load : ℕ → Except StoreError (List F32)) :
    CheckpointCommand → Except CheckpointError Report
  | .list => listReport listing
  | .show round =>
    match load round with
    | .ok weights => .ok (showReport round weights)
    | .error .noCheckpoint => .ok (notFound round)
    | .error e => .error (.store e)

/-- `cflux checkpoint` against a configured store. A store in the server's own memory is not
connected to. -/
def run (command : CheckpointCommand) : AnyStore → Except CheckpointError Report
  | .inMemory _ => .ok inMemory
  | .postgres s => command.answer s.listCheckpoints s.loadCheckpoint
  | .s3 s => command.answer s.listCheckpoints s.loadCheckpoint

end CheckpointCommand

namespace CheckpointReport

theorem nonFinite_foldl (weights : List F32) (t : Tally) :
    (weights.foldl Tally.add t).nonFinite = t.nonFinite+weights.countP (!·.isFinite) := by
  induction weights generalizing t with
  | nil => rfl
  | cons w weights ih =>
    rw [List.foldl_cons, ih, List.countP_cons, Tally.add]
    cases w.isFinite
    · simp only [Bool.false_eq_true, if_false, Bool.not_false, if_true]
      omega
    · simp

/-- A checkpoint is reported as safe exactly when all its weights are numbers. -/
theorem exitCode_showReport (round : ℕ) (weights : List F32) :
    (showReport round weights).exitCode = 0 ↔ ∀ w ∈ weights, w.isFinite = true := by
  have hcount : (Shape.of weights).nonFinite = weights.countP (!·.isFinite) :=
    (nonFinite_foldl weights Tally.start).trans (Nat.zero_add _)
  have hzero : (showReport round weights).exitCode = 0 ↔ (Shape.of weights).nonFinite = 0 := by
    simp only [showReport, exitNegative]
    split <;> omega
  rw [hzero, hcount, List.countP_eq_zero]
  simp

end CheckpointReport

namespace History
variable {h : History} {saves : List Save} {r : ℕ}

/-- What is on record after more saves. -/
def extend (h : History) (saves : List Save) : History := Run.after save h saves

theorem extend_concat (s : Save) : h.extend (saves++[s]) = (h.extend saves).save s :=
  Run.after_append save h saves [s]

/-- A round is as its last save left it, and as it was without one. -/
theorem extend_eq (h : History) (saves : List Save) (r : ℕ) :
    h.extend saves r = (of saves r <|> h r) := by
  induction saves using List.reverseRecOn with
  | nil => rfl
  | append_singleton saves s ih =>
    have hof : of (saves++[s]) = (of saves).save s := Run.after_append save _ saves [s]
    rw [extend_concat, hof]
    by_cases hr : r = s.1
    · simp [save, hr]
    · rw [save, save, Function.update_of_ne hr, Function.update_of_ne hr, ih]

theorem extend_ne_none_iff : h.extend saves r ≠ none ↔ h r ≠ none ∨ r ∈ saves.map Prod.fst := by
  rw [extend_eq, ← of_ne_none_iff]
  cases of saves r <;> simp

end History

/-- A durable store that holds a history. -/
def AnyStore.Records (h : History) : AnyStore → Prop
  | .inMemory _ => False
  | .postgres s => s.Holds h
  | .s3 s => s.Holds h

namespace AnyStore.Records
variable {h : History} {store : AnyStore} {r : ℕ}

theorem save (hs : store.Records h) (hr : r < 2^63) (weights : List F32) :
    (store.saveCheckpoint r weights).Records (h.save (r,weights)) := by
  cases store with
  | inMemory s => exact hs.elim
  | postgres s => exact PostgresStore.Holds.save hs hr weights
  | s3 s => exact S3Store.Holds.save hs hr weights

theorem connect (hs : store.Records h) (initialWeights : List F32) :
    (store.connect initialWeights).Records h := by
  cases store with
  | inMemory s => exact hs.elim
  | postgres s => exact hs
  | s3 s => exact hs

theorem lt (hs : store.Records h) (hr : h r ≠ none) : r < 2^63 := by
  cases store with
  | inMemory s => exact hs.elim
  | postgres s => exact Filed.bounded hs r hr
  | s3 s => exact Filed.bounded hs r hr

/-- Nothing can be loaded while nothing is on record. -/
theorem loadLatestWeights (hs : store.Records h) (hnone : ∀ r, h r = none) :
    store.loadLatestWeights = .error .noCheckpoint := by
  cases store with
  | inMemory s => exact hs.elim
  | postgres s =>
    have hrows : s.rows.latest = none := by
      rw [KeyedTable.latest, KeyedTable.latestRow_eq_none, List.eq_nil_iff_forall_not_mem]
      intro row hrow
      exact (PostgresStore.Holds.column hs (List.mem_map_of_mem hrow)).1 (hnone _)
    simp [AnyStore.loadLatestWeights, PostgresStore.loadLatestWeights, hrows]
  | s3 s =>
    have hrounds : s.rounds = [] := by
      rw [List.eq_nil_iff_forall_not_mem]
      intro r hr
      exact (S3Store.Holds.mem_rounds_iff hs).mp hr (hnone r)
    simp [AnyStore.loadLatestWeights, S3Store.loadLatestWeights, hrounds]

/-- The command reads the listing and the rounds of the history. -/
theorem run_eq (hs : store.Records h) : ∃ latest listing load, Serves h latest listing load ∧
    ∀ command : CheckpointCommand, command.run store = command.answer listing load := by
  cases store with
  | inMemory s => exact hs.elim
  | postgres s => exact ⟨_,_,_,PostgresStore.Holds.serves hs,fun _ => rfl⟩
  | s3 s => exact ⟨_,_,_,S3Store.Holds.serves hs,fun _ => rfl⟩

end AnyStore.Records

section Runs
open Fallible RoundM CheckpointReport
variable {κ : Type} {w : World κ} {h₀ : History} {n : ℕ}

def SavedCheckpoint.asSave (entry : SavedCheckpoint) : Save := (entry.round,entry.weights)

/-- Over the rounds that were on record before, the processes have written those from one to `n`,
and none is past the next. -/
structure WrittenTo (h₀ : History) (n : ℕ) (w : World κ) : Prop where
  records : w.server.store.Records (h₀.extend (w.server.history.map SavedCheckpoint.asSave))
  written : ∀ r, r ∈ w.server.history.map SavedCheckpoint.round ↔ 1 ≤ r ∧ r ≤ n
  position : w.running.isSome → 1 ≤ w.server.round ∧ w.server.round ≤ n+1
  seeded : 0 < n → ∃ r, h₀ r ≠ none

theorem WrittenTo.start (hrecords : w.server.store.Records h₀) (hidle : w.running = none)
    (hhistory : w.server.history = []) : WrittenTo h₀ 0 w := by
  refine ⟨by rw [hhistory]; exact hrecords,fun r => ?_,fun hr => ?_,fun h => absurd h (lt_irrefl 0)⟩
  · rw [hhistory, List.map_nil]
    exact iff_of_false List.not_mem_nil (by omega)
  · rw [hidle] at hr
    cases hr

/-- An attempt writes the round it is at or nothing, and only one that wrote moves on. -/
theorem runRound_writes (d : Deployment κ) (env : RoundEnv) (s : Server κ) {t : Server κ}
    (ht : t = stateOf (runRound d env s)) :
    t.store = s.store ∧ t.history = s.history ∧ t.round = s.round ∨
    ∃ weights batch, s.store.loadLatestWeights ≠ .error .noCheckpoint ∧
      t.store = s.store.saveCheckpoint s.round weights ∧
      t.history = s.history++[⟨s.round,weights,batch⟩] ∧
      s.round ≤ t.round ∧ t.round ≤ s.round+1 := by
  subst ht
  have hround := runRound_round d env s
  rcases runRound_durable d env s with ⟨hstore,hhistory⟩ | ⟨p,s₁,weights,hready,hstore,hhistory⟩
  · refine .inl ⟨hstore,hhistory,?_⟩
    cases h : runRound d env s with
    | error stop t => exact runRound_error_round h
    | ok summary t =>
      obtain ⟨p,weights,_,hgrown,_⟩ := runRound_completed h
      rw [h, stateOf, hgrown] at hhistory
      exact absurd hhistory (by simp)
  · refine .inr ⟨weights,p.batch,?_,hstore,hhistory,by omega,by omega⟩
    rw [(prepareBatch_ok hready).loaded]
    exact fun h => by cases h

theorem WrittenTo.connect (hw : WrittenTo h₀ n w) (d : Deployment κ) (initialWeights : List F32) :
    WrittenTo h₀ n ⟨assemble d initialWeights w.server,some d⟩ :=
  ⟨hw.records.connect initialWeights,hw.written,fun _ => ⟨le_rfl,by simp only [assemble]; omega⟩,
    hw.seeded⟩

/-- What can be loaded was on record before, or goes back to what was. -/
theorem WrittenTo.seeded_of_load (hw : WrittenTo h₀ n w)
    (hload : w.server.store.loadLatestWeights ≠ .error .noCheckpoint) : ∃ r, h₀ r ≠ none := by
  by_contra hnone
  refine hload (hw.records.loadLatestWeights fun r => ?_)
  by_contra hr
  rcases History.extend_ne_none_iff.mp hr with hold | hnew
  · exact hnone ⟨r,hold⟩
  · rw [List.map_map] at hnew
    obtain ⟨hr1,hrn⟩ := (hw.written r).mp hnew
    exact hnone (hw.seeded (by omega))

/-- The step lemma: an attempt writes the next round or one that is written already. -/
theorem WrittenTo.round (hw : WrittenTo h₀ n w) {d : Deployment κ} {env : RoundEnv}
    (hr : w.running = some d) (hlt : n+1 < 2^63) :
    ∃ m, n ≤ m ∧ m ≤ n+1 ∧ WrittenTo h₀ m (w.step (.round env)) := by
  obtain ⟨hpos,hle⟩ := hw.position (by rw [hr]; rfl)
  have hserver : (w.step (.round env)).server = stateOf (runRound d env w.server) :=
    World.step_round hr
  rcases runRound_writes d env w.server hserver with ⟨hstore,hhistory,hround⟩ |
    ⟨weights,batch,hload,hstore,hhistory,hback,hnext⟩
  · exact ⟨n,le_rfl,by omega,by rw [hstore, hhistory]; exact hw.records,
      by rw [hhistory]; exact hw.written,fun _ => by omega,hw.seeded⟩
  · have hfits : w.server.round < 2^63 := by omega
    refine ⟨max n w.server.round,by omega,by omega,?_,fun r => ?_,fun _ => by omega,
      fun _ => hw.seeded_of_load hload⟩
    · rw [hstore, hhistory, List.map_append, List.map_singleton, History.extend_concat]
      exact hw.records.save hfits weights
    · rw [hhistory, List.map_append, List.mem_append, hw.written, List.map_singleton,
        List.mem_singleton]
      simp only
      omega

/-- The run lemma. -/
theorem WrittenTo.after (hw : WrittenTo h₀ n w) (events : List (Event κ))
    (hlt : n+events.length < 2^63) :
    ∃ m, n ≤ m ∧ WrittenTo h₀ m (Run.after World.step w events) := by
  induction events generalizing n w with
  | nil => exact ⟨n,le_rfl,hw⟩
  | cons e events ih =>
    rw [List.length_cons] at hlt
    have hstep : ∃ m, n ≤ m ∧ m ≤ n+1 ∧ WrittenTo h₀ m (w.step e) := by
      cases e with
      | connect d initialWeights => exact ⟨n,le_rfl,by omega,hw.connect d initialWeights⟩
      | round env =>
        cases hr : w.running with
        | none => exact ⟨n,le_rfl,by omega,by rw [World.step_idle hr]; exact hw⟩
        | some d => exact hw.round hr (by omega)
    obtain ⟨m,hnm,hm,hw'⟩ := hstep
    obtain ⟨m',hmm',hw''⟩ := ih hw' (by omega)
    exact ⟨m',hnm.trans hmm',hw''⟩

/-- What the command reports after a run of processes that found `h₀` on record. They wrote the
rounds from one to `n`, none if there was nothing to start from. -/
structure Reported (h₀ : History) (s : Server κ) (n : ℕ) : Prop where
  written : ∀ r, r ∈ s.history.map SavedCheckpoint.round ↔ 1 ≤ r ∧ r ≤ n
  unseeded : (∀ r, h₀ r = none) → n = 0
  list : ∃ report rounds, CheckpointCommand.list.run s.store = .ok report ∧
    AccountsFor {r | h₀ r ≠ none ∨ 1 ≤ r ∧ r ≤ n} report rounds
  unbroken : (∃ r ≤ 1, h₀ r ≠ none) → {r | h₀ r ≠ none}.OrdConnected →
    {r | h₀ r ≠ none ∨ 1 ≤ r ∧ r ≤ n}.OrdConnected
  shown : ∀ r < 2^64, (CheckpointCommand.show r).run s.store =
    .ok ((h₀.extend (s.history.map SavedCheckpoint.asSave) r).elim (notFound r) (showReport r))
  safe : ∀ r < 2^64, ∀ report, (CheckpointCommand.show r).run s.store = .ok report →
    (report.exitCode = 0 ↔ ∃ weights, h₀.extend (s.history.map SavedCheckpoint.asSave) r =
      some weights ∧ ∀ w ∈ weights, w.isFinite = true)

theorem ordConnected_written (hlow : ∃ r ≤ 1, h₀ r ≠ none)
    (hconn : {r | h₀ r ≠ none}.OrdConnected) :
    {r | h₀ r ≠ none ∨ 1 ≤ r ∧ r ≤ n}.OrdConnected := by
  obtain ⟨low,hle,hlow⟩ := hlow
  refine ⟨fun a ha b hb r hr => ?_⟩
  have har := hr.1
  have hrb := hr.2
  rcases ha with ha | ha
  · rcases hb with hb | hb
    · exact .inl (hconn.out ha hb hr)
    · by_cases hpos : 1 ≤ r
      · exact .inr ⟨hpos,by omega⟩
      · have hra : r = a := by omega
        exact .inl (hra ▸ ha)
  · rcases hb with hb | hb
    · exact .inl (hconn.out hlow hb ⟨by omega,hrb⟩)
    · exact .inr ⟨by omega,by omega⟩

theorem WrittenTo.reported (hw : WrittenTo h₀ n w) : Reported h₀ w.server n := by
  obtain ⟨latest,listing,load,hserves,hrun⟩ := hw.records.run_eq
  have hmem : ∀ r, r ∈ listing ↔ r ∈ {r | h₀ r ≠ none ∨ 1 ≤ r ∧ r ≤ n} := by
    intro r
    rw [hserves.mem_iff, History.extend_ne_none_iff, List.map_map]
    exact or_congr_right (hw.written r)
  have hlists : ListsHeld {r | h₀ r ≠ none ∨ 1 ≤ r ∧ r ≤ n} listing := by
    refine ⟨hserves.ascending,hmem,fun r hr => ?_⟩
    have hlt := hw.records.lt ((hserves.mem_iff r).mp ((hmem r).mpr hr))
    omega
  obtain ⟨report,hreport,haccounts⟩ := hlists.accountsFor
  have hshow : ∀ r < 2^64, (CheckpointCommand.show r).run w.server.store =
      .ok ((h₀.extend (w.server.history.map SavedCheckpoint.asSave) r).elim (notFound r)
        (showReport r)) := by
    intro r hr
    rw [hrun, CheckpointCommand.answer, hserves.load_eq r hr]
    cases h₀.extend (w.server.history.map SavedCheckpoint.asSave) r <;> rfl
  refine ⟨hw.written,fun hnone => ?_,⟨report,listing,(hrun _).trans hreport,haccounts⟩,
    ordConnected_written,hshow,fun r hr report h => ?_⟩
  · by_contra hpos
    obtain ⟨r,hr⟩ := hw.seeded (Nat.pos_of_ne_zero hpos)
    exact hr (hnone r)
  · rw [hshow r hr] at h
    obtain rfl := Except.ok.inj h
    cases h₀.extend (w.server.history.map SavedCheckpoint.asSave) r with
    | none => exact iff_of_false Nat.one_ne_zero (by simp)
    | some weights =>
      rw [Option.elim_some, exitCode_showReport]
      simp

/-- Over any number of process lifetimes, as long as their events are fewer than the rounds a signed
column can hold, the command lists, beside what was on record before, the rounds from one to the
last that was written. It names a gap exactly where rounds are missing, and never when what was on
record had none and reached down to round zero or one. -/
theorem checkpoints_run (w : World κ) (events : List (Event κ)) (hidle : w.running = none)
    (hhistory : w.server.history = []) (hrecords : w.server.store.Records h₀)
    (hlt : events.length < 2^63) :
    ∃ n, Reported h₀ (Run.after World.step w events).server n := by
  obtain ⟨n,-,hw⟩ := (WrittenTo.start hrecords hidle hhistory).after events (by omega)
  exact ⟨n,hw.reported⟩

/-- Two rounds over a table with a first model. -/
theorem checkpoints_run_seeded :
    ∃ n, Reported (History.of [(0,[F32.zero])])
      (Run.after World.step seededWorld [start,soloRound 1 F32.one,soloRound 2 F32.one]).server n :=
  checkpoints_run seededWorld _ rfl rfl
    (@PostgresStore.holds_saveAll "conflux_checkpoints" [(0,[F32.zero])] (by simp)) (by decide)

end Runs
end ConfluxFL
