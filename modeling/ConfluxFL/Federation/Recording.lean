import ConfluxFL.Lib.FixedText
import ConfluxFL.Lib.KeyedTable
import ConfluxFL.Lib.LastWrite
import ConfluxFL.Lib.StableSort

/-! The curve of a baseline: the evaluator prints a line for every round it scores, and the runner
scans the lines for numbers and keeps the last of every round. -/
namespace ConfluxFL

/-- The accuracies of the clients on their own data. -/
structure ClientScores where
  min : F64
  std : F64
  all : List F64

/-- One round as the evaluator scored it. -/
structure RoundReport where
  round : ℕ
  accuracy : F64
  loss : F64
  clients : Option ClientScores

namespace RoundReport

/-- What a line goes on with when the evaluator was given the shards. -/
def clientFields : Option ClientScores → String
  | none => ""
  | some c => " client_acc_min="++c.min.fixed 4++" client_acc_std="++c.std.fixed 4++
      " client_accs="++",".intercalate (c.all.map (F64.fixed 4))

def line (r : RoundReport) : String :=
  "round="++toString r.round++" held_out_accuracy="++r.accuracy.fixed 4++
    " held_out_loss="++r.loss.fixed 4++clientFields r.clients

end RoundReport

/-- What the runner keeps of a round. -/
structure RoundMetric where
  accuracy : F64
  loss : F64
  clientAccMin : Option F64
  clientAccStd : Option F64

namespace Baseline

/-- The rounds of one federation, with their metrics. -/
structure Outcome where
  rounds : List (ℕ × RoundMetric)

/-- The number a baseline is judged on. -/
def Outcome.finalAccuracy (o : Outcome) : F64 :=
  (o.rounds.getLast?.map fun r => r.2.accuracy).getD .nan

/-- What follows the first occurrence of a name. -/
def afterFirst (name : List Char) : List Char → Option (List Char)
  | [] => name.isPrefixOf? []
  | c::cs =>
    match name.isPrefixOf? (c::cs) with
    | some rest => some rest
    | none => afterFirst name cs

def isNumeric (c : Char) : Bool := c.isDigit || c = '.'

/-- One `name=value` number out of a line. -/
def field (line name : String) : Option F64 :=
  (afterFirst name.toList line.toList).bind fun rest =>
    F64.parse (String.ofList (rest.takeWhile isNumeric))

/-- A round line carries all three numbers, and replaces what its round had. -/
def onLine (rounds : KeyedTable ℕ RoundMetric) (line : String) : KeyedTable ℕ RoundMetric :=
  match field line "round=",field line "held_out_accuracy=",field line "held_out_loss=" with
  | some round,some accuracy,some loss => rounds.upsert round.toU32
      ⟨accuracy,loss,field line "client_acc_min=",field line "client_acc_std="⟩
  | _,_,_ => rounds

/-- What `run` makes of the lines of a federation that ended well; `tails` is what its logs end
with. -/
def outcome (tails : String) (lines : List String) : Except String Outcome :=
  let rounds := lines.foldl onLine .empty
  if rounds.rows.isEmpty then .error ("the evaluator never reported held_out_accuracy"++tails)
  else .ok ⟨StableSort.sortBy Prod.fst rounds.rows⟩

theorem afterFirst_append (name rest : List Char) :
    afterFirst name (name++rest) = some rest := by
  have hprefix := Decimal.isPrefixOf?_append name rest
  cases hlist : name++rest with
  | nil =>
    rw [hlist] at hprefix
    exact hprefix
  | cons c cs =>
    rw [hlist] at hprefix
    rw [afterFirst, hprefix]

/-- A name does not begin where its first character does not stand. -/
theorem afterFirst_skip {c : Char} (name : List Char) {pre : List Char} (h : c ∉ pre)
    (rest : List Char) : afterFirst (c::name) (pre++rest) = afterFirst (c::name) rest := by
  induction pre with
  | nil => rfl
  | cons a pre ih =>
    have ha : c ≠ a := fun he => h (he ▸ List.mem_cons_self)
    have hprefix : (c::name).isPrefixOf? (a::(pre++rest)) = none := by
      simp [List.isPrefixOf?, ha]
    rw [List.cons_append, afterFirst, hprefix]
    exact ih fun hc => h (List.mem_cons_of_mem a hc)

/-- What a number stands before on a line. -/
def Ends (rest : List Char) : Prop := rest = [] ∨ ∃ cs, rest = ' '::cs

theorem ends_space (cs : List Char) : Ends (' '::cs) := .inr ⟨cs,rfl⟩

theorem takeWhile_numeric {cs rest : List Char} (h : ∀ c ∈ cs, isNumeric c = true)
    (hrest : Ends rest) : (cs++rest).takeWhile isNumeric = cs := by
  rw [List.takeWhile_append_of_pos h]
  rcases hrest with rfl | ⟨rest,rfl⟩
  · rw [List.takeWhile_nil, List.append_nil]
  · rw [List.takeWhile_cons_of_neg (by decide), List.append_nil]

/-- A plain value is scanned whole and read as it was printed; of any other nothing is scanned. -/
theorem parse_scanned (x : F64) {rest : List Char} (hrest : Ends rest) :
    F64.parse (String.ofList (((x.fixed 4).toList++rest).takeWhile isNumeric)) =
      if x.Plain then F64.parse (x.fixed 4) else none := by
  obtain ⟨hplain,units,hunits⟩ | ⟨hplain,c,cs,hfixed,hc⟩ := F64.fixed_cases 4 x
  · have hnumeric : ∀ c ∈ (x.fixed 4).toList, isNumeric c = true := by
      intro c hc
      rw [hunits] at hc
      simpa [isNumeric] using FloatText.mem_positional hc
    rw [if_pos hplain, takeWhile_numeric hnumeric hrest, String.ofList_toList]
  · have hstop : isNumeric c = false := by
      simp only [List.mem_cons, List.not_mem_nil, or_false] at hc
      rcases hc with rfl | rfl | rfl <;> rfl
    rw [if_neg hplain, hfixed, List.cons_append,
      List.takeWhile_cons_of_neg (by simp [hstop])]
    decide

variable (r : RoundReport)

theorem toList_line : r.line.toList = "round=".toList++((toString r.round).toList++
    ' '::("held_out_accuracy=".toList++((r.accuracy.fixed 4).toList++
      ' '::("held_out_loss=".toList++((r.loss.fixed 4).toList++
        (RoundReport.clientFields r.clients).toList))))) := by
  simp [RoundReport.line]

theorem ends_clientFields (clients : Option ClientScores) :
    Ends (RoundReport.clientFields clients).toList := by
  cases clients with
  | none => exact .inl rfl
  | some c =>
    have hname : " client_acc_min=".toList = [' ']++"client_acc_min=".toList := by simp
    unfold RoundReport.clientFields
    rw [String.toList_append, String.toList_append, String.toList_append, String.toList_append,
      String.toList_append, hname, List.append_assoc, List.append_assoc, List.append_assoc,
      List.append_assoc, List.append_assoc, List.singleton_append]
    exact ends_space _

theorem field_round : field r.line "round=" = F64.parse (toString r.round) := by
  have hdigits : ∀ c ∈ (toString r.round).toList, isNumeric c = true := by
    intro c hc
    rw [Decimal.toList_toString] at hc
    simp [isNumeric, Decimal.isDigit_of_mem_toDigits hc]
  rw [field, toList_line, afterFirst_append, Option.bind_some,
    takeWhile_numeric hdigits (ends_space _), String.ofList_toList]

/-- No name of a field begins within a number. -/
theorem notMem_fixed {c : Char} (hdigit : c.isDigit = false)
    (h : c ∉ ['.','-','n','a','i','f']) (x : F64) : c ∉ (x.fixed 4).toList := by
  intro hc
  rcases F64.mem_fixed hc with hd | hm
  · rw [hdigit] at hd
    cases hd
  · exact h hm

/-- What stands before the accuracy. -/
theorem notMem_before (n : ℕ) : 'h' ∉ "round=".toList++((toString n).toList++[' ']) := by
  intro hc
  simp only [List.mem_append, Decimal.toList_toString] at hc
  rcases hc with hc | hc | hc
  · revert hc
    simp
  · exact absurd (Decimal.isDigit_of_mem_toDigits hc) (by decide)
  · revert hc
    simp

theorem field_accuracy : field r.line "held_out_accuracy=" =
    if r.accuracy.Plain then F64.parse (r.accuracy.fixed 4) else none := by
  have hsplit : ∀ rest, "round=".toList++((toString r.round).toList++ ' '::rest) =
      ("round=".toList++((toString r.round).toList++[' ']))++rest := by
    intro rest
    simp only [List.append_assoc, List.singleton_append]
  have hname : "held_out_accuracy=".toList = 'h'::"eld_out_accuracy=".toList := rfl
  rw [field, toList_line, hsplit, hname, afterFirst_skip _ (notMem_before r.round),
    afterFirst_append, Option.bind_some, parse_scanned _ (ends_space _)]

theorem field_loss : field r.line "held_out_loss=" =
    if r.loss.Plain then F64.parse (r.loss.fixed 4) else none := by
  -- the name of the accuracy begins like that of the loss
  have hsplit : ∀ digits accuracy rest, "round=".toList++(digits++
      ' '::("held_out_accuracy=".toList++(accuracy++ ' '::("held_out_loss=".toList++rest)))) =
      ("round=".toList++(digits++[' ']))++ 'h'::(("eld_out_accuracy=".toList++(accuracy++[' ']))++
        ("held_out_loss=".toList++rest)) := by
    intro digits accuracy rest
    simp only [List.append_assoc, List.singleton_append]
    rfl
  have hname : "held_out_loss=".toList = 'h'::"eld_out_loss=".toList := rfl
  have hbetween : 'h' ∉ "eld_out_accuracy=".toList++((r.accuracy.fixed 4).toList++[' ']) := by
    intro hc
    rcases List.mem_append.mp hc with hc | hc
    · revert hc
      simp
    rcases List.mem_append.mp hc with hc | hc
    · exact notMem_fixed (by decide) (by decide) r.accuracy hc
    · revert hc
      simp
  have hnot : ∀ rest, afterFirst ('h'::"eld_out_loss=".toList)
      ('h'::("eld_out_accuracy=".toList++rest)) =
        afterFirst ('h'::"eld_out_loss=".toList) ("eld_out_accuracy=".toList++rest) := fun _ => rfl
  rw [field, toList_line, hsplit, hname, afterFirst_skip _ (notMem_before r.round),
    List.append_assoc, hnot, ← List.append_assoc, afterFirst_skip _ hbetween, afterFirst_append,
    Option.bind_some, parse_scanned _ (ends_clientFields r.clients)]

/-- Both numbers of the line are scanned. -/
def Readable : Prop := r.accuracy.Plain ∧ r.loss.Plain

/-- The metric that a readable line gives. -/
def metric : RoundMetric where
  accuracy := (F64.parse (r.accuracy.fixed 4)).getD .nan
  loss := (F64.parse (r.loss.fixed 4)).getD .nan
  clientAccMin := field r.line "client_acc_min="
  clientAccStd := field r.line "client_acc_std="

variable {r}

theorem parse_accuracy (h : Readable r) :
    F64.parse (r.accuracy.fixed 4) = some (metric r).accuracy := by
  obtain ⟨a,ha⟩ := Option.isSome_iff_exists.mp (F64.parse_plain (show 0 < 4 by decide) h.1)
  rw [metric, ha, Option.getD_some]

theorem parse_loss (h : Readable r) : F64.parse (r.loss.fixed 4) = some (metric r).loss := by
  obtain ⟨a,ha⟩ := Option.isSome_iff_exists.mp (F64.parse_plain (show 0 < 4 by decide) h.2)
  rw [metric, ha, Option.getD_some]

/-- A readable line gives its round the metric. -/
theorem onLine_readable (rounds : KeyedTable ℕ RoundMetric) (hround : r.round < 2^32)
    (h : Readable r) : onLine rounds r.line = rounds.upsert r.round (metric r) := by
  obtain ⟨round,hparse,hcast⟩ := F64.parse_toString hround
  simp only [onLine, field_round, field_accuracy, field_loss, hparse, if_pos h.1, if_pos h.2,
    parse_accuracy h, parse_loss h, hcast]
  rfl

/-- A line with a number that is not plain is dropped whole. -/
theorem onLine_unreadable (rounds : KeyedTable ℕ RoundMetric) (h : ¬Readable r) :
    onLine rounds r.line = rounds := by
  unfold onLine
  rw [field_accuracy, field_loss]
  by_cases haccuracy : r.accuracy.Plain
  · have hloss : ¬r.loss.Plain := fun hloss => h ⟨haccuracy,hloss⟩
    rw [if_neg hloss]
    cases field r.line "round=" with
    | none => rfl
    | some round => cases (if r.accuracy.Plain then F64.parse (r.accuracy.fixed 4) else none) <;> rfl
  · rw [if_neg haccuracy]
    cases field r.line "round=" <;> rfl

/-- Whatever a line says, its round is cast to 32 bits. -/
theorem keys_onLine {rounds : KeyedTable ℕ RoundMetric} (line : String)
    (h : ∀ n ∈ rounds.keys, n < 2^32) : ∀ n ∈ (onLine rounds line).keys, n < 2^32 := by
  intro n hn
  unfold onLine at hn
  split at hn
  · rcases (KeyedTable.mem_keys_upsert ..).mp hn with rfl | hn
    · exact F64.toU32_lt _
    · exact h n hn
  · exact h n hn

section Reports
variable {reports : List RoundReport} {n : ℕ}

/-- The rounds after the lines of some reports. -/
def recorded (reports : List RoundReport) : KeyedTable ℕ RoundMetric :=
  Run.after (fun rounds r => onLine rounds r.line) .empty reports

theorem outcome_eq (tails : String) : outcome tails (reports.map RoundReport.line) =
    if (recorded reports).rows.isEmpty then
      .error ("the evaluator never reported held_out_accuracy"++tails)
    else .ok ⟨StableSort.sortBy Prod.fst (recorded reports).rows⟩ := by
  rw [outcome, List.foldl_map]
  rfl

theorem keys_recorded (reports : List RoundReport) : ∀ n ∈ (recorded reports).keys, n < 2^32 := by
  have hstep : ∀ (rounds : KeyedTable ℕ RoundMetric) (r : RoundReport),
      (∀ n ∈ rounds.keys, n < 2^32) → ∀ n ∈ (onLine rounds r.line).keys, n < 2^32 :=
    fun _ r h => keys_onLine r.line h
  have hstart : ∀ n ∈ (KeyedTable.empty : KeyedTable ℕ RoundMetric).keys, n < 2^32 := nofun
  exact Run.after_of_kept (fun rounds : KeyedTable ℕ RoundMetric => ∀ n ∈ rounds.keys, n < 2^32)
    hstart hstep

/-- The last readable line of a round decides what the runner has for it. -/
theorem lookup_recorded (hrounds : ∀ r ∈ reports, r.round < 2^32) {m : RoundMetric} :
    (recorded reports).lookup n = some m ↔
      ∃ r, LastWrite.LastOf (fun r => Readable r ∧ r.round = n) reports r ∧ metric r = m := by
  have hwrite : ∀ rounds, ∀ r ∈ reports, Readable r ∧ r.round = n →
      (onLine rounds r.line).lookup n = some (metric r) := by
    rintro rounds r hr ⟨hreadable,rfl⟩
    rw [onLine_readable rounds (hrounds r hr) hreadable, KeyedTable.lookup_upsert_self]
  have hframe : ∀ rounds, ∀ r ∈ reports, ¬(Readable r ∧ r.round = n) →
      (onLine rounds r.line).lookup n = rounds.lookup n := by
    intro rounds r hr hnot
    by_cases hreadable : Readable r
    · have hne : n ≠ r.round := fun he => hnot ⟨hreadable,he.symm⟩
      rw [onLine_readable rounds (hrounds r hr) hreadable, KeyedTable.lookup_upsert_ne _ hne]
    · rw [onLine_unreadable rounds hreadable]
  have hcell := LastWrite.cell_after_of_mem (fun rounds => KeyedTable.lookup rounds n)
    (fun r => some (metric r)) hwrite hframe (show KeyedTable.empty.lookup n = none from rfl)
    (b := m)
  refine Iff.trans hcell (exists_congr fun r => and_congr_right fun _ => ?_)
  exact Option.some_inj

/-- The rounds of a list in ascending order, each once. -/
def Ascending (rounds : List (ℕ × RoundMetric)) : Prop :=
  (rounds.map Prod.fst).Pairwise (· < ·)

/-- The curve has exactly one record for every round printed, in ascending order, with the number
that the last accuracy printed for it denotes; the accuracy it is judged on is that of the highest
round. -/
structure AsPrinted (reports : List RoundReport) (o : Outcome) : Prop where
  ascending : Ascending o.rounds
  rounds : ∀ n, n ∈ o.rounds.map Prod.fst ↔ ∃ r ∈ reports, r.round = n
  last : ∀ n m, (n,m) ∈ o.rounds → ∃ r, LastWrite.LastOf (fun r => r.round = n) reports r ∧
    F64.parse (r.accuracy.fixed 4) = some m.accuracy
  final : ∀ r, LastWrite.LastOf (fun r' => r'.round = r.round) reports r →
    (∀ r' ∈ reports, r'.round ≤ r.round) →
      F64.parse (r.accuracy.fixed 4) = some o.finalAccuracy

/-- What `run` gives for some reports is as printed; without a report it gives no outcome. -/
def RecordsAsPrinted (tails : String) (reports : List RoundReport) : Prop :=
  match outcome tails (reports.map RoundReport.line) with
  | .ok o => AsPrinted reports o
  | .error _ => reports = []

/-- Every round fits 32 bits, and its last readable line, with numbers that are finite and not
negative, prints the accuracy that its last line prints. -/
structure ReadsLast (reports : List RoundReport) : Prop where
  rounds : ∀ r ∈ reports, r.round < 2^32
  last : ∀ n r, LastWrite.LastOf (fun r => r.round = n) reports r →
    ∃ r', LastWrite.LastOf (fun r => Readable r ∧ r.round = n) reports r' ∧
      F64.parse (r'.accuracy.fixed 4) = F64.parse (r.accuracy.fixed 4)

/-- Sorted by round, the rows of a table ascend. -/
theorem ascending_sortBy (t : KeyedTable ℕ RoundMetric) :
    Ascending (StableSort.sortBy Prod.fst t.rows) := by
  have hsorted : StableSort.SortedBy Prod.fst (StableSort.sortBy Prod.fst t.rows) :=
    StableSort.sortBy_sorted
  have hnodup : ((StableSort.sortBy Prod.fst t.rows).map Prod.fst).Nodup :=
    ((StableSort.sortBy_perm.map Prod.fst).nodup_iff).mpr t.nodup
  rw [Ascending, List.pairwise_map]
  rw [List.Nodup, List.pairwise_map] at hnodup
  exact (hsorted.and hnodup).imp fun h => lt_of_le_of_ne h.1 h.2

/-- The last row of ascending ones is the highest. -/
theorem getLast_highest {rounds : List (ℕ × RoundMetric)} (h : Ascending rounds)
    {n : ℕ} {m : RoundMetric} (hmem : (n,m) ∈ rounds) (hmax : ∀ k ∈ rounds.map Prod.fst, k ≤ n) :
    rounds.getLast? = some (n,m) := by
  induction rounds using List.reverseRecOn with
  | nil => cases hmem
  | append_singleton rounds row ih =>
    rw [List.getLast?_concat]
    rcases List.mem_append.mp hmem with hmem | hmem
    · have hle : row.1 ≤ n := hmax row.1 (by simp)
      rw [Ascending, List.map_append, List.pairwise_append] at h
      have hlt : n < row.1 := h.2.2 n (List.mem_map_of_mem hmem) row.1 (by simp)
      omega
    · rw [List.mem_singleton.mp hmem]

theorem mem_sorted_iff {n : ℕ} {m : RoundMetric} :
    (n,m) ∈ StableSort.sortBy Prod.fst (recorded reports).rows ↔
      (recorded reports).lookup n = some m := by
  rw [StableSort.mem_sortBy, KeyedTable.lookup_eq_some_iff]

theorem AsPrinted.readsLast (h : AsPrinted reports
    ⟨StableSort.sortBy Prod.fst (recorded reports).rows⟩) : ReadsLast reports := by
  have hround : ∀ n, (∃ r ∈ reports, r.round = n) → ∃ m, (recorded reports).lookup n = some m := by
    intro n hn
    obtain ⟨⟨n',m⟩,hmem,rfl⟩ := List.mem_map.mp ((h.rounds n).mpr hn)
    exact ⟨m,mem_sorted_iff.mp hmem⟩
  have hrounds : ∀ r ∈ reports, r.round < 2^32 := by
    intro r hr
    obtain ⟨m,hm⟩ := hround r.round ⟨r,hr,rfl⟩
    exact keys_recorded reports _ (KeyedTable.mem_keys_of_lookup hm)
  refine ⟨hrounds,fun n r hlast => ?_⟩
  obtain ⟨m,hm⟩ := hround n ⟨r,hlast.mem,hlast.1⟩
  obtain ⟨r₀,hlast₀,hparse⟩ := h.last n m (mem_sorted_iff.mpr hm)
  obtain rfl := hlast.unique hlast₀
  obtain ⟨r',hreadable,rfl⟩ := (lookup_recorded hrounds).mp hm
  exact ⟨r',hreadable,(parse_accuracy hreadable.1.1).trans hparse.symm⟩

theorem ReadsLast.exists_lookup (h : ReadsLast reports) (hn : ∃ r ∈ reports, r.round = n) :
    ∃ r m, LastWrite.LastOf (fun r => r.round = n) reports r ∧
      (recorded reports).lookup n = some m ∧
        F64.parse (r.accuracy.fixed 4) = some m.accuracy := by
  obtain ⟨r,hlast⟩ := LastWrite.exists_lastOf_iff.mpr hn
  obtain ⟨r',hreadable,hsame⟩ := h.last n r hlast
  exact ⟨r,metric r',hlast,(lookup_recorded h.rounds).mpr ⟨r',hreadable,rfl⟩,
    hsame.symm.trans (parse_accuracy hreadable.1.1)⟩

theorem ReadsLast.asPrinted (h : ReadsLast reports) : AsPrinted reports
    ⟨StableSort.sortBy Prod.fst (recorded reports).rows⟩ := by
  have hrounds : ∀ n, n ∈ (StableSort.sortBy Prod.fst (recorded reports).rows).map Prod.fst ↔
      ∃ r ∈ reports, r.round = n := by
    intro n
    constructor
    · intro hn
      obtain ⟨⟨n',m⟩,hmem,rfl⟩ := List.mem_map.mp hn
      obtain ⟨r,hlast,-⟩ := (lookup_recorded h.rounds).mp (mem_sorted_iff.mp hmem)
      exact ⟨r,hlast.mem,hlast.1.2⟩
    · intro hn
      obtain ⟨r,m,-,hlookup,-⟩ := h.exists_lookup hn
      exact List.mem_map.mpr ⟨(n,m),mem_sorted_iff.mpr hlookup,rfl⟩
  have hlast : ∀ n m, (n,m) ∈ StableSort.sortBy Prod.fst (recorded reports).rows →
      ∃ r, LastWrite.LastOf (fun r => r.round = n) reports r ∧
        F64.parse (r.accuracy.fixed 4) = some m.accuracy := by
    intro n m hmem
    have hn := (hrounds n).mp (List.mem_map.mpr ⟨(n,m),hmem,rfl⟩)
    obtain ⟨r,m',hr,hlookup,hparse⟩ := h.exists_lookup hn
    obtain rfl := Option.some.inj ((mem_sorted_iff.mp hmem).symm.trans hlookup)
    exact ⟨r,hr,hparse⟩
  refine ⟨ascending_sortBy _,hrounds,hlast,fun r hr hmax => ?_⟩
  obtain ⟨⟨n,m⟩,hmem,hn⟩ := List.mem_map.mp ((hrounds r.round).mpr ⟨r,hr.mem,rfl⟩)
  obtain rfl : n = r.round := hn
  have hhighest : ∀ k ∈ (StableSort.sortBy Prod.fst (recorded reports).rows).map Prod.fst,
      k ≤ r.round := by
    intro k hk
    obtain ⟨r',hr',rfl⟩ := (hrounds k).mp hk
    exact hmax r' hr'
  obtain ⟨r',hr',hparse⟩ := hlast _ m hmem
  obtain rfl := hr.unique hr'
  rw [Outcome.finalAccuracy, getLast_highest (ascending_sortBy _) hmem hhighest]
  exact hparse

/-- The curve is as printed exactly when every round fits 32 bits and the last line of each prints
no other accuracy than its last readable one. -/
theorem recordsAsPrinted_iff (tails : String) (reports : List RoundReport) :
    RecordsAsPrinted tails reports ↔ ReadsLast reports := by
  unfold RecordsAsPrinted
  rw [outcome_eq]
  by_cases hempty : (recorded reports).rows.isEmpty = true
  · rw [if_pos hempty]
    constructor
    · rintro rfl
      exact ⟨nofun,fun n r hr => (LastWrite.not_lastOf_nil hr).elim⟩
    · intro h
      rw [List.eq_nil_iff_forall_not_mem]
      intro r hr
      obtain ⟨r',m,-,hlookup,-⟩ := h.exists_lookup ⟨r,hr,rfl⟩
      have hmem := KeyedTable.lookup_eq_some_iff.mp hlookup
      rw [List.isEmpty_iff.mp hempty] at hmem
      cases hmem
  · rw [if_neg hempty]
    exact ⟨AsPrinted.readsLast,ReadsLast.asPrinted⟩

end Reports

/-- A round at 0.9, and a round after which the model has diverged. -/
def divergedRun : List RoundReport :=
  [⟨1,⟨0x3feccccccccccccd⟩,⟨0x3fd3333333333333⟩,none⟩,⟨2,⟨0x3fb999999999999a⟩,.nan,none⟩]

/-- The runner drops the line of the second round, and judges the run on the first. -/
theorem not_recordsAsPrinted_diverged : ¬RecordsAsPrinted "" divergedRun := by
  have hrounds : ((outcome "" (divergedRun.map RoundReport.line)).toOption.map
      fun o => o.rounds.map Prod.fst) = some [1] := by decide +kernel
  intro h
  unfold RecordsAsPrinted at h
  cases ho : outcome "" (divergedRun.map RoundReport.line) with
  | error e =>
    rw [ho] at hrounds
    cases hrounds
  | ok o =>
    rw [ho] at h hrounds
    have hsecond := (h.rounds 2).mpr ⟨_,List.mem_cons_of_mem _ List.mem_cons_self,rfl⟩
    have hfirst : o.rounds.map Prod.fst = [1] := Option.some.inj hrounds
    rw [hfirst] at hsecond
    revert hsecond
    decide

end Baseline
end ConfluxFL
