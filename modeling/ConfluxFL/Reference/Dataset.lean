import ConfluxFL.Lib.Fallible
import ConfluxFL.Lib.FloatPrint
import ConfluxFL.Lib.SocketText
import ConfluxFL.Lib.Decimal
import ConfluxFL.Reference.LinearLeastSquares

/-! The file of trusted examples: one a line, its fields between commas, the target last. Whatever is
read is rectangular, whatever is rectangular can be written so that it is read back, and a refusal
names the first field or row that is in the way. -/
namespace ConfluxFL.Reference
open Fallible

abbrev Example := List F32 × F32

inductive DatasetError where
  | unreadable (path source : String)
  | notANumber (path : String) (line : ℕ) (field : String)
  | emptyRow (path : String) (line : ℕ)
  | noExamples (path : String)
  | otherWidth (path : String) (row features width : ℕ)
  deriving DecidableEq, Repr

/-- What `parse` says of a text that is no number. -/
def parseFloatError (text : String) : String :=
  if text = "" then "cannot parse float from empty string" else "invalid float literal"

/-- The characters with the property White_Space. -/
def isWhitespace (c : Char) : Bool :=
  let n := c.toNat
  (9 ≤ n && n ≤ 13) || n == 0x20 || n == 0x85 || n == 0xa0 || n == 0x1680 ||
    (0x2000 ≤ n && n ≤ 0x200a) || n == 0x2028 || n == 0x2029 || n == 0x202f || n == 0x205f ||
    n == 0x3000

def trim (text : List Char) : List Char := (text.dropWhile isWhitespace).rdropWhile isWhitespace

/-- The text of the error; `debug` quotes a text as `{:?}` does. -/
def DatasetError.message (debug : String → String) : DatasetError → String
  | .unreadable path source => s!"could not read the trusted dataset at {path}: {source}"
  | .notANumber path line field => s!"{path}:{line}: {debug field} is not a number: "++
      parseFloatError (String.ofList (trim field.toList))
  | .emptyRow path line => s!"{path}:{line}: empty row"
  | .noExamples path => s!"{path} contains no examples"
  | .otherWidth path row features width =>
    s!"{path}: row {row} has {features} features, but row 1 has {width}"

/-- The number a field spells. -/
def fieldValue (field : List Char) : Option F32 := F32.parse (String.ofList (trim field))

section Read
variable (path : String)

def readField (line : ℕ) (field : List Char) : Except DatasetError F32 :=
  match fieldValue field with
  | some x => .ok x
  | none => .error (.notANumber path line (String.ofList field))

/-- The fields of a line; the last is the target. -/
def readRow (line : ℕ) (text : List Char) : Except DatasetError Example := do
  let values ← (text.splitOn ',').mapM (readField path line)
  match values.getLast? with
  | some target => return (values.dropLast,target)
  | none => .error (.emptyRow path line)

/-- A line is passed over when it is blank or a comment. -/
def isPassedOver (text : List Char) : Bool := text.isEmpty || text.head? == some '#'

/-- One turn of the loop over the lines, which are numbered from zero. -/
def readLine (rows : List Example) (line : String × ℕ) : Except DatasetError (List Example) :=
  let text := trim line.1.toList
  if isPassedOver text then .ok rows
  else do
    let row ← readRow path (line.2+1) text
    return rows++[row]

/-- Every row must agree on width with the first. -/
def checkWidths (rows : List Example) : Except DatasetError (List Example) :=
  match rows with
  | [] => .error (.noExamples path)
  | first::_ =>
    match rows.findIdx? fun row => row.1.length != first.1.length with
    | some bad => .error (.otherWidth path (bad+1)
        ((rows[bad]?).elim 0 fun row => row.1.length) first.1.length)
    | none => .ok rows

def parseDataset (contents : String) : Except DatasetError (List Example) := do
  let rows ← (TextLines.lines contents).zipIdx.foldlM (readLine path) []
  checkWidths path rows

def readDataset (readFile : String → Except String String) : Except DatasetError (List Example) := do
  let contents ← (readFile path).mapError (.unreadable path)
  parseDataset path contents

end Read

section Lines

/-- A line that is read, trimmed and under its number. -/
def exampleLine (line : String × ℕ) : Option (ℕ × List Char) :=
  let text := trim line.1.toList
  if isPassedOver text then none else some (line.2+1,text)

def exampleLines (contents : String) : List (ℕ × List Char) :=
  (TextLines.lines contents).zipIdx.filterMap exampleLine

/-- The fields of the line spell the features and the target, in order. -/
def Spells (text : List Char) (row : Example) : Prop :=
  (text.splitOn ',').map fieldValue = (row.1++[row.2]).map some

/-- Rows of one width, and at least one. -/
def Rectangular (rows : List Example) : Prop :=
  ∃ width, rows ≠ [] ∧ ∀ row ∈ rows, row.1.length = width

/-- The error names the first thing in the way of a file with these lines. -/
inductive DatasetError.Names (path : String) (lines : List (ℕ × List Char)) : DatasetError → Prop
  | notANumber {before after : List (ℕ × List Char)} {line : ℕ} {text field : List Char}
      {pre post : List (List Char)} (split : lines = before++(line,text)::after)
      (spelled : ∀ l ∈ before, ∃ row, Spells l.2 row) (fields : text.splitOn ',' = pre++field::post)
      (numbers : ∀ f ∈ pre, (fieldValue f).isSome) (bad : fieldValue field = none) :
      Names path lines (.notANumber path line (String.ofList field))
  | noExamples (empty : lines = []) : Names path lines (.noExamples path)
  | otherWidth {before after : List Example} {first bad : Example}
      (spelled : List.Forall₂ (fun l row => Spells l.2 row) lines (first::before++bad::after))
      (same : ∀ row ∈ before, row.1.length = first.1.length)
      (other : bad.1.length ≠ first.1.length) :
      Names path lines (.otherWidth path (before.length+2) bad.1.length first.1.length)

variable {path : String}

theorem readField_eq (line : ℕ) (field : List Char) : readField path line field =
    (fieldValue field).elim (.error (.notANumber path line (String.ofList field))) .ok := by
  unfold readField
  cases fieldValue field <;> rfl

theorem readFields_ok_iff {line : ℕ} {fields : List (List Char)} {values : List F32} :
    fields.mapM (readField path line) = .ok values ↔
      fields.map fieldValue = values.map some := by
  rw [mapM_ok_iff_forall₂, ← List.forall₂_eq_eq_eq, List.forall₂_map_left_iff,
    List.forall₂_map_right_iff]
  refine Iff.of_eq (congrArg (fun r => List.Forall₂ r fields values) ?_)
  funext field value
  rw [readField_eq]
  cases fieldValue field <;> simp

theorem readRow_ok_iff {line : ℕ} {text : List Char} {row : Example} :
    readRow path line text = .ok row ↔ Spells text row := by
  unfold readRow Spells
  rw [except_bind_ok_iff]
  constructor
  · rintro ⟨values,hvalues,h⟩
    rw [readFields_ok_iff.mp hvalues]
    cases hlast : values.getLast? with
    | none =>
      rw [hlast] at h
      cases h
    | some target =>
      rw [hlast] at h
      cases h
      rw [List.dropLast_append_getLast? target hlast]
  · intro h
    refine ⟨row.1++[row.2],readFields_ok_iff.mpr h,?_⟩
    rw [List.getLast?_concat, List.dropLast_concat]
    rfl

/-- What is read of the lines, after what was read before. -/
theorem foldlM_readLine (lines : List (String × ℕ)) (rows : List Example) :
    lines.foldlM (readLine path) rows = (do
      let read ← (lines.filterMap exampleLine).mapM fun l => readRow path l.1 l.2
      return rows++read) := by
  induction lines generalizing rows with
  | nil => simp [pure, Except.pure, bind, Except.bind]
  | cons line lines ih =>
    rw [List.foldlM_cons, readLine]
    split_ifs with hpassed
    · have hline : exampleLine line = none := if_pos hpassed
      rw [List.filterMap_cons_none hline]
      exact ih rows
    · have hline : exampleLine line = some (line.2+1,trim line.1.toList) := if_neg hpassed
      rw [List.filterMap_cons_some hline, List.mapM_cons]
      cases readRow path (line.2+1) (trim line.1.toList) with
      | error e => rfl
      | ok row =>
        change lines.foldlM (readLine path) (rows++[row]) = _
        rw [ih]
        cases (lines.filterMap exampleLine).mapM fun l => readRow path l.1 l.2 with
        | error e => rfl
        | ok read =>
          change Except.ok (rows++[row]++read) = Except.ok (rows++row::read)
          rw [List.append_assoc, List.singleton_append]

theorem parseDataset_eq (contents : String) : parseDataset path contents = (do
    let rows ← (exampleLines contents).mapM fun l => readRow path l.1 l.2
    checkWidths path rows) := by
  unfold parseDataset exampleLines
  rw [foldlM_readLine]
  cases ((TextLines.lines contents).zipIdx.filterMap exampleLine).mapM
    fun l => readRow path l.1 l.2 <;> rfl

theorem rows_ok_iff {lines : List (ℕ × List Char)} {rows : List Example} :
    lines.mapM (fun l => readRow path l.1 l.2) = .ok rows ↔
      List.Forall₂ (fun l row => Spells l.2 row) lines rows := by
  rw [mapM_ok_iff_forall₂]
  simp only [readRow_ok_iff]

theorem checkWidths_ok_iff {rows read : List Example} :
    checkWidths path rows = .ok read ↔ read = rows ∧ Rectangular rows := by
  unfold checkWidths Rectangular
  cases rows with
  | nil => simp
  | cons first rest =>
    dsimp only
    split
    · next bad hbad =>
      obtain ⟨hlt,hwidth,-⟩ := List.findIdx?_eq_some_iff_getElem.mp hbad
      refine iff_of_false (fun h => by cases h) ?_
      rintro ⟨-,width,-,hall⟩
      rw [bne_iff_ne] at hwidth
      exact hwidth ((hall _ (List.getElem_mem hlt)).trans (hall _ List.mem_cons_self).symm)
    · next hnone =>
      have hall := List.findIdx?_eq_none_iff.mp hnone
      simp only [bne_eq_false_iff_eq] at hall
      rw [Except.ok.injEq, eq_comm]
      exact ⟨fun h => ⟨h,first.1.length,List.cons_ne_nil _ _,hall⟩,And.left⟩

/-- What is read: every line that is neither blank nor a comment spells its row, and the rows are of
one width. -/
theorem parseDataset_ok_iff {contents : String} {rows : List Example} :
    parseDataset path contents = .ok rows ↔
      List.Forall₂ (fun l row => Spells l.2 row) (exampleLines contents) rows ∧ Rectangular rows := by
  rw [parseDataset_eq, except_bind_ok_iff]
  simp only [rows_ok_iff, checkWidths_ok_iff]
  constructor
  · rintro ⟨read,hread,rfl,hwidths⟩
    exact ⟨hread,hwidths⟩
  · rintro ⟨hread,hwidths⟩
    exact ⟨rows,hread,rfl,hwidths⟩

end Lines

section Refusals

/-- The first element a traversal stops at. -/
theorem mapM_error_split {ε α β : Type} {f : α → Except ε β} {xs : List α} {e : ε}
    (h : xs.mapM f = .error e) : ∃ before x after, xs = before++x::after ∧
      (∀ y ∈ before, ∃ b, f y = .ok b) ∧ f x = .error e := by
  induction xs with
  | nil => cases h
  | cons x xs ih =>
    rw [List.mapM_cons, except_bind_error_iff] at h
    rcases h with h | ⟨y,hy,h⟩
    · exact ⟨[],x,xs,rfl,fun _ h => (List.not_mem_nil h).elim,h⟩
    · rcases except_bind_error_iff.mp h with h | ⟨ys,_,h⟩
      · obtain ⟨before,z,after,rfl,hbefore,hz⟩ := ih h
        refine ⟨x::before,z,after,rfl,fun w hw => ?_,hz⟩
        rcases List.mem_cons.mp hw with rfl | hw
        · exact ⟨y,hy⟩
        · exact hbefore w hw
      · cases h

theorem readRow_error {line : ℕ} {text : List Char} {e : DatasetError}
    (h : readRow path line text = .error e) : ∃ pre field post, text.splitOn ',' = pre++field::post ∧
      (∀ f ∈ pre, (fieldValue f).isSome) ∧ fieldValue field = none ∧
        e = .notANumber path line (String.ofList field) := by
  rcases except_bind_error_iff.mp h with h | ⟨values,hvalues,h⟩
  · obtain ⟨pre,field,post,hsplit,hpre,hfield⟩ := mapM_error_split h
    refine ⟨pre,field,post,hsplit,fun f hf => ?_,?_⟩
    · obtain ⟨x,hx⟩ := hpre f hf
      rw [readField_eq] at hx
      cases hv : fieldValue f with
      | some y => rfl
      | none =>
        rw [hv] at hx
        cases hx
    · rw [readField_eq] at hfield
      cases hv : fieldValue field with
      | some y =>
        rw [hv] at hfield
        cases hfield
      | none =>
        rw [hv] at hfield
        exact ⟨rfl,(Except.error.inj hfield).symm⟩
  · -- a text has at least one field
    have hlength := congrArg List.length (readFields_ok_iff.mp hvalues)
    rw [List.length_map, List.length_map] at hlength
    cases hlast : values.getLast? with
    | none =>
      rw [List.getLast?_eq_none_iff.mp hlast] at hlength
      exact absurd (List.eq_nil_of_length_eq_zero hlength) (List.splitOn_ne_nil _ _)
    | some target =>
      rw [hlast] at h
      cases h

theorem checkWidths_error {rows : List Example} {e : DatasetError}
    (h : checkWidths path rows = .error e) : rows = [] ∧ e = .noExamples path ∨
      ∃ first before bad after, rows = first::before++bad::after ∧
        (∀ row ∈ before, row.1.length = first.1.length) ∧ bad.1.length ≠ first.1.length ∧
          e = .otherWidth path (before.length+2) bad.1.length first.1.length := by
  cases rows with
  | nil =>
    cases h
    exact .inl ⟨rfl,rfl⟩
  | cons first rest =>
    right
    unfold checkWidths at h
    dsimp only at h
    split at h
    · next bad hbad =>
      obtain ⟨hlt,hwidth,hmin⟩ := List.findIdx?_eq_some_iff_getElem.mp hbad
      rw [bne_iff_ne] at hwidth
      -- the first row is as wide as itself
      cases bad with
      | zero => exact absurd rfl hwidth
      | succ bad =>
        have hlt' : bad < rest.length := Nat.lt_of_succ_lt_succ hlt
        rw [List.getElem?_eq_getElem hlt] at h
        cases h
        refine ⟨first,rest.take bad,rest[bad],rest.drop (bad+1),?_,fun row hrow => ?_,hwidth,?_⟩
        · rw [List.cons_append, List.getElem_cons_drop hlt', List.take_append_drop]
        · obtain ⟨i,hi,rfl⟩ := List.getElem_of_mem hrow
          rw [List.length_take] at hi
          have := hmin (i+1) (by omega)
          simpa using this
        · rw [List.length_take, min_eq_left hlt'.le]
          rfl
    · cases h

/-- Whatever is refused names the first thing in the way. -/
theorem parseDataset_error {contents : String} {e : DatasetError}
    (h : parseDataset path contents = .error e) : e.Names path (exampleLines contents) := by
  rw [parseDataset_eq] at h
  rcases except_bind_error_iff.mp h with h | ⟨rows,hrows,h⟩
  · obtain ⟨before,⟨line,text⟩,after,hsplit,hbefore,hrow⟩ := mapM_error_split h
    obtain ⟨pre,field,post,hfields,hpre,hbad,rfl⟩ := readRow_error hrow
    refine .notANumber hsplit (fun l hl => ?_) hfields hpre hbad
    obtain ⟨row,hl⟩ := hbefore l hl
    exact ⟨row,readRow_ok_iff.mp hl⟩
  · have hspelled := rows_ok_iff.mp hrows
    rcases checkWidths_error h with ⟨rfl,rfl⟩ | ⟨first,before,bad,after,rfl,hsame,hother,rfl⟩
    · exact .noExamples (List.forall₂_nil_right_iff.mp hspelled)
    · exact .otherWidth hspelled hsame hother

end Refusals

section Written

/-- A row as a line: its values as they are printed, between commas. -/
def rowText (row : Example) : List Char :=
  [','].intercalate ((row.1++[row.2]).map fun x => x.display.toList)

/-- A file of these rows. -/
def datasetText (rows : List Example) : String :=
  rows.foldr (fun row text => String.ofList (rowText row)++"\n"++text) ""

/-- Every value is printed as something that is read back as the value. -/
def Printable (rows : List Example) : Prop := ∀ row ∈ rows, ∀ x ∈ row.1++[row.2], x.Prints

theorem mem_intercalate {sep c : Char} {ls : List (List Char)} (h : c ∈ [sep].intercalate ls) :
    c = sep ∨ ∃ l ∈ ls, c ∈ l := by
  induction ls with
  | nil => exact absurd h List.not_mem_nil
  | cons l ls ih =>
    cases ls with
    | nil =>
      rw [List.intercalate_singleton] at h
      exact .inr ⟨l,List.mem_cons_self,h⟩
    | cons m ls =>
      rw [List.intercalate_cons_cons, List.mem_append, List.mem_append, List.mem_singleton] at h
      rcases h with (h | h) | h
      · exact .inr ⟨l,List.mem_cons_self,h⟩
      · exact .inl h
      · rcases ih h with h | ⟨k,hk,h⟩
        · exact .inl h
        · exact .inr ⟨k,List.mem_cons_of_mem l hk,h⟩

theorem mem_rowText {row : Example} {c : Char} (h : c ∈ rowText row) :
    c.isDigit = true ∨ c ∈ [',','-','.','N','a','i','n','f'] := by
  rcases mem_intercalate h with rfl | ⟨l,hl,hc⟩
  · exact .inr List.mem_cons_self
  · obtain ⟨x,-,rfl⟩ := List.mem_map.mp hl
    exact (F32.mem_display hc).imp_right (List.mem_cons_of_mem _)

theorem not_mem_rowText {row : Example} {c : Char} (hdigit : c.isDigit = false)
    (h : c ∉ [',','-','.','N','a','i','n','f']) : c ∉ rowText row := fun hc =>
  (mem_rowText hc).elim (fun hd => by rw [hd] at hdigit; cases hdigit) h

theorem isWhitespace_rowText {row : Example} {c : Char} (h : c ∈ rowText row) :
    isWhitespace c = false := by
  rcases mem_rowText h with hdigit | hmem
  · have hc : 48 ≤ c.toNat ∧ c.toNat ≤ 57 := by
      simpa [Char.isDigit, UInt32.le_iff_toNat_le] using hdigit
    simp only [isWhitespace, Bool.or_eq_false_iff, Bool.and_eq_false_iff, decide_eq_false_iff_not,
      beq_eq_false_iff_ne]
    omega
  · simp only [List.mem_cons, List.not_mem_nil, or_false] at hmem
    rcases hmem with rfl | rfl | rfl | rfl | rfl | rfl | rfl | rfl <;> decide

theorem trim_of_forall {text : List Char} (h : ∀ c ∈ text, isWhitespace c = false) :
    trim text = text := by
  have hdrop : text.dropWhile isWhitespace = text := by
    rw [List.dropWhile_eq_self_iff]
    intro hlt
    rw [h _ (List.getElem_mem hlt)]
    exact Bool.false_ne_true
  rw [trim, hdrop, List.rdropWhile_eq_self_iff]
  intro hne
  rw [h _ (List.getLast_mem hne)]
  exact Bool.false_ne_true

theorem splitOn_rowText (row : Example) : (rowText row).splitOn ',' =
    (row.1++[row.2]).map fun x => x.display.toList := by
  refine List.splitOn_intercalate ',' (fun l hl hc => ?_) (by simp)
  obtain ⟨x,-,rfl⟩ := List.mem_map.mp hl
  rcases F32.mem_display hc with hdigit | hmem
  · revert hdigit
    decide
  · revert hmem
    decide

theorem fieldValue_display {x : F32} (h : x.Prints) : fieldValue x.display.toList = some x := by
  have htrim : trim x.display.toList = x.display.toList := by
    refine trim_of_forall fun c hc => ?_
    have hrow : c ∈ rowText ([],x) := by
      rwa [rowText, List.nil_append, List.map_singleton, List.intercalate_singleton]
    exact isWhitespace_rowText hrow
  rw [fieldValue, htrim, String.ofList_toList]
  exact h

theorem spells_rowText {row : Example} (h : ∀ x ∈ row.1++[row.2], x.Prints) :
    Spells (rowText row) row := by
  rw [Spells, splitOn_rowText, List.map_map]
  refine List.map_congr_left fun x hx => ?_
  rw [Function.comp_apply, fieldValue_display (h x hx)]

/-- A printed row is neither blank nor a comment. -/
theorem exampleLine_rowText {row : Example} (h : ∀ x ∈ row.1++[row.2], x.Prints) (line : ℕ) :
    exampleLine (String.ofList (rowText row),line) = some (line+1,rowText row) := by
  have hne : rowText row ≠ [] := by
    intro hnil
    have hspells := spells_rowText h
    have hempty : fieldValue [] = none := by decide +kernel
    rw [Spells, hnil, List.splitOn_nil, List.map_singleton, hempty] at hspells
    cases hvalues : row.1++[row.2] with
    | nil => exact absurd hvalues (by simp)
    | cons x xs =>
      rw [hvalues] at hspells
      cases hspells
  have hcomment : (rowText row).head? ≠ some '#' := fun hhead =>
    not_mem_rowText (c := '#') (by decide) (by decide) (List.mem_of_head? hhead)
  rw [exampleLine, String.toList_ofList, trim_of_forall fun c hc => isWhitespace_rowText hc]
  refine if_neg ?_
  rw [isPassedOver, Bool.or_eq_true, List.isEmpty_iff, beq_iff_eq]
  exact not_or.mpr ⟨hne,hcomment⟩

theorem lines_datasetText (rows : List Example) :
    TextLines.lines (datasetText rows) = rows.map fun row => String.ofList (rowText row) := by
  induction rows with
  | nil => rfl
  | cons row rows ih =>
    rw [datasetText, List.foldr_cons, TextLines.lines_append, List.map_cons]
    · exact congrArg _ ih
    · rw [String.toList_ofList]
      exact not_mem_rowText (by decide) (by decide)
    · rw [String.toList_ofList]
      exact not_mem_rowText (by decide) (by decide)

theorem spelled_datasetText {rows : List Example} (h : Printable rows) :
    List.Forall₂ (fun l row => Spells l.2 row) (exampleLines (datasetText rows)) rows := by
  rw [exampleLines, lines_datasetText]
  generalize 0 = start
  induction rows generalizing start with
  | nil => exact .nil
  | cons row rows ih =>
    have hrow := h row List.mem_cons_self
    rw [List.map_cons, List.zipIdx_cons, List.filterMap_cons_some (exampleLine_rowText hrow start)]
    exact .cons (spells_rowText hrow) (ih (fun r hr => h r (List.mem_cons_of_mem row hr)) (start+1))

/-- What a dataset file is read as, and which are refused: exactly the files whose lines other than
blanks and comments spell rows of one width are read, as these rows; every dataset of one width is
read back from the file that prints it; and a refusal names the first line, field or row in the
way. -/
theorem readDataset_format (path : String) :
    (∀ readFile rows, readDataset path readFile = .ok rows ↔ ∃ contents,
      readFile path = .ok contents ∧ Rectangular rows ∧
        List.Forall₂ (fun l row => Spells l.2 row) (exampleLines contents) rows) ∧
    (∀ rows, Printable rows →
      (readDataset path (fun _ => .ok (datasetText rows)) = .ok rows ↔ Rectangular rows)) ∧
    ∀ readFile e, readDataset path readFile = .error e →
      (∃ source, readFile path = .error source ∧ e = .unreadable path source) ∨
        ∃ contents, readFile path = .ok contents ∧ e.Names path (exampleLines contents) := by
  refine ⟨fun readFile rows => ?_,fun rows hprint => ?_,fun readFile e h => ?_⟩
  · rw [readDataset, except_bind_ok_iff]
    simp only [mapError_ok_iff, parseDataset_ok_iff]
    exact exists_congr fun contents => and_congr_right fun _ => and_comm
  · change parseDataset path (datasetText rows) = .ok rows ↔ _
    rw [parseDataset_ok_iff, and_iff_right (spelled_datasetText hprint)]
  · rcases except_bind_error_iff.mp h with h | ⟨contents,hcontents,h⟩
    · cases hread : readFile path with
      | ok contents =>
        rw [hread] at h
        cases h
      | error source =>
        rw [hread] at h
        cases h
        exact .inl ⟨source,rfl,rfl⟩
    · exact .inr ⟨contents,mapError_ok_iff.mp hcontents,parseDataset_error h⟩

end Written

example : (parseDataset "root.csv" "# x,y\n1,2\n\n 3 ,-4\r\n").toOption =
    some [([⟨0x3f800000⟩],⟨0x40000000⟩),([⟨0x40400000⟩],⟨0xc0800000⟩)] := by decide +kernel

section Main
variable (get : String → Option String) (readFile : String → Except String String)

/-- Why the process ends before it serves. -/
inductive SidecarStop where
  | invalid (name raw : String)
  | noDataset
  | dataset (e : DatasetError)
  deriving DecidableEq, Repr

/-- What a variable is set to, or the default where it is unset. -/
def envOr {α : Type} (parse : String → Option α) (name : String) (default : α) :
    Except SidecarStop α :=
  match get name with
  | none => .ok default
  | some raw =>
    match parse (String.ofList (trim raw.toList)) with
    | some a => .ok a
    | none => .error (.invalid name raw)

def datasetPath : Except SidecarStop String :=
  match get "CONFLUX_TRUSTED_DATASET_PATH" with
  | some path => .ok path
  | none => .error .noDataset

/-- The address and the model the process serves. There is no default dataset. -/
def sidecarFromEnv : Except SidecarStop (SocketText.SocketAddr × LinearLeastSquares F32) := do
  let addr ← envOr get SocketText.parse "CONFLUX_SIDECAR_ADDR" ⟨.v4 0x7f000001,50100,0⟩
  let path ← datasetPath get
  let dataset ← (readDataset path readFile).mapError .dataset
  let learningRate ← envOr get F32.parse "CONFLUX_TRUSTED_LEARNING_RATE" ⟨0x3d4ccccd⟩
  let steps ← envOr get Decimal.parseU64 "CONFLUX_TRUSTED_STEPS" 200
  return (addr,⟨dataset,learningRate,steps⟩)

variable {get readFile}

/-- The model of a process that serves has examples, all of one width. -/
theorem rectangular_of_sidecarFromEnv {addr : SocketText.SocketAddr} {model : LinearLeastSquares F32}
    (h : sidecarFromEnv get readFile = .ok (addr,model)) : Rectangular model.dataset := by
  obtain ⟨_,_,h⟩ := except_bind_ok_iff.mp h
  obtain ⟨path,_,h⟩ := except_bind_ok_iff.mp h
  obtain ⟨dataset,hdataset,h⟩ := except_bind_ok_iff.mp h
  obtain ⟨_,_,h⟩ := except_bind_ok_iff.mp h
  obtain ⟨_,_,h⟩ := except_bind_ok_iff.mp h
  cases h
  obtain ⟨_,_,hparse⟩ := except_bind_ok_iff.mp (mapError_ok_iff.mp hdataset)
  exact (parseDataset_ok_iff.mp hparse).2

end Main

end ConfluxFL.Reference
