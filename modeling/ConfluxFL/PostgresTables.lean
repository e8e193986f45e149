import ConfluxFL.Lib.Json
import ConfluxFL.Store

/-! The three tables of a Postgres store. The two for the privacy history are named after the one
for the checkpoints; the database folds a name to lower case and keeps its first 63 bytes. -/
namespace ConfluxFL

def asciiAlphabetic (c : Char) : Bool := decide (65 ≤ c.toNat ∧ c.toNat ≤ 90 ∨ 97 ≤ c.toNat ∧ c.toNat ≤ 122)

def isPlainIdentifier (name : String) : Bool :=
  match name.toList with
  | [] => false
  | c::cs => (asciiAlphabetic c || c = '_') &&
    cs.all fun c => asciiAlphabetic c || c.isDigit || c = '_'

/-- The tables a connected store names in its statements. -/
structure PostgresTables where
  table : String
  privacyRoundsTable : String
  clientPrivacyRoundsTable : String
  deriving DecidableEq, Repr

namespace PostgresTables

/-- The check of the name and the names derived from it; connecting may fail for other reasons. -/
def connectWithTable (T : DebugText.Tables) (table : String) : Except StoreError PostgresTables :=
  if isPlainIdentifier table then
    .ok ⟨table,table++"_privacy_rounds",table++"_client_privacy_rounds"⟩
  else .error (.backend ("table name "++(DebugText.quote T table++" is not a plain SQL identifier "++
    "(letters, digits, underscores; not starting with a digit)")))

/-- What a store asks the database for. -/
inductive Operation
  | loadLatestWeights | listCheckpoints | loadCheckpoint | saveCheckpoint
  | appendRound | loadRounds | appendRoundForClient | loadClientRounds

/-- The table in the statement of an operation. -/
def target (t : PostgresTables) : Operation → String
  | .loadLatestWeights | .listCheckpoints | .loadCheckpoint | .saveCheckpoint => t.table
  | .appendRound | .loadRounds => t.privacyRoundsTable
  | .appendRoundForClient | .loadClientRounds => t.clientPrivacyRoundsTable

end PostgresTables

def folded (name : String) : List Char := name.toList.map Char.toLower

/-- The table an unquoted name denotes. -/
def relation (name : String) : List Char := (folded name).take 63

namespace PostgresTables

def relations (t : PostgresTables) : List (List Char) :=
  [relation t.table,relation t.privacyRoundsTable,relation t.clientPrivacyRoundsTable]

/-- Each store has three tables, and no operation of one names a table of the other. -/
structure Isolated (t u : PostgresTables) : Prop where
  left : t.relations.Nodup
  right : u.relations.Nodup
  disjoint : t.relations.Disjoint u.relations
  apart : ∀ op op', relation (t.target op) ≠ relation (u.target op')

end PostgresTables

section Names

/-- What is appended to the folded name of the checkpoints. -/
def roundsSuffix : List Char := "_privacy_rounds".toList
def clientSuffix : List Char := "_client".toList
def clientRoundsSuffix : List Char := "_client_privacy_rounds".toList

/-- Neither name is the other with one of the suffixes, or with what one has before the other. -/
def Unsuffixed (a b : List Char) : Prop :=
  ∀ s ∈ [roundsSuffix,clientRoundsSuffix,clientSuffix], a ≠ b++s ∧ b ≠ a++s

variable {a b s s' : List Char} {n : ℕ}

/-- Where two names of different lengths agree, a suffix of the shorter one starts over inside
the longer one. -/
theorem overlap (h : (a++s).take n = (b++s').take n) (hle : a.length ≤ b.length)
    (hlt : b.length+2 ≤ n) : b = a++s.take (b.length-a.length) ∧
      s[b.length-a.length]? = s'[0]? ∧ s[b.length-a.length+1]? = s'[1]? := by
  have hget (i : ℕ) (hi : i < n) : (a++s)[i]? = (b++s')[i]? := by
    rw [← List.getElem?_take_of_lt hi, h, List.getElem?_take_of_lt hi]
  refine ⟨?_,?_,?_⟩
  · have htake := congrArg (List.take b.length) h
    rw [List.take_take, List.take_take, Nat.min_eq_left (by omega), List.take_left,
      List.take_append, List.take_of_length_le hle] at htake
    exact htake.symm
  · have h0 := hget b.length (by omega)
    rwa [List.getElem?_append_right hle, List.getElem?_append_right le_rfl, Nat.sub_self] at h0
  · have h1 := hget (b.length+1) (by omega)
    rwa [List.getElem?_append_right (by omega), List.getElem?_append_right (by omega),
      Nat.add_sub_cancel_left, Nat.sub_add_comm hle] at h1

/-- A two-character beginning is found in a suffix at no position but these. -/
theorem begins_at {s s' : List Char} {p : ℕ → Prop} (hlen : 0 < s'.length)
    (h : ∀ k < s.length, s[k]? = s'[0]? → s[k+1]? = s'[1]? → p k) {k : ℕ}
    (h0 : s[k]? = s'[0]?) (h1 : s[k+1]? = s'[1]?) : p k := by
  by_cases hk : k < s.length
  · exact h k hk h0 h1
  · rw [List.getElem?_eq_none (by omega), List.getElem?_eq_getElem hlen] at h0
    cases h0

/-- Cut names with one of the two long suffixes tell what was before it. -/
theorem eq_of_take_eq (hs : s = roundsSuffix ∨ s = clientRoundsSuffix) (ha : a.length ≤ 61)
    (hb : b.length ≤ 61) (h : (a++s).take 63 = (b++s).take 63) : a = b := by
  wlog hle : a.length ≤ b.length generalizing a b
  · exact (this hb ha h.symm (by omega)).symm
  obtain ⟨hab,h0,h1⟩ := overlap h hle (by omega)
  have hk : b.length-a.length = 0 := by
    rcases hs with rfl | rfl
    · exact begins_at (p := fun k => k = 0) (by decide) (by decide) h0 h1
    · exact begins_at (p := fun k => k = 0) (by decide) (by decide) h0 h1
  rw [hk, List.take_zero, List.append_nil] at hab
  exact hab.symm

theorem eq_append_of_take_eq (ha : a.length ≤ 61) (hb : b.length ≤ 61)
    (h : (a++roundsSuffix).take 63 = (b++clientRoundsSuffix).take 63) : a = b++clientSuffix := by
  by_cases hle : a.length ≤ b.length
  · obtain ⟨-,h0,h1⟩ := overlap h hle (by omega)
    exact (begins_at (p := fun _ => False) (by decide) (by decide) h0 h1).elim
  · obtain ⟨hab,h0,h1⟩ := overlap h.symm (by omega) (by omega)
    have hk : a.length-b.length = 7 := begins_at (p := fun k => k = 7) (by decide) (by decide) h0 h1
    rw [hk] at hab
    exact hab

theorem take_eq_take_append_iff (ha : a.length ≤ 61) :
    a.take 63 = (b++s).take 63 ↔ a = b++s := by
  rw [List.take_of_length_le (by omega)]
  constructor
  · intro h
    have hlen := congrArg List.length h
    rw [List.length_take] at hlen
    rwa [List.take_of_length_le (by omega)] at h
  · rintro rfl
    exact (List.take_of_length_le (by omega)).symm

/-- A folded name and the two that are derived from it, as the database cuts them. -/
def cuts (a : List Char) : List (List Char) :=
  [a.take 63,(a++roundsSuffix).take 63,(a++clientRoundsSuffix).take 63]

theorem nodup_cuts_iff : (cuts a).Nodup ↔ a.length ≤ 61 := by
  have hrounds : roundsSuffix.length = 15 := rfl
  have hclient : clientRoundsSuffix.length = 22 := rfl
  constructor
  · intro h
    by_contra hlen
    have hsame : (a++roundsSuffix).take 63 = (a++clientRoundsSuffix).take 63 := by
      rw [List.take_append, List.take_append]
      congr 1
      -- at most the underscore is left of either suffix
      obtain hk | hk : 63-a.length = 0 ∨ 63-a.length = 1 := by omega
      · rw [hk, List.take_zero, List.take_zero]
      · rw [hk]
        rfl
    simp [cuts, hsame] at h
  · intro hlen
    have hfirst {s : List Char} (hs : 0 < s.length) : a.take 63 ≠ (a++s).take 63 := by
      rw [Ne, take_eq_take_append_iff hlen, List.self_eq_append_right]
      exact List.ne_nil_of_length_pos hs
    have hlast : (a++roundsSuffix).take 63 ≠ (a++clientRoundsSuffix).take 63 := by
      intro h
      have hself := congrArg List.length (eq_append_of_take_eq hlen hlen h)
      rw [List.length_append] at hself
      have hseven : clientSuffix.length = 7 := rfl
      omega
    simp only [cuts, List.nodup_cons, List.mem_cons, List.not_mem_nil, or_false, not_or,
      not_false_eq_true, List.nodup_nil, and_true]
    exact ⟨⟨hfirst (by decide),hfirst (by decide)⟩,hlast⟩

theorem disjoint_cuts_iff (ha : a.length ≤ 61) (hb : b.length ≤ 61) (hne : a ≠ b) :
    (cuts a).Disjoint (cuts b) ↔ Unsuffixed a b := by
  have htables : a.take 63 ≠ b.take 63 := by
    rwa [List.take_of_length_le (by omega), List.take_of_length_le (by omega)]
  have hrounds : (a++roundsSuffix).take 63 ≠ (b++roundsSuffix).take 63 :=
    fun h => hne (eq_of_take_eq (.inl rfl) ha hb h)
  have hclient : (a++clientRoundsSuffix).take 63 ≠ (b++clientRoundsSuffix).take 63 :=
    fun h => hne (eq_of_take_eq (.inr rfl) ha hb h)
  have hcross {a b : List Char} (ha : a.length ≤ 61) (hb : b.length ≤ 61) :
      (a++roundsSuffix).take 63 = (b++clientRoundsSuffix).take 63 ↔ a = b++clientSuffix := by
    refine ⟨eq_append_of_take_eq ha hb,?_⟩
    rintro rfl
    rw [List.append_assoc]
    rfl
  rw [List.disjoint_left]
  simp only [cuts, Unsuffixed, List.not_mem_nil, List.mem_cons, or_false, not_or,
    forall_eq_or_imp, forall_eq]
  rw [take_eq_take_append_iff ha, take_eq_take_append_iff ha, hcross ha hb,
    eq_comm (a := (a++roundsSuffix).take 63) (b := b.take 63), take_eq_take_append_iff hb,
    eq_comm (a := (a++clientRoundsSuffix).take 63) (b := b.take 63), take_eq_take_append_iff hb,
    eq_comm (a := (a++clientRoundsSuffix).take 63) (b := (b++roundsSuffix).take 63), hcross hb ha]
  constructor
  · rintro ⟨⟨-,har,hac⟩,⟨hbr,-,hacl⟩,hbc,hbcl,-⟩
    exact ⟨⟨har,hbr⟩,⟨hac,hbc⟩,hacl,hbcl⟩
  · rintro ⟨⟨har,hbr⟩,⟨hac,hbc⟩,hacl,hbcl⟩
    exact ⟨⟨htables,har,hac⟩,⟨hbr,hrounds,hacl⟩,hbc,hbcl,hclient⟩

end Names

namespace PostgresTables
variable {T : DebugText.Tables} {t u : String} {a b : PostgresTables}

theorem relations_of_connect (h : connectWithTable T t = .ok a) : a.relations = cuts (folded t) := by
  unfold connectWithTable at h
  split at h
  · obtain rfl := Except.ok.inj h
    have happend (s : String) : folded (t++s) = folded t++folded s := by
      rw [folded, String.toList_append, List.map_append]
      rfl
    simp only [relations, relation, happend]
    rfl
  · cases h

theorem relation_target (op : Operation) : relation (a.target op) ∈ a.relations := by
  cases op <;> simp [target, relations]

theorem isolated_iff_relations : a.Isolated b ↔
    a.relations.Nodup ∧ b.relations.Nodup ∧ a.relations.Disjoint b.relations := by
  constructor
  · exact fun h => ⟨h.left,h.right,h.disjoint⟩
  · rintro ⟨ha,hb,hab⟩
    refine ⟨ha,hb,hab,fun op op' h => ?_⟩
    exact hab (relation_target op) (h ▸ relation_target op')

/-- Two accepted names that denote different tables keep their stores apart exactly when both have
at most 61 characters and neither is, up to case, the other with one of the suffixes. -/
theorem isolated_iff (ha : connectWithTable T t = .ok a) (hb : connectWithTable T u = .ok b)
    (hne : relation t ≠ relation u) : a.Isolated b ↔
      t.toList.length ≤ 61 ∧ u.toList.length ≤ 61 ∧ Unsuffixed (folded t) (folded u) := by
  have hfolded : folded t ≠ folded u := fun h => hne (by rw [relation, h, relation])
  have hlen (s : String) : (folded s).length = s.toList.length := List.length_map _
  rw [isolated_iff_relations, relations_of_connect ha, relations_of_connect hb, nodup_cuts_iff,
    nodup_cuts_iff, hlen, hlen, and_congr_right_iff]
  refine fun hlt => and_congr_right fun hlu => disjoint_cuts_iff ?_ ?_ hfolded
  · rwa [hlen]
  · rwa [hlen]

theorem isolated_iff_twoRuns :
    (PostgresTables.mk "Run_A" "Run_A_privacy_rounds" "Run_A_client_privacy_rounds").Isolated
      ⟨"run_b","run_b_privacy_rounds","run_b_client_privacy_rounds"⟩ ↔
      "Run_A".toList.length ≤ 61 ∧ "run_b".toList.length ≤ 61 ∧
        Unsuffixed (folded "Run_A") (folded "run_b") :=
  isolated_iff (T := DebugText.marks) (t := "Run_A") (u := "run_b") (by decide +kernel)
    (by decide +kernel) (by decide +kernel)

/-- The privacy history of one store's clients is that of the other's rounds. -/
theorem not_isolated_client :
    let a : PostgresTables := ⟨"exp","exp_privacy_rounds","exp_client_privacy_rounds"⟩
    let b : PostgresTables :=
      ⟨"exp_client","exp_client_privacy_rounds","exp_client_client_privacy_rounds"⟩
    connectWithTable DebugText.marks "exp" = .ok a ∧
      connectWithTable DebugText.marks "exp_client" = .ok b ∧
      relation "exp" ≠ relation "exp_client" ∧ ¬a.Isolated b := by
  intro a b
  refine ⟨by decide +kernel,by decide +kernel,by decide +kernel,fun h => ?_⟩
  exact h.apart .loadClientRounds .loadRounds rfl

end PostgresTables
end ConfluxFL
