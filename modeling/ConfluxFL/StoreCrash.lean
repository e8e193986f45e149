import ConfluxFL.StoreHistory

/-! The directory when the process that writes it may die. A save writes a temporary sibling and
moves it into place, so what it leaves behind when it dies names no round. -/
namespace ConfluxFL
open LastWrite

/-- How one save ends: the filesystem carries it out or refuses it, or the process dies before it
has touched the directory, with the first `kept` bytes in the temporary file, or after the
rename. -/
inductive SaveEnd where
  | returns (fault : DiskFault)
  | diesBefore
  | diesWriting (kept : ℕ)
  | diesAfter

structure SaveCall where
  round : ℕ
  weights : List F32
  ending : SaveEnd

namespace SaveCall

/-- The call got through its rename. -/
def renames (c : SaveCall) : Bool :=
  match c.ending with
  | .returns fault => fault.write.isNone && fault.rename.isNone
  | .diesAfter => true
  | _ => false

/-- The saves that got through their rename. -/
def renamed (calls : List SaveCall) : List Save :=
  (calls.filter renames).map fun c => (c.round,c.weights)

end SaveCall

namespace FileStore

/-- What a save leaves in the directory. -/
def afterCall (s : FileStore) (c : SaveCall) : FileStore :=
  match c.ending with
  | .returns fault => (s.saveCheckpoint fault c.round c.weights).2
  | .diesBefore => s
  | .diesWriting kept => s.write (tmpName c.round) ((encodeWeights c.weights).take kept)
  | .diesAfter => (s.saveCheckpoint .never c.round c.weights).2

def afterCalls (s : FileStore) (calls : List SaveCall) : FileStore := Run.after afterCall s calls

variable {s : FileStore} {bound : ℕ} {h : History} {c : SaveCall}

theorem afterCall_of_renames (hc : c.renames = true) :
    s.afterCall c = (s.saveCheckpoint .never c.round c.weights).2 := by
  obtain ⟨round,weights,ending⟩ := c
  cases ending with
  | returns fault =>
    obtain ⟨write,rename⟩ := fault
    simp only [SaveCall.renames, Bool.and_eq_true, Option.isNone_iff_eq_none] at hc
    obtain ⟨rfl,rfl⟩ := hc
    rfl
  | diesAfter => rfl
  | diesBefore => cases hc
  | diesWriting kept => cases hc

/-- A call that does not get through its rename writes the temporary file or nothing. -/
theorem afterCall_of_not_renames (hc : c.renames = false) :
    s.afterCall c = s ∨ ∃ bytes, s.afterCall c = s.write (tmpName c.round) bytes := by
  obtain ⟨round,weights,ending⟩ := c
  cases ending with
  | returns fault =>
    obtain ⟨_ | ⟨source,bytes⟩,_ | source'⟩ := fault
    · cases hc
    · exact .inr ⟨_,rfl⟩
    · exact .inr ⟨_,rfl⟩
    · exact .inr ⟨_,rfl⟩
  | diesBefore => exact .inl rfl
  | diesWriting kept => exact .inr ⟨_,rfl⟩
  | diesAfter => cases hc

theorem FiledIn.writeTmp (hs : s.FiledIn bound h) (round : ℕ) (bytes : List UInt8) :
    (s.write (tmpName round) bytes).FiledIn bound h := by
  refine Filed.frame hs fun key hkey => KeyedTable.lookup_upsert_ne _ ?_ _
  rintro rfl
  exact hkey (roundOf_tmpName round)

theorem FiledIn.afterCall (hs : s.FiledIn bound h) (hr : c.round < bound) :
    (s.afterCall c).FiledIn bound (if c.renames then h.save (c.round,c.weights) else h) := by
  cases hc : c.renames with
  | true =>
    rw [afterCall_of_renames hc]
    exact hs.save hr c.weights
  | false =>
    obtain heq | ⟨bytes,heq⟩ := @afterCall_of_not_renames s c hc
    · rwa [heq]
    · rw [heq]
      exact hs.writeTmp c.round bytes

/-- After every call, the directory holds the saves that got through their rename. -/
theorem FiledIn.afterCalls {calls : List SaveCall} (hbound : ∀ c ∈ calls, c.round < bound)
    (hs : s.FiledIn bound h) :
    (s.afterCalls calls).FiledIn bound (Run.after History.save h (SaveCall.renamed calls)) := by
  induction calls generalizing s h with
  | nil => exact hs
  | cons c calls ih =>
    have hc := hs.afterCall (hbound c List.mem_cons_self)
    have hrest := ih (fun c' hc' => hbound c' (List.mem_cons_of_mem c hc')) hc
    cases hren : c.renames with
    | true => simpa [SaveCall.renamed, hren, FileStore.afterCalls] using hrest
    | false => simpa [SaveCall.renamed, hren, FileStore.afterCalls] using hrest

/-- Every reported round loads, each round loads the last save to it that got through its rename,
and the newest weights are those of the highest such round. -/
structure Consistent (s : FileStore) (saves : List Save) : Prop where
  keeps : KeepsAll saves s.listCheckpoints s.loadCheckpoint
  listed : ∀ r ∈ s.listCheckpoints, ∃ weights, s.loadCheckpoint r = .ok weights
  latest : ∀ save, Newest saves save → s.loadLatestWeights = .ok save.2
  latest_none_iff : s.loadLatestWeights = .error .noCheckpoint ↔ saves = []

theorem FiledIn.consistent {saves : List Save} (hs : s.FiledIn bound (History.of saves)) :
    s.Consistent saves := by
  have hserves := hs.serves
  have hlatest : ∀ save, Newest saves save → s.loadLatestWeights = .ok save.2 := by
    rintro ⟨r,weights⟩ ⟨hlast,htop⟩
    have hw : History.of saves r = some weights := History.of_eq_some_iff.mpr hlast
    refine hserves.latest_eq r weights ⟨by simp [hw],fun r' hr' => ?_⟩ hw
    obtain ⟨save,hmem,rfl⟩ := List.mem_map.mp (History.of_ne_none_iff.mp hr')
    exact htop save hmem
  refine ⟨hserves.keepsAll,fun r hr => ?_,hlatest,?_⟩
  · have hne := hs.mem_listCheckpoints_iff.mp hr
    obtain ⟨weights,hw⟩ := Option.ne_none_iff_exists'.mp hne
    refine ⟨weights,?_⟩
    rw [hserves.load_eq r (hs.lt hne), hw]
    rfl
  · constructor
    · intro hnone
      by_contra hsaves
      obtain ⟨save,hnewest,-⟩ := exists_newest hsaves
      rw [hlatest save hnewest] at hnone
      cases hnone
    · rintro rfl
      have hrounds : s.files.keys.filterMap roundOf = [] :=
        List.eq_nil_iff_forall_not_mem.mpr fun r hr => hs.mem_rounds.mp hr rfl
      rw [loadLatestWeights, latestRoundIn, hrounds]
      rfl

/-- After any saves, each of which may fail or die at any point, a directory that held no
checkpoint to begin with holds the saves that got through their rename, and nothing else is
seen of the others. -/
theorem crash_consistent (directory : FileStore)
    (hdirectory : ∀ name ∈ directory.files.keys, roundOf name = none) (calls : List SaveCall)
    (hbound : ∀ c ∈ calls, c.round < 2^64) :
    (directory.afterCalls calls).Consistent (SaveCall.renamed calls) := by
  have hempty : directory.FiledIn (2^64) fun _ => none :=
    Filed.empty le_rfl (fun _ hr => roundOf_checkpointName hr) hdirectory
  exact (hempty.afterCalls hbound).consistent

/-- Round 7 is saved, a second save to it dies half way, and one to round 9 before its rename. -/
theorem crash_consistent_halfWritten :
    let calls : List SaveCall := [⟨7,[F32.one,F32.zero],.diesAfter⟩,
      ⟨7,[F32.zero,F32.zero],.diesWriting 3⟩,⟨9,[F32.one],.diesWriting 4⟩]
    (afterCalls ⟨"checkpoints",.empty⟩ calls).Consistent (SaveCall.renamed calls) :=
  crash_consistent ⟨"checkpoints",.empty⟩ (fun _ h => absurd h List.not_mem_nil)
    [⟨7,[F32.one,F32.zero],.diesAfter⟩,⟨7,[F32.zero,F32.zero],.diesWriting 3⟩,
      ⟨9,[F32.one],.diesWriting 4⟩] (by simp)

end FileStore
end ConfluxFL
