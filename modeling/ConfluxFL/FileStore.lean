import ConfluxFL.Store

/-! The checkpoint store over a local directory: one file per round, written to a temporary
sibling and renamed into place. The filesystem may refuse any call. -/
namespace ConfluxFL

/-- A directory's regular files by name. -/
structure FileStore where
  dir : String
  files : KeyedTable String (List UInt8)

/-- What the filesystem refuses during one save. A refused write leaves the bytes it got
through in the file; a refused rename changes nothing. -/
structure DiskFault where
  write : Option (String × List UInt8)
  rename : Option String

def DiskFault.never : DiskFault := ⟨none,none⟩

namespace FileStore

/-- Joining adds a separator unless the directory ends in one or is empty. -/
def join (dir name : String) : String :=
  if dir = "" ∨ dir.toList.getLast? = some '/' then dir++name else dir++"/"++name

def checkpointName (round : ℕ) : String := "checkpoint-"++(toString round++".bin")
def tmpName (round : ℕ) : String := checkpointName round++".tmp"
def checkpointPathIn (dir : String) (round : ℕ) : String := join dir (checkpointName round)

/-- The round a file name stands for, if it is a checkpoint's. -/
def roundOf (name : String) : Option ℕ :=
  (Decimal.stripPrefix "checkpoint-" name).bind fun rest =>
    (Decimal.stripSuffix ".bin" rest).bind Decimal.parseU64

def roundsIn (s : FileStore) : List ℕ := StableSort.sortBy id (s.files.keys.filterMap roundOf)

def latestRoundIn (s : FileStore) : Option ℕ :=
  (s.files.keys.filterMap roundOf).foldl (fun latest round => some (latest.elim round (max · round)))
    none

/-- Decoding what a read of `path` returned. -/
def readWeights (path : String) : Except String (List UInt8) → Except StoreError (List F32)
  | .ok bytes => decodeCheckpoint path bytes
  | .error source => .error (.io path source)

/-- The contents of a file, or the system's refusal to open a missing one. -/
def read (s : FileStore) (name : String) : Except String (List UInt8) :=
  match s.files.lookup name with
  | some bytes => .ok bytes
  | none => .error "No such file or directory (os error 2)"

def loadCheckpointFile (s : FileStore) (round : ℕ) : Except StoreError (List F32) :=
  readWeights (checkpointPathIn s.dir round) (s.read (checkpointName round))

def loadLatestWeights (s : FileStore) : Except StoreError (List F32) :=
  match s.latestRoundIn with
  | some round => s.loadCheckpointFile round
  | none => .error .noCheckpoint

def listCheckpoints (s : FileStore) : List ℕ := s.roundsIn

def loadCheckpoint (s : FileStore) (round : ℕ) : Except StoreError (List F32) :=
  if checkpointName round ∈ s.files.keys then s.loadCheckpointFile round
  else .error .noCheckpoint

def write (s : FileStore) (name : String) (bytes : List UInt8) : FileStore :=
  { s with files := s.files.upsert name bytes }

/-- Moving one file over another. -/
def rename (s : FileStore) (source target : String) : FileStore :=
  match s.files.lookup source with
  | some bytes => { s with files := (s.files.retain fun row => row.1 ≠ source).upsert target bytes }
  | none => s

def saveCheckpoint (s : FileStore) (fault : DiskFault) (round : ℕ) (weights : List F32) :
    Except StoreError Unit × FileStore :=
  let path := checkpointPathIn s.dir round
  match fault.write with
  | some (source,bytes) => (.error (.io path source),s.write (tmpName round) bytes)
  | none =>
    let written := s.write (tmpName round) (encodeWeights weights)
    match fault.rename with
    | some source => (.error (.io path source),written)
    | none => (.ok (),written.rename (tmpName round) (checkpointName round))

/-- A save the filesystem carries out leaves the encoding under the round's name. -/
theorem read_saveCheckpoint (s : FileStore) (round : ℕ) (weights : List F32) :
    (s.saveCheckpoint .never round weights).2.read (checkpointName round) =
      .ok (encodeWeights weights) := by
  have hw : (s.write (tmpName round) (encodeWeights weights)).files.lookup (tmpName round) =
      some (encodeWeights weights) := KeyedTable.lookup_upsert_self _ _ _
  simp only [saveCheckpoint, DiskFault.never, rename, hw, read, KeyedTable.lookup_upsert_self]

end FileStore
end ConfluxFL
