import ConfluxFL.FileStore

/-! The places that turn weights into bytes and back. Each crate carries its own copy of the
codec; here every writer is paired with every reader. -/
namespace ConfluxFL

/-- The caller's error, as the sidecar reports it. -/
inductive Status where
  | invalidArgument (message : String)
  deriving DecidableEq, Repr

namespace TrustedReference

def decode (bytes : List UInt8) (field : String) : Except Status (List F32) :=
  if bytes.length % 4 = 0 then .ok (words bytes)
  else .error (.invalidArgument
    s!"{field} is {bytes.length} bytes, which is not a whole number of f32s")

def encode (weights : List F32) : List UInt8 := encodeWeights weights

end TrustedReference

namespace PostgresStore

def decode (bytes : List UInt8) (table : String) : Except StoreError (List F32) :=
  decodeCheckpoint s!"postgres table {table}" bytes

/-- What the store reads back. -/
example (s : PostgresStore) :
    s.loadLatestWeights = (s.rows.latest.elim (.error .noCheckpoint) fun row =>
      decode row.2 s.table) := by
  rw [loadLatestWeights]
  cases s.rows.latest <;> rfl

end PostgresStore

/-- Why some reader refused a byte string. -/
inductive CodecError where
  | weights (e : WeightsCodecError)
  | store (e : StoreError)
  | status (e : Status)
  deriving DecidableEq, Repr

/-- Whoever writes weights: the wire codec, a store filing a round, or the sidecar. -/
inductive Writer where
  | proto
  | file (s : FileStore) (round : ℕ)
  | postgres (s : PostgresStore) (round : ℕ)
  | s3 (s : S3Store) (round : ℕ)
  | trustedReference

/-- The bytes found where the writer leaves them. -/
def Writer.write (weights : List F32) : Writer → Option (List UInt8)
  | .proto => some (encodeWeights weights)
  | .file s round =>
    ((s.saveCheckpoint .never round weights).2.read (FileStore.checkpointName round)).toOption
  | .postgres s round => (s.saveCheckpoint round weights).rows.lookup (asI64 round)
  | .s3 s round => (s.saveCheckpoint round weights).objects.lookup (s.keyFor round)
  | .trustedReference => some (TrustedReference.encode weights)

/-- Whoever reads weights, with the name each puts in its error. -/
inductive Reader where
  | proto
  | file (path : String)
  | postgres (table : String)
  | s3 (s : S3Store) (round : ℕ)
  | trustedReference (field : String)

/-- What the reader makes of bytes it finds; the object store finds them under its own key. -/
def Reader.read (bytes : List UInt8) : Reader → Except CodecError (List F32)
  | .proto => (decodeWeights bytes).mapError .weights
  | .file path => (FileStore.readWeights path (.ok bytes)).mapError .store
  | .postgres table => (PostgresStore.decode bytes table).mapError .store
  | .s3 s round => (S3Store.fetch
      { s with objects := s.objects.upsert (s.keyFor round) bytes } round).mapError .store
  | .trustedReference field => (TrustedReference.decode bytes field).mapError .status

theorem Writer.write_eq (w : Writer) (weights : List F32) :
    w.write weights = some (encodeWeights weights) := by
  cases w with
  | proto => rfl
  | file s round => rw [write, FileStore.read_saveCheckpoint]; rfl
  | postgres s round => exact KeyedTable.lookup_upsert_self _ _ _
  | s3 s round => exact KeyedTable.lookup_upsert_self _ _ _
  | trustedReference => rfl

theorem S3Store.fetch_upsert (s : S3Store) (round : ℕ) (bytes : List UInt8) :
    S3Store.fetch { s with objects := s.objects.upsert (s.keyFor round) bytes } round =
      decodeCheckpoint (s.keyFor round) bytes := by
  have hk : (s.objects.upsert (s.keyFor round) bytes).lookup
      (keyFor { s with objects := s.objects.upsert (s.keyFor round) bytes } round) = some bytes :=
    KeyedTable.lookup_upsert_self _ _ _
  rw [fetch, hk]
  rfl

theorem mapError_ite {ε δ α : Type} {p : Prop} [Decidable p] (f : ε → δ) (a : α) (e : ε) :
    (if p then Except.ok a else Except.error e).mapError f =
      if p then .ok a else .error (f e) := by
  split <;> rfl

/-- A reader accepts whole words only, and reads them in order. -/
theorem Reader.read_eq (r : Reader) (bytes : List UInt8) :
    ∃ e, r.read bytes = if bytes.length % 4 = 0 then .ok (words bytes) else .error e := by
  cases r with
  | proto => exact ⟨_,mapError_ite _ _ _⟩
  | file path => exact ⟨_,mapError_ite _ _ _⟩
  | postgres table => exact ⟨_,mapError_ite _ _ _⟩
  | s3 s round =>
    rw [read, S3Store.fetch_upsert]
    exact ⟨_,mapError_ite _ _ _⟩
  | trustedReference field => exact ⟨_,mapError_ite _ _ _⟩

theorem Reader.read_of_dvd (r : Reader) {bytes : List UInt8} (h : 4 ∣ bytes.length) :
    r.read bytes = .ok (words bytes) := by
  obtain ⟨e,he⟩ := r.read_eq bytes
  rw [he, if_pos (Nat.dvd_iff_mod_eq_zero.mp h)]

theorem Reader.read_of_not_dvd (r : Reader) {bytes : List UInt8} (h : ¬4 ∣ bytes.length) :
    ∃ e, r.read bytes = .error e := by
  obtain ⟨e,he⟩ := r.read_eq bytes
  exact ⟨e,by rw [he, if_neg fun hm => h (Nat.dvd_iff_mod_eq_zero.mpr hm)]⟩

/-- What any writer leaves any reader reads back, every whole-word string is what some weights
are written as, and nothing else is read. -/
theorem codecs_agree (w : Writer) (r : Reader) :
    (∀ weights, ∃ bytes, w.write weights = some bytes ∧ r.read bytes = .ok weights) ∧
    (∀ bytes, 4 ∣ bytes.length →
      ∃ weights, r.read bytes = .ok weights ∧ w.write weights = some bytes) ∧
    (∀ bytes, (∃ e, r.read bytes = .error e) ↔ ¬4 ∣ bytes.length) ∧
    (∀ (w' : Writer) weights, w'.write weights = w.write weights) ∧
    ∀ (r' : Reader) bytes, (r'.read bytes).toOption = (r.read bytes).toOption := by
  refine ⟨fun weights => ?_,fun bytes hb => ?_,fun bytes => ⟨?_,r.read_of_not_dvd⟩,
    fun w' weights => ?_,fun r' bytes => ?_⟩
  · exact ⟨_,w.write_eq weights,
      by rw [r.read_of_dvd (dvd_length_encodeWeights weights), words_encodeWeights]⟩
  · exact ⟨_,r.read_of_dvd hb,by rw [w.write_eq, encodeWeights_words hb]⟩
  · rintro ⟨e,he⟩ hb
    rw [r.read_of_dvd hb] at he
    cases he
  · rw [w'.write_eq, w.write_eq]
  · by_cases hb : 4 ∣ bytes.length
    · rw [r'.read_of_dvd hb, r.read_of_dvd hb]
    · obtain ⟨e',he'⟩ := r'.read_of_not_dvd hb
      obtain ⟨e,he⟩ := r.read_of_not_dvd hb
      rw [he', he]
      rfl

end ConfluxFL
