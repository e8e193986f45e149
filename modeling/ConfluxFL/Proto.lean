import ConfluxFL.Lib.F32

/-! Wire messages and the weight codec: a weight vector is its little-endian `f32` words, four
bytes each, with no header, and a byte string decodes exactly when its length allows it. -/
namespace ConfluxFL

/-- One client's update for a round. -/
structure ClientDelta where
  clientId : String
  round : ℕ
  weights : List UInt8
  numSamples : ℕ
  localSteps : Option ℕ
  controlVariate : Option (List UInt8)
  localLoss : Option F32
  deriving DecidableEq, Repr

/-- One slice of a submission on the wire. -/
structure DeltaChunk where
  clientId : String
  round : ℕ
  chunkIndex : ℕ
  totalChunks : ℕ
  data : List UInt8
  numSamples : ℕ
  localSteps : Option ℕ
  controlVariate : Option (List UInt8)
  localLoss : Option F32
  deriving DecidableEq, Repr

/-- What a client is given to train on. -/
structure TaskResponse where
  taskId : String
  round : ℕ
  modelWeights : List UInt8
  controlVariate : Option (List UInt8)
  deriving DecidableEq, Repr

/-- The server's answer to a submission. -/
structure SubmitAck where
  accepted : Bool
  message : String
  deriving DecidableEq, Repr

/-- The server's answer to a registration. -/
structure RegisterResponse where
  accepted : Bool
  message : String
  deriving DecidableEq, Repr

/-- Why a dispatcher refuses a call. -/
inductive DispatchError where
  | unknownClient (id : String)
  | notAllowed (id : String)
  | unauthenticated (message : String)
  | roundClosed
  | other (message : String)
  deriving DecidableEq, Repr

inductive WeightsCodecError where
  | malformed (len : ℕ)
  deriving DecidableEq, Repr

def WeightsCodecError.text : WeightsCodecError → String
  | .malformed len => s!"weights buffer has {len} bytes, which is not a multiple of 4"

def encodeWeights (weights : List F32) : List UInt8 := weights.flatMap F32.toLeBytes

/-- Consecutive groups of four bytes, each read as one value. -/
def words : List UInt8 → List F32
  | a::b::c::d::bytes => F32.fromLeBytes a b c d::words bytes
  | _ => []

def decodeWeights (bytes : List UInt8) : Except WeightsCodecError (List F32) :=
  if bytes.length % 4 = 0 then .ok (words bytes) else .error (.malformed bytes.length)

theorem encodeWeights_cons (w : F32) (ws : List F32) :
    encodeWeights (w::ws) = w.leByte 0::w.leByte 1::w.leByte 2::w.leByte 3::encodeWeights ws :=
  rfl

theorem length_encodeWeights (ws : List F32) : (encodeWeights ws).length = 4*ws.length := by
  induction ws with
  | nil => rfl
  | cons w ws ih =>
    simp only [encodeWeights_cons, List.length_cons, ih]
    omega

theorem dvd_length_encodeWeights (ws : List F32) : 4 ∣ (encodeWeights ws).length := by
  rw [length_encodeWeights]
  exact dvd_mul_right 4 _

theorem words_encodeWeights (ws : List F32) : words (encodeWeights ws) = ws := by
  induction ws with
  | nil => rfl
  | cons w ws ih => rw [encodeWeights_cons, words, F32.fromLeBytes_leByte, ih]

@[simp] theorem decodeWeights_encodeWeights (ws : List F32) :
    decodeWeights (encodeWeights ws) = .ok ws := by
  have h : (encodeWeights ws).length % 4 = 0 := by rw [length_encodeWeights]; omega
  rw [decodeWeights, if_pos h, words_encodeWeights]

/-- Every byte string of whole words is the encoding of its words. -/
theorem encodeWeights_words {bytes : List UInt8} (h : 4 ∣ bytes.length) :
    encodeWeights (words bytes) = bytes := by
  induction bytes using words.induct with
  | case1 a b c d bytes ih =>
    have hl : 4 ∣ bytes.length := by
      simp only [List.length_cons] at h
      omega
    rw [words, encodeWeights, List.flatMap_cons, F32.toLeBytes_fromLeBytes]
    exact congrArg (fun rest => a::b::c::d::rest) (ih hl)
  | case2 bytes hb =>
    rcases bytes with _ | ⟨a,_ | ⟨b,_ | ⟨c,_ | ⟨d,bytes⟩⟩⟩⟩
    · rfl
    all_goals simp at h
    exact absurd rfl (hb a b c d bytes)

theorem encodeWeights_append (ws vs : List F32) :
    encodeWeights (ws++vs) = encodeWeights ws++encodeWeights vs := List.flatMap_append

/-- The first bytes of an encoding are the encoding of the first weights. -/
theorem take_encodeWeights (ws : List F32) (k : ℕ) :
    (encodeWeights ws).take (4*k) = encodeWeights (ws.take k) := by
  by_cases hk : k ≤ ws.length
  · conv_lhs => rw [← List.take_append_drop k ws, encodeWeights_append]
    apply List.take_left'
    rw [length_encodeWeights, List.length_take, Nat.min_eq_left hk]
  · have hlen : (encodeWeights ws).length ≤ 4*k := by
      rw [length_encodeWeights]
      omega
    rw [List.take_of_length_le hlen, List.take_of_length_le (by omega)]

/-- Cut between two words, a byte string is read piece by piece. -/
theorem words_append {bytes : List UInt8} (h : 4 ∣ bytes.length) (rest : List UInt8) :
    words (bytes++rest) = words bytes++words rest := by
  obtain ⟨ws,rfl⟩ : ∃ ws, encodeWeights ws = bytes := ⟨words bytes,encodeWeights_words h⟩
  rw [words_encodeWeights]
  induction ws with
  | nil => rfl
  | cons w ws ih =>
    rw [encodeWeights_cons, List.cons_append, List.cons_append, List.cons_append,
      List.cons_append, words, ih (dvd_length_encodeWeights ws), F32.fromLeBytes_leByte,
      List.cons_append]

theorem words_flatMap {α : Type} (f : α → List UInt8) {l : List α}
    (h : ∀ a ∈ l, 4 ∣ (f a).length) : words (l.flatMap f) = l.flatMap fun a => words (f a) := by
  induction l with
  | nil => rfl
  | cons a l ih =>
    rw [List.flatMap_cons, words_append (h a List.mem_cons_self), List.flatMap_cons,
      ih fun b hb => h b (List.mem_cons_of_mem a hb)]

theorem encodeWeights_injective : Function.Injective encodeWeights := by
  intro ws vs h
  rw [← words_encodeWeights ws, h, words_encodeWeights]

end ConfluxFL
