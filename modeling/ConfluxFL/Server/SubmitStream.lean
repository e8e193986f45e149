import ConfluxFL.Lib.Fallible
import ConfluxFL.Server.Dispatcher

/-! The service in front of the dispatcher: it gathers a client's whole stream and cuts it as
soon as the payload is over the limit. The running total is a 64-bit counter that saturates; what
it counts is in memory, so it never gets there. -/
namespace ConfluxFL

inductive SubmitError where
  | updateTooLarge (clientId : String) (limitBytes receivedBytes : ℕ)
  /-- The stream itself broke off. -/
  | stream (status : String)
  | dispatch (e : DispatchError)
  deriving DecidableEq, Repr

/-- The bytes of both payload fields. -/
def DeltaChunk.payloadBytes (c : DeltaChunk) : ℕ :=
  c.data.length+(c.controlVariate.map List.length).getD 0

/-- Adding to a `u64` that stays at its greatest value. -/
def saturatingAdd (a b : ℕ) : ℕ := min (a+b) (2^64-1)

/-- What has been gathered, and the running total. -/
structure Gathered where
  chunks : List DeltaChunk
  receivedBytes : ℕ
  deriving DecidableEq, Repr

namespace Gathered

def empty : Gathered := ⟨[],0⟩

/-- The payload that is held in memory. -/
def heldBytes (s : Gathered) : ℕ := (s.chunks.map DeltaChunk.payloadBytes).sum

/-- One turn of the loop: count the chunk, and keep it if the total is within the limit. -/
def receive (maxUpdateBytes : UInt64) (s : Gathered) (c : DeltaChunk) :
    Except SubmitError Gathered :=
  let receivedBytes := saturatingAdd s.receivedBytes c.payloadBytes
  if maxUpdateBytes.toNat < receivedBytes then
    .error (.updateTooLarge c.clientId maxUpdateBytes.toNat receivedBytes)
  else .ok ⟨s.chunks++[c],receivedBytes⟩

/-- Read messages until the stream ends, breaks off or is cut. -/
def collect (maxUpdateBytes : UInt64) :
    Gathered → List (Except String DeltaChunk) → Except SubmitError Gathered
  | s, [] => .ok s
  | _, .error status::_ => .error (.stream status)
  | s, .ok c::rest => do collect maxUpdateBytes (← s.receive maxUpdateBytes c) rest

end Gathered

/-- The chunks of a stream that ended within the limit. -/
def gatherStream (maxUpdateBytes : UInt64) (messages : List (Except String DeltaChunk)) :
    Except SubmitError (List DeltaChunk) :=
  (Gathered.empty.collect maxUpdateBytes messages).map Gathered.chunks

/-- `FlTransportService::submit_delta`: the dispatcher is given what was gathered. -/
def serviceSubmitDelta (maxUpdateBytes : UInt64)
    (dispatch : List DeltaChunk → Except DispatchError SubmitAck)
    (messages : List (Except String DeltaChunk)) : Except SubmitError SubmitAck := do
  let chunks ← gatherStream maxUpdateBytes messages
  (dispatch chunks).mapError .dispatch

/-- The payload of a list of chunks. -/
def payloadOf (chunks : List DeltaChunk) : ℕ := (chunks.map DeltaChunk.payloadBytes).sum

/-- Every prefix of the chunks is within the limit. -/
def WithinLimit (maxUpdateBytes : UInt64) (chunks : List DeltaChunk) : Prop :=
  ∀ pre, pre <+: chunks → payloadOf pre ≤ maxUpdateBytes.toNat

/-- The stream as it stands while it neither ends nor breaks off. -/
def messagesOf (chunks : List DeltaChunk) : List (Except String DeltaChunk) := chunks.map .ok

/-- The chunks that were kept and the one just received are in memory together, so 64 bits
count their bytes. -/
def FitsInMemory (maxUpdateBytes : UInt64) (chunks : List DeltaChunk) : Prop :=
  ∀ pre c, pre++[c] <+: chunks →
    (∃ s, Gathered.empty.collect maxUpdateBytes (messagesOf pre) = .ok s) →
    payloadOf (pre++[c]) < 2^64

/-- What a limit on submissions is to do to a stream. It is cut at the first chunk that goes over
it, whatever would have come after; what is held never does; the dispatcher gets the chunks as
they came exactly when no prefix does; and the counter is the payload. -/
structure BoundsSubmission (maxUpdateBytes : UInt64) (chunks : List DeltaChunk) : Prop where
  cuts : ∀ pre c rest, pre++[c] <+: chunks → WithinLimit maxUpdateBytes pre →
    maxUpdateBytes.toNat < payloadOf (pre++[c]) →
      gatherStream maxUpdateBytes (messagesOf pre++.ok c::rest) =
        .error (.updateTooLarge c.clientId maxUpdateBytes.toNat (payloadOf (pre++[c])))
  holds : ∀ pre s, pre <+: chunks →
    Gathered.empty.collect maxUpdateBytes (messagesOf pre) = .ok s →
      s.heldBytes ≤ maxUpdateBytes.toNat
  passes : ∀ passed, gatherStream maxUpdateBytes (messagesOf chunks) = .ok passed ↔
    passed = chunks ∧ WithinLimit maxUpdateBytes chunks
  delivers : ∀ dispatch, WithinLimit maxUpdateBytes chunks →
    serviceSubmitDelta maxUpdateBytes dispatch (messagesOf chunks) =
      (dispatch chunks).mapError .dispatch
  breaks : ∀ status rest, WithinLimit maxUpdateBytes chunks →
    gatherStream maxUpdateBytes (messagesOf chunks++.error status::rest) =
      .error (.stream status)
  counts : ∀ pre s, pre <+: chunks →
    Gathered.empty.collect maxUpdateBytes (messagesOf pre) = .ok s →
      s.receivedBytes = payloadOf pre

section Counter
variable {maxUpdateBytes : UInt64} {s t : Gathered} {chunks : List DeltaChunk} {c : DeltaChunk}

/-- The counter is the payload that is held, or the greatest it can be. -/
def Gathered.Counts (s : Gathered) : Prop := s.receivedBytes = min s.heldBytes (2^64-1)

theorem heldBytes_eq (s : Gathered) : s.heldBytes = payloadOf s.chunks := rfl

theorem payloadOf_append (xs ys : List DeltaChunk) :
    payloadOf (xs++ys) = payloadOf xs+payloadOf ys := by
  rw [payloadOf, List.map_append, List.sum_append]
  rfl

theorem payloadOf_singleton (c : DeltaChunk) : payloadOf [c] = c.payloadBytes := by
  simp [payloadOf]

namespace Gathered

theorem saturatingAdd_of_counts (h : s.Counts) (c : DeltaChunk) :
    saturatingAdd s.receivedBytes c.payloadBytes = min (payloadOf (s.chunks++[c])) (2^64-1) := by
  rw [saturatingAdd, h, heldBytes_eq, payloadOf_append, payloadOf_singleton]
  omega

/-- A chunk is kept exactly when the counter stays within the limit. -/
theorem receive_of_counts (h : s.Counts) (c : DeltaChunk) : s.receive maxUpdateBytes c =
    if maxUpdateBytes.toNat < min (payloadOf (s.chunks++[c])) (2^64-1) then
      .error (.updateTooLarge c.clientId maxUpdateBytes.toNat
        (min (payloadOf (s.chunks++[c])) (2^64-1)))
    else .ok ⟨s.chunks++[c],min (payloadOf (s.chunks++[c])) (2^64-1)⟩ := by
  simp only [receive, saturatingAdd_of_counts h]

theorem counts_receive (h : s.Counts) (ht : s.receive maxUpdateBytes c = .ok t) :
    t.Counts ∧ t.chunks = s.chunks++[c] := by
  rw [receive_of_counts h] at ht
  split_ifs at ht
  obtain rfl := Except.ok.inj ht
  exact ⟨rfl,rfl⟩

/-- What is gathered is what came, with the counter to it. -/
theorem collect_ok (h : s.Counts)
    (ht : s.collect maxUpdateBytes (messagesOf chunks) = .ok t) :
    t.Counts ∧ t.chunks = s.chunks++chunks := by
  induction chunks generalizing s with
  | nil =>
    obtain rfl := Except.ok.inj ht
    exact ⟨h,(List.append_nil _).symm⟩
  | cons c chunks ih =>
    obtain ⟨s',hs',ht⟩ := Fallible.except_bind_ok_iff.mp ht
    obtain ⟨hcounts,hchunks⟩ := counts_receive h hs'
    obtain ⟨htc,hchunks'⟩ := ih hcounts ht
    refine ⟨htc,?_⟩
    rw [hchunks', hchunks, List.append_assoc, List.singleton_append]

/-- The stream is read to its end exactly when the counter stays within the limit throughout. -/
theorem collect_isOk_iff (h : s.Counts) :
    (∃ t, s.collect maxUpdateBytes (messagesOf chunks) = .ok t) ↔
      ∀ pre, pre <+: chunks → pre ≠ [] →
        min (payloadOf (s.chunks++pre)) (2^64-1) ≤ maxUpdateBytes.toNat := by
  induction chunks generalizing s with
  | nil =>
    refine iff_of_true ⟨s,rfl⟩ fun pre hpre hne => ?_
    exact absurd (List.prefix_nil.mp hpre) hne
  | cons c chunks ih =>
    have hcollect : s.collect maxUpdateBytes (messagesOf (c::chunks)) =
        (s.receive maxUpdateBytes c).bind fun s' =>
          s'.collect maxUpdateBytes (messagesOf chunks) := rfl
    rw [hcollect]
    cases hs : s.receive maxUpdateBytes c with
    | error e =>
      refine iff_of_false (fun ⟨t,ht⟩ => by cases ht) fun hall => ?_
      have hfirst := hall [c] (List.prefix_cons_inj c |>.mpr List.nil_prefix)
        (List.cons_ne_nil _ _)
      rw [receive_of_counts h, if_neg (not_lt.mpr hfirst)] at hs
      cases hs
    | ok s' =>
      obtain ⟨hcounts,hchunks⟩ := counts_receive h hs
      refine (ih hcounts).trans ?_
      rw [hchunks]
      constructor
      · intro hall pre hpre hne
        cases pre with
        | nil => exact absurd rfl hne
        | cons c' pre =>
          obtain ⟨rfl,htail⟩ := List.cons_prefix_cons.mp hpre
          by_cases hnil : pre = []
          · subst hnil
            rw [receive_of_counts h] at hs
            split_ifs at hs with hlt
            exact not_lt.mp hlt
          · have hrest := hall pre htail hnil
            rwa [List.append_assoc, List.singleton_append] at hrest
      · intro hall pre hpre hne
        rw [List.append_assoc, List.singleton_append]
        exact hall (c::pre) (List.cons_prefix_cons.mpr ⟨rfl,hpre⟩) (List.cons_ne_nil _ _)

theorem collect_append (s : Gathered) (chunks : List DeltaChunk)
    (rest : List (Except String DeltaChunk)) :
    s.collect maxUpdateBytes (messagesOf chunks++rest) =
      (s.collect maxUpdateBytes (messagesOf chunks)).bind fun t =>
        t.collect maxUpdateBytes rest := by
  induction chunks generalizing s with
  | nil => rfl
  | cons c chunks ih =>
    change (s.receive maxUpdateBytes c).bind _ = ((s.receive maxUpdateBytes c).bind _).bind _
    cases s.receive maxUpdateBytes c with
    | error e => rfl
    | ok s' => exact ih s'

end Gathered

theorem counts_empty : Gathered.empty.Counts := rfl

theorem FitsInMemory.of_prefix {pre : List DeltaChunk} (h : FitsInMemory maxUpdateBytes chunks)
    (hpre : pre <+: chunks) : FitsInMemory maxUpdateBytes pre :=
  fun p c hp => h p c (hp.trans hpre)

theorem payloadOf_le_of_initial {pre : List DeltaChunk} (h : pre <+: chunks) :
    payloadOf pre ≤ payloadOf chunks := by
  obtain ⟨post,rfl⟩ := h
  rw [payloadOf_append]
  exact Nat.le_add_right _ _

/-- A payload that 64 bits count as a whole fits at every point. -/
theorem fitsInMemory_of_payloadOf_lt (h : payloadOf chunks < 2^64) :
    FitsInMemory maxUpdateBytes chunks :=
  fun _ _ hp _ => (payloadOf_le_of_initial hp).trans_lt h

theorem collect_of_initial {pre : List DeltaChunk} (hpre : pre <+: chunks)
    (h : ∃ s, Gathered.empty.collect maxUpdateBytes (messagesOf chunks) = .ok s) :
    ∃ s, Gathered.empty.collect maxUpdateBytes (messagesOf pre) = .ok s := by
  rw [Gathered.collect_isOk_iff counts_empty] at h ⊢
  exact fun p hp => h p (hp.trans hpre)

section Fits
variable (hfit : FitsInMemory maxUpdateBytes chunks)
include hfit

/-- The payload of a stream that was read fits the counter. -/
theorem payloadOf_lt_of_collect
    (h : ∃ s, Gathered.empty.collect maxUpdateBytes (messagesOf chunks) = .ok s) :
    payloadOf chunks < 2^64 := by
  rcases List.eq_nil_or_concat chunks with rfl | ⟨pre,c,rfl⟩
  · decide
  · rw [List.concat_eq_append] at hfit h ⊢
    exact hfit pre c (List.prefix_refl _) (collect_of_initial (List.prefix_append pre [c]) h)

/-- Being within the limit is what the counter says. -/
theorem withinLimit_iff : WithinLimit maxUpdateBytes chunks ↔
    ∃ s, Gathered.empty.collect maxUpdateBytes (messagesOf chunks) = .ok s := by
  constructor
  · intro hall
    rw [Gathered.collect_isOk_iff counts_empty]
    exact fun pre hpre _ => (min_le_left _ _).trans (hall pre hpre)
  · intro h pre hpre
    have hlt := payloadOf_lt_of_collect (hfit.of_prefix hpre) (collect_of_initial hpre h)
    by_cases hne : pre = []
    · subst hne
      exact Nat.zero_le _
    · have hle : min (payloadOf pre) (2^64-1) ≤ maxUpdateBytes.toNat :=
        (Gathered.collect_isOk_iff counts_empty).mp h pre hpre hne
      omega

theorem gatherStream_ok_iff (passed : List DeltaChunk) :
    gatherStream maxUpdateBytes (messagesOf chunks) = .ok passed ↔
      passed = chunks ∧ WithinLimit maxUpdateBytes chunks := by
  rw [withinLimit_iff hfit, gatherStream]
  cases hs : Gathered.empty.collect maxUpdateBytes (messagesOf chunks) with
  | error e => exact iff_of_false nofun fun h => by obtain ⟨-,s,hs⟩ := h; cases hs
  | ok s =>
    have hchunks : s.chunks = chunks := (Gathered.collect_ok counts_empty hs).2
    constructor
    · intro h
      exact ⟨(Except.ok.inj h).symm.trans hchunks,s,rfl⟩
    · rintro ⟨rfl,-⟩
      exact congrArg Except.ok hchunks

end Fits

end Counter

/-- The limit bounds every stream, whatever the limit is. -/
theorem boundsSubmission (maxUpdateBytes : UInt64) (chunks : List DeltaChunk)
    (hfit : FitsInMemory maxUpdateBytes chunks) : BoundsSubmission maxUpdateBytes chunks := by
  constructor
  · intro pre c rest hpre hwithin hover
    have hfits := hfit.of_prefix ((List.prefix_append pre [c]).trans hpre)
    obtain ⟨s,hs⟩ := (withinLimit_iff hfits).mp hwithin
    have hlt := hfit pre c hpre ⟨s,hs⟩
    obtain ⟨hcounts,hchunks⟩ := Gathered.collect_ok counts_empty hs
    have hs' : s.chunks = pre := hchunks
    rw [gatherStream, Gathered.collect_append, hs]
    change ((s.receive maxUpdateBytes c).bind _).map _ = _
    rw [Gathered.receive_of_counts hcounts, hs', min_eq_left (by omega), if_pos hover]
    rfl
  · intro pre s hpre hs
    rw [heldBytes_eq, (Gathered.collect_ok counts_empty hs).2]
    exact (withinLimit_iff (hfit.of_prefix hpre)).mpr ⟨s,hs⟩ _ (List.prefix_refl _)
  · exact gatherStream_ok_iff hfit
  · intro dispatch hwithin
    rw [serviceSubmitDelta, (gatherStream_ok_iff hfit chunks).mpr ⟨rfl,hwithin⟩]
    rfl
  · intro status rest hwithin
    obtain ⟨s,hs⟩ := (withinLimit_iff hfit).mp hwithin
    rw [gatherStream, Gathered.collect_append, hs]
    rfl
  · intro pre s hpre hs
    obtain ⟨hcounts,hchunks⟩ := Gathered.collect_ok counts_empty hs
    have hlt := payloadOf_lt_of_collect (hfit.of_prefix hpre) ⟨s,hs⟩
    rw [hcounts, heldBytes_eq, hchunks]
    exact min_eq_left (by rw [Gathered.empty, List.nil_append]; omega)

/-- A chunk with so many bytes of weights and of control variate. -/
def chunkOfLengths (data variate : ℕ) : DeltaChunk :=
  { clientId := "client", round := 1, chunkIndex := 0, totalChunks := 1,
    data := List.replicate data 0, numSamples := 1, localSteps := none,
    controlVariate := some (List.replicate variate 0), localLoss := none }

/-- Twelve bytes against a limit of eight, half of them control variates. -/
theorem boundsSubmission_twelveBytes : BoundsSubmission 8
    [chunkOfLengths 2 2,chunkOfLengths 2 2,chunkOfLengths 2 2] :=
  boundsSubmission 8 _ (fitsInMemory_of_payloadOf_lt (by decide))

end ConfluxFL
