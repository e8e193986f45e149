import ConfluxFL.Lib.F32

/-! The accountant's two histories: one entry per round of the experiment, and one entry per
round a client was admitted to. Only raw parameters are kept, never a running total. -/
namespace ConfluxFL

/-- What one round cost: the pair the accountant and its log record. -/
structure RoundCost where
  noiseMultiplier : F32
  sampleRate : F32
  deriving DecidableEq, Repr

/-- A client that was never recorded has the empty history. -/
structure RdpAccountant where
  rounds : List RoundCost
  clientRounds : String → List RoundCost

namespace RdpAccountant

def new : RdpAccountant := ⟨[],fun _ => []⟩

def recordRound (a : RdpAccountant) (cost : RoundCost) : RdpAccountant :=
  { a with rounds := a.rounds++[cost] }

def recordRoundForClient (a : RdpAccountant) (clientId : String) (cost : RoundCost) :
    RdpAccountant :=
  { a with clientRounds := fun c => if c = clientId then a.clientRounds c++[cost]
                                    else a.clientRounds c }

/-- Record one round for each entry of a list of clients, in order. -/
def recordClients (a : RdpAccountant) (rows : List (String × RoundCost)) : RdpAccountant :=
  rows.foldl (fun a row => a.recordRoundForClient row.1 row.2) a

@[simp] theorem recordRound_rounds (a : RdpAccountant) (cost : RoundCost) :
    (a.recordRound cost).rounds = a.rounds++[cost] := rfl
@[simp] theorem recordRound_clientRounds (a : RdpAccountant) (cost : RoundCost) :
    (a.recordRound cost).clientRounds = a.clientRounds := rfl
@[simp] theorem recordRoundForClient_rounds (a : RdpAccountant) (c : String)
    (cost : RoundCost) : (a.recordRoundForClient c cost).rounds = a.rounds := rfl

@[simp] theorem recordClients_rounds (a : RdpAccountant) (rows : List (String × RoundCost)) :
    (a.recordClients rows).rounds = a.rounds := by
  induction rows generalizing a with
  | nil => rfl
  | cons row rows ih => exact (ih _).trans rfl

/-- A client's history grows by its own entries and by nothing else. -/
theorem recordClients_clientRounds (a : RdpAccountant) (rows : List (String × RoundCost))
    (c : String) : (a.recordClients rows).clientRounds c =
      a.clientRounds c++(rows.filter fun row => row.1 = c).map Prod.snd := by
  induction rows generalizing a with
  | nil => simp [recordClients]
  | cons row rows ih =>
    change ((a.recordRoundForClient row.1 row.2).recordClients rows).clientRounds c = _
    rw [ih]
    by_cases h : row.1 = c
    · subst h
      simp [recordRoundForClient]
    · have hc : ¬c = row.1 := fun he => h he.symm
      simp [recordRoundForClient, h, hc]

end RdpAccountant
end ConfluxFL
