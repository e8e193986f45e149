import Mathlib.Data.List.Dedup
import ConfluxFL.Privacy.Accountant

/-! The durable privacy log: one table of rounds and one of admitted clients, both in the order
of insertion, and the accountant that replaying them gives. -/
namespace ConfluxFL

structure PrivacyRoundLog where
  rounds : List RoundCost
  clientRounds : List (String × RoundCost)

namespace PrivacyRoundLog

def empty : PrivacyRoundLog := ⟨[],[]⟩

def appendRound (log : PrivacyRoundLog) (cost : RoundCost) : PrivacyRoundLog :=
  { log with rounds := log.rounds++[cost] }

def appendRoundForClient (log : PrivacyRoundLog) (clientId : String) (cost : RoundCost) :
    PrivacyRoundLog :=
  { log with clientRounds := log.clientRounds++[(clientId,cost)] }

/-- One client's rows, in insertion order. -/
def roundsOf (log : PrivacyRoundLog) (clientId : String) : List RoundCost :=
  (log.clientRounds.filter fun row => row.1 = clientId).map Prod.snd

/-- The rows grouped by client, as the loader returns them. -/
def loadClientRounds (log : PrivacyRoundLog) : List (String × List RoundCost) :=
  (log.clientRounds.map Prod.fst).dedup.map fun c => (c,log.roundsOf c)

/-- Replay of the whole log into a fresh accountant. -/
def connectAccounting (log : PrivacyRoundLog) : RdpAccountant :=
  let accountant := log.rounds.foldl RdpAccountant.recordRound RdpAccountant.new
  log.loadClientRounds.foldl
    (fun a entry => a.recordClients (entry.2.map fun cost => (entry.1,cost))) accountant

theorem foldl_recordRound_rounds (a : RdpAccountant) (costs : List RoundCost) :
    (costs.foldl RdpAccountant.recordRound a).rounds = a.rounds++costs := by
  induction costs generalizing a with
  | nil => simp
  | cons cost costs ih => simp [ih]

theorem foldl_recordRound_clientRounds (a : RdpAccountant) (costs : List RoundCost) :
    (costs.foldl RdpAccountant.recordRound a).clientRounds = a.clientRounds := by
  induction costs generalizing a with
  | nil => rfl
  | cons cost costs ih => exact (ih _).trans rfl

theorem foldl_recordClients (a : RdpAccountant) (entries : List (String × List RoundCost)) :
    entries.foldl (fun a entry => a.recordClients (entry.2.map fun cost => (entry.1,cost))) a =
      a.recordClients (entries.flatMap fun entry => entry.2.map fun cost => (entry.1,cost)) := by
  induction entries generalizing a with
  | nil => rfl
  | cons entry entries ih =>
    rw [List.foldl_cons, ih, List.flatMap_cons]
    simp only [RdpAccountant.recordClients, List.foldl_append]

/-- Among groups with distinct keys, exactly one group answers a key. -/
theorem filter_flatMap_groups (keys : List String) (h : keys.Nodup) (f : String → List RoundCost)
    (c : String) :
    ((keys.flatMap fun k => (f k).map fun cost => (k,cost)).filter fun row => row.1 = c).map
      Prod.snd = if c ∈ keys then f c else [] := by
  induction keys with
  | nil => simp
  | cons k keys ih =>
    obtain ⟨hk,hn⟩ := List.nodup_cons.mp h
    rw [List.flatMap_cons, List.filter_append, List.map_append, ih hn]
    by_cases hc : c = k
    · subst hc
      simp [hk, List.filter_map, Function.comp_def]
    · have hkc : ¬k = c := fun he => hc he.symm
      simp [hc, hkc, List.filter_map, Function.comp_def]

@[simp] theorem connectAccounting_rounds (log : PrivacyRoundLog) :
    log.connectAccounting.rounds = log.rounds := by
  rw [connectAccounting, foldl_recordClients, RdpAccountant.recordClients_rounds,
    foldl_recordRound_rounds]
  rfl

/-- Replay restores every client's history. -/
@[simp] theorem connectAccounting_clientRounds (log : PrivacyRoundLog) (c : String) :
    log.connectAccounting.clientRounds c = log.roundsOf c := by
  rw [connectAccounting, foldl_recordClients, RdpAccountant.recordClients_clientRounds,
    foldl_recordRound_clientRounds, loadClientRounds, List.flatMap_map]
  have hg := filter_flatMap_groups _ (log.clientRounds.map Prod.fst).nodup_dedup log.roundsOf c
  refine (List.nil_append _).trans (hg.trans ?_)
  split_ifs with h
  · rfl
  · symm
    rw [List.mem_dedup, List.mem_map, not_exists] at h
    rw [roundsOf, List.map_eq_nil_iff, List.filter_eq_nil_iff]
    intro row hrow hc
    exact h row ⟨hrow,by simpa using hc⟩

end PrivacyRoundLog
end ConfluxFL
