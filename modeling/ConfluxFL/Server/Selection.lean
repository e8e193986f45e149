import Mathlib.Data.Nat.ModEq
import ConfluxFL.Registries
import ConfluxFL.Server.Sampling

/-! The uniform selector. It samples positions of the listing it is given, so with a fixed seed
it is the listing that decides who is behind a position; two registries that hold the same
clients need not list them in the same order. -/
namespace ConfluxFL

/-- Sampling from a slice without repetition: the positions drawn depend on the generator's seed
and the length of the slice, are distinct, and are as many as asked for or as there are. -/
structure Sampler where
  draw : (seed len amount : ℕ) → List ℕ
  length_draw : ∀ seed len amount, (draw seed len amount).length = min amount len
  nodup_draw : ∀ seed len amount, (draw seed len amount).Nodup
  lt_of_mem_draw : ∀ {seed len amount i}, i ∈ draw seed len amount → i < len

inductive SelectionSeed where
  | fixed (seed : ℕ)
  | osRandom

/-- The seed of one round's generator. -/
def SelectionSeed.rngSeed (entropy round : ℕ) : SelectionSeed → ℕ
  | .fixed seed => (seed+round) % 2^64
  | .osRandom => entropy

/-- The entries at some positions of a listing. -/
def entriesAt (listing : List String) (positions : List ℕ) : List String :=
  positions.filterMap fun i => listing[i]?

def uniformRandomSelector (sampler : Sampler) (seed : SelectionSeed) : ClientSelector :=
  ⟨fun entropy candidates n round =>
    entriesAt candidates (sampler.draw (seed.rngSeed entropy round) candidates.length n)⟩

section Select
variable {sampler : Sampler} {seed : SelectionSeed} {entropy n round : ℕ}
  {candidates : List String} {c : String}

theorem mem_entriesAt {positions : List ℕ} :
    c ∈ entriesAt candidates positions ↔ ∃ i ∈ positions, candidates[i]? = some c := by
  simp [entriesAt]

/-- Only candidates are selected. -/
theorem mem_of_mem_select
    (h : c ∈ (uniformRandomSelector sampler seed).select entropy candidates n round) :
    c ∈ candidates := by
  obtain ⟨i,_,hi⟩ := mem_entriesAt.mp h
  exact List.mem_of_getElem? hi

/-- As many distinct positions as there are leave none out. -/
theorem mem_draw_of_le {seed len : ℕ} (h : len ≤ n) {i : ℕ} (hi : i < len) :
    i ∈ sampler.draw seed len n := by
  have hsub : sampler.draw seed len n ⊆ List.range len := fun j hj =>
    List.mem_range.mpr (sampler.lt_of_mem_draw hj)
  have hperm : (sampler.draw seed len n).Perm (List.range len) := by
    refine ((sampler.nodup_draw seed len n).subperm hsub).perm_of_length_le ?_
    rw [List.length_range, sampler.length_draw, min_eq_right h]
  exact hperm.mem_iff.mpr (List.mem_range.mpr hi)

/-- A target no smaller than the pool selects everybody. -/
theorem mem_select_of_le (h : candidates.length ≤ n) :
    c ∈ (uniformRandomSelector sampler seed).select entropy candidates n round ↔
      c ∈ candidates := by
  refine ⟨mem_of_mem_select,fun hc => ?_⟩
  obtain ⟨i,hi,rfl⟩ := List.mem_iff_getElem.mp hc
  exact mem_entriesAt.mpr ⟨i,mem_draw_of_le h hi,List.getElem?_eq_getElem hi⟩

end Select

/-- Two attempts at one round with one fixed seed and one configured quorum select the same
clients, from these two listings. -/
def Reproducible (sampler : Sampler) (listing listing' : List String) : Prop :=
  ∀ (seed : ℕ) (κ κ' : Type) (d : Deployment κ) (d' : Deployment κ') (env env' : RoundEnv)
    (s : Server κ) (s' : Server κ'),
    d.selector = uniformRandomSelector sampler (.fixed seed) →
    d'.selector = uniformRandomSelector sampler (.fixed seed) →
    quorumOverride d = quorumOverride d' → s.round = s'.round →
    ∀ c, c ∈ selectedClients d env s listing ↔ c ∈ selectedClients d' env' s' listing'

section Reproducible
variable {sampler : Sampler} {listing listing' : List String}

/-- A deployment that wants one client, with a fixed seed. -/
def oneOf (sampler : Sampler) (seed : ℕ) : Deployment Unit :=
  { quorumOfOne with selector := uniformRandomSelector sampler (.fixed seed) }

/-- A server at round zero, where the generator is seeded with the seed itself. -/
def atRoundZero : Server Unit :=
  { Server.fresh (.inMemory (.new [F32.zero])) () with round := 0 }

theorem selectedClients_oneOf {seed i : ℕ} (hseed : seed < 2^64)
    (hi : sampler.draw seed listing.length 1 = [i]) :
    selectedClients (oneOf sampler seed) (.clean []) atRoundZero listing =
      entriesAt listing [i] := by
  have hrng : (SelectionSeed.fixed seed).rngSeed 0 0 = seed := Nat.mod_eq_of_lt hseed
  change entriesAt listing (sampler.draw ((SelectionSeed.fixed seed).rngSeed 0 0)
    listing.length 1) = _
  rw [hrng, hi]

/-- Selections of one that agree wherever they can fall agree on the whole listing. -/
theorem getElem?_eq_of_reproducible (h : Reproducible sampler listing listing')
    (hlen : listing.length = listing'.length) {seed i : ℕ} (hseed : seed < 2^64)
    (hdraw : sampler.draw seed listing.length 1 = [i]) : listing[i]? = listing'[i]? := by
  have hmem := h seed Unit Unit (oneOf sampler seed) (oneOf sampler seed) (.clean []) (.clean [])
    atRoundZero atRoundZero rfl rfl rfl rfl
  rw [selectedClients_oneOf hseed hdraw, selectedClients_oneOf hseed (hlen ▸ hdraw)] at hmem
  simp only [mem_entriesAt, List.mem_singleton, exists_eq_left] at hmem
  exact Option.ext hmem

/-- Over all seeds, rounds and targets, the selection from two registries with the same clients
is the same exactly when they list them in the same order. -/
theorem reproducible_iff {r r' : AnyRegistry} (hl : r.Lists listing) (hl' : r'.Lists listing')
    (hsame : ∀ c, c ∈ r.ids ↔ c ∈ r'.ids)
    (hdraw : ∀ i < listing.length, ∃ seed < 2^64, sampler.draw seed listing.length 1 = [i]) :
    Reproducible sampler listing listing' ↔ listing = listing' := by
  have hlen : listing.length = listing'.length := by
    refine List.Perm.length_eq ((List.perm_ext_iff_of_nodup hl.nodup hl'.nodup).mpr fun c => ?_)
    rw [hl.mem_iff, hl'.mem_iff, hsame]
  constructor
  · intro h
    refine List.ext_getElem? fun i => ?_
    by_cases hi : i < listing.length
    · obtain ⟨seed,hseed,hone⟩ := hdraw i hi
      exact getElem?_eq_of_reproducible h hlen hseed hone
    · rw [List.getElem?_eq_none (by omega), List.getElem?_eq_none (by omega)]
  · rintro rfl seed κ κ' d d' env env' s s' hd hd' hq hr c
    rw [selectedClients, selectedClients, hd, hd', hq, hr]
    rfl

/-- With no quorum configured, or one no smaller than the pool, everybody is selected. -/
theorem mem_selectedClients_of_le {κ : Type} {d : Deployment κ} {env : RoundEnv} {s : Server κ}
    {seed : SelectionSeed} (hd : d.selector = uniformRandomSelector sampler seed)
    (hq : ∀ n, quorumOverride d = some n → listing.length ≤ n) (c : String) :
    c ∈ selectedClients d env s listing ↔ c ∈ listing := by
  rw [selectedClients, hd]
  apply mem_select_of_le
  cases h : quorumOverride d with
  | none => exact le_rfl
  | some n => exact hq n h

/-- A sampler that draws neighbouring positions, from the seed on. -/
def Sampler.rotating : Sampler where
  draw seed len amount := (List.range (min amount len)).map fun k => (seed+k) % len
  length_draw seed len amount := by rw [List.length_map, List.length_range]
  nodup_draw seed len amount := by
    refine List.nodup_range.map_on fun j hj k hk hjk => ?_
    rw [List.mem_range] at hj hk
    have hmod : Nat.ModEq len j k := Nat.ModEq.add_left_cancel' seed hjk
    exact hmod.eq_of_lt_of_lt (by omega) (by omega)
  lt_of_mem_draw := by
    intro seed len amount i hi
    obtain ⟨k,hk,rfl⟩ := List.mem_map.mp hi
    rw [List.mem_range] at hk
    exact Nat.mod_lt _ (by omega)

/-- Clients that register one after another, a millisecond apart. -/
def enrolled (ids : List String) : RedisRegistry :=
  ids.zipIdx.foldl (fun r p =>
    match r.register p.1 p.2 with
    | .ok r' => r'
    | .error _ => r) .new

theorem lists_enrolled_ab : (AnyRegistry.redis (enrolled ["a","b"])).Lists ["a","b"] := by
  change ["a","b"] = (enrolled ["a","b"]).activeClients
  decide

theorem lists_enrolled_ba : (AnyRegistry.redis (enrolled ["b","a"])).Lists ["b","a"] := by
  change ["b","a"] = (enrolled ["b","a"]).activeClients
  decide

theorem mem_enrolled_iff (c : String) : c ∈ (AnyRegistry.redis (enrolled ["a","b"])).ids ↔
    c ∈ (AnyRegistry.redis (enrolled ["b","a"])).ids := by
  rw [← lists_enrolled_ab.mem_iff, ← lists_enrolled_ba.mem_iff, List.mem_pair, List.mem_pair,
    or_comm]

/-- The same two clients, registered in opposite orders. -/
theorem reproducible_iff_pair :
    Reproducible .rotating ["a","b"] ["b","a"] ↔ ["a","b"] = ["b","a"] := by
  refine reproducible_iff lists_enrolled_ab lists_enrolled_ba mem_enrolled_iff fun i hi => ?_
  have hcases : i = 0 ∨ i = 1 := Nat.le_one_iff_eq_zero_or_eq_one.mp (Nat.le_of_lt_succ hi)
  rcases hcases with rfl | rfl
  · exact ⟨0,by decide,rfl⟩
  · exact ⟨1,by decide,rfl⟩

/-- The same two clients in two Redis registries, registered in opposite orders: whatever is
drawn when one of them is wanted, the two runs select different clients. -/
theorem not_reproducible_registrationOrder :
    (AnyRegistry.redis (enrolled ["a","b"])).Lists ["a","b"] ∧
    (AnyRegistry.redis (enrolled ["b","a"])).Lists ["b","a"] ∧
    (∀ c, c ∈ (AnyRegistry.redis (enrolled ["a","b"])).ids ↔
      c ∈ (AnyRegistry.redis (enrolled ["b","a"])).ids) ∧
    ∀ sampler, ¬Reproducible sampler ["a","b"] ["b","a"] := by
  refine ⟨lists_enrolled_ab,lists_enrolled_ba,mem_enrolled_iff,fun sampler h => ?_⟩
  obtain ⟨i,hi⟩ := List.length_eq_one_iff.mp (sampler.length_draw 0 2 1)
  have hlt : i < 2 := sampler.lt_of_mem_draw (hi ▸ List.mem_singleton_self i)
  have heq := getElem?_eq_of_reproducible h rfl (by decide) hi
  have hcases : i = 0 ∨ i = 1 := by omega
  rcases hcases with rfl | rfl <;> exact absurd heq (by decide)

end Reproducible
end ConfluxFL
