import Mathlib.Data.List.Perm.Basic
import Mathlib.Data.Finset.Card
import ConfluxFL.Lib.Floating
import ConfluxFL.Lib.StableSort

/-! How a recipe's training data is divided among its clients. A list is cut at given points into
the pieces between them; a piece whose points are out of order is empty. -/
namespace Sections
variable {α : Type*} {l : List α} {a b c p i : ℕ} {points : List ℕ}

/-- `l[a:b]`. -/
def span (l : List α) (a b : ℕ) : List α := (l.take b).drop a

/-- The pieces between the points. -/
def between (l : List α) (points : List ℕ) : List (List α) :=
  List.zipWith (span l) points points.tail

@[simp] theorem between_cons_cons (l : List α) (p q : ℕ) (points : List ℕ) :
    between l (p::q::points) = span l p q::between l (q::points) := rfl

@[simp] theorem length_between (l : List α) (points : List ℕ) :
    (between l points).length = points.length-1 := by
  simp [between]

theorem span_append (l : List α) (hab : a ≤ b) (hbc : b ≤ c) :
    span l a b++span l b c = span l a c := by
  have hdrop : l.drop b = (l.drop a).drop (b-a) := by
    rw [List.drop_drop, Nat.add_sub_cancel' hab]
  have hlen : c-a = (b-a)+(c-b) := by omega
  rw [span, span, span, List.drop_take, List.drop_take, List.drop_take, hdrop, hlen, List.take_add]

/-- Points beyond the end count as the end. -/
theorem span_min (l : List α) (a b : ℕ) :
    span l (min a l.length) (min b l.length) = span l a b := by
  have htake : l.take (min b l.length) = l.take b := List.take_eq_take_min.symm
  rw [span, span, htake]
  rcases le_total a l.length with ha | ha
  · rw [min_eq_left ha]
  · have hlen : (l.take b).length ≤ l.length := List.length_take_le' b l
    rw [min_eq_right ha, List.drop_eq_nil_of_le hlen, List.drop_eq_nil_of_le (hlen.trans ha)]

theorem between_min (l : List α) (points : List ℕ) :
    between l (points.map (min · l.length)) = between l points := by
  rw [between, between, ← List.map_tail, List.zipWith_map]
  exact congrArg (fun f => List.zipWith f points points.tail) (funext₂ (span_min l))

/-- Points in order cut a list into pieces that join to what lies between the first and the last. -/
theorem flatten_between (l : List α) (h : (p::points).IsChain (· ≤ ·)) :
    (between l (p::points)).flatten = span l p ((p::points).getLast (List.cons_ne_nil p points)) ∧
      p ≤ (p::points).getLast (List.cons_ne_nil p points) := by
  induction points generalizing p with
  | nil => simp [between, span]
  | cons q points ih =>
    obtain ⟨hpq,hrest⟩ := List.isChain_cons_cons.mp h
    obtain ⟨hflat,hle⟩ := ih hrest
    rw [between_cons_cons, List.flatten_cons, hflat, List.getLast_cons (List.cons_ne_nil q points)]
    exact ⟨span_append l hpq hle,hpq.trans hle⟩

/-- What lies between the first point and the last is in some piece, whatever is in between. -/
theorem getElem_mem_between (hi : i < l.length) (hp : p ≤ i)
    (hlast : i < (p::points).getLast (List.cons_ne_nil p points)) :
    l[i] ∈ (between l (p::points)).flatten := by
  induction points generalizing p with
  | nil => exact absurd hp (not_le.mpr hlast)
  | cons q points ih =>
    rw [List.getLast_cons (List.cons_ne_nil q points)] at hlast
    rw [between_cons_cons, List.flatten_cons, List.mem_append]
    by_cases hq : i < q
    · refine .inl (List.mem_iff_getElem.mpr ⟨i-p,?_,?_⟩)
      · simp only [span, List.length_drop, List.length_take]
        omega
      · simp only [span, List.getElem_drop, List.getElem_take, Nat.add_sub_cancel' hp]
    · exact .inr (ih (not_lt.mp hq) hlast)

/-- The pieces hold at least what lies between the first point and the last, and no more exactly
when the points are in order. -/
theorem length_flatten_between (hp : ∀ q ∈ p::points, q ≤ l.length) :
    (p::points).getLast (List.cons_ne_nil p points) ≤ (between l (p::points)).flatten.length+p ∧
    ((between l (p::points)).flatten.length+p = (p::points).getLast (List.cons_ne_nil p points) ↔
      (p::points).IsChain (· ≤ ·)) := by
  induction points generalizing p with
  | nil => simp [between]
  | cons q points ih =>
    obtain ⟨hle,hiff⟩ := ih fun r hr => hp r (List.mem_cons_of_mem p hr)
    have hq : q ≤ l.length := hp q (List.mem_cons_of_mem p List.mem_cons_self)
    have hspan : (span l p q).length = q-p := by
      rw [span, List.length_drop, List.length_take, min_eq_left hq]
    rw [between_cons_cons, List.flatten_cons, List.length_append, hspan,
      List.getLast_cons (List.cons_ne_nil q points), List.isChain_cons_cons, ← hiff]
    omega

/-- Pieces of given sizes, one after the other. -/
theorem between_scanl (l : List α) (sizes : List ℕ) (p : ℕ) :
    (between l (sizes.scanl (· + ·) p)).flatten = span l p (p+sizes.sum) ∧
    (p+sizes.sum ≤ l.length → (between l (sizes.scanl (· + ·) p)).map List.length = sizes) := by
  induction sizes generalizing p with
  | nil => simp [between, span]
  | cons s sizes ih =>
    obtain ⟨hflat,hlen⟩ := ih (p+s)
    obtain ⟨points,hpoints⟩ : ∃ points, sizes.scanl (· + ·) (p+s) = (p+s)::points := by
      cases sizes with
      | nil => exact ⟨[],rfl⟩
      | cons t sizes => exact ⟨_,List.scanl_cons⟩
    have hsum : p+(s::sizes).sum = p+s+sizes.sum := by
      rw [List.sum_cons, Nat.add_assoc]
    rw [List.scanl_cons, hpoints, between_cons_cons, ← hpoints, List.flatten_cons, hflat, hsum]
    refine ⟨span_append l (Nat.le_add_right p s) (Nat.le_add_right _ _),fun hle => ?_⟩
    have hspan : (span l p (p+s)).length = s := by
      rw [span, List.length_drop, List.length_take, min_eq_left (by omega), Nat.add_sub_cancel_left]
    rw [List.map_cons, hspan, hlen hle]

/-- `np.split(l, indices)`. -/
def splitAt (l : List α) (indices : List ℕ) : List (List α) :=
  between l (0::(indices++[l.length]))

/-- Whether the points that are inside the list are in order. -/
def InOrder (n : ℕ) (indices : List ℕ) : Prop := (indices.map (min · n)).IsChain (· ≤ ·)

/-- The points after the first, none beyond the end. -/
def inside (n : ℕ) (indices : List ℕ) : List ℕ := indices.map (min · n)++[n]

theorem splitAt_eq (l : List α) (indices : List ℕ) :
    splitAt l indices = between l (0::inside l.length indices) := by
  rw [splitAt, ← between_min]
  simp [inside]

theorem inOrder_iff {n : ℕ} {indices : List ℕ} :
    (0::inside n indices).IsChain (· ≤ ·) ↔ InOrder n indices := by
  constructor
  · intro h
    exact (List.isChain_append.mp h.of_cons).1
  · intro h
    refine List.isChain_cons.mpr ⟨fun q _ => Nat.zero_le q,List.isChain_append.mpr ⟨h,?_,?_⟩⟩
    · exact List.isChain_singleton n
    · intro x hx y hy
      obtain ⟨q,-,rfl⟩ := List.mem_map.mp (List.mem_of_mem_getLast? hx)
      obtain rfl : n = y := by simpa using hy
      exact min_le_right q n

theorem getLast_inside (n : ℕ) (indices : List ℕ) :
    (0::inside n indices).getLast (List.cons_ne_nil 0 _) = n := by
  simp [inside]

/-- No element is lost by a split. -/
theorem mem_splitAt (indices : List ℕ) {x : α} (hx : x ∈ l) : x ∈ (splitAt l indices).flatten := by
  obtain ⟨i,hi,rfl⟩ := List.mem_iff_getElem.mp hx
  refine getElem_mem_between hi (Nat.zero_le i) ?_
  simpa using hi

/-- An element is in two pieces exactly when the points are out of order. -/
theorem length_splitAt (l : List α) (indices : List ℕ) :
    l.length ≤ (splitAt l indices).flatten.length ∧
    ((splitAt l indices).flatten.length = l.length ↔ InOrder l.length indices) := by
  have hle : ∀ q ∈ 0::inside l.length indices, q ≤ l.length := by
    intro q hq
    rcases List.mem_cons.mp hq with rfl | hq
    · exact Nat.zero_le _
    · rcases List.mem_append.mp hq with hq | hq
      · obtain ⟨r,-,rfl⟩ := List.mem_map.mp hq
        exact min_le_right r l.length
      · exact (List.mem_singleton.mp hq).le
  have h := length_flatten_between hle
  rwa [getLast_inside, inOrder_iff, Nat.add_zero, ← splitAt_eq] at h

theorem flatten_splitAt {indices : List ℕ} (h : InOrder l.length indices) :
    (splitAt l indices).flatten = l := by
  rw [splitAt_eq, (flatten_between l (inOrder_iff.mpr h)).1, getLast_inside]
  simp [span]

/-- The sizes of `np.array_split(l, k)`: the first ones take what is left over. -/
def sectionSizes (n k : ℕ) : List ℕ :=
  List.replicate (n%k) (n/k+1)++List.replicate (k-n%k) (n/k)

/-- `np.array_split(l, k)`. -/
def arraySplit (l : List α) (k : ℕ) : List (List α) :=
  between l ((sectionSizes l.length k).scanl (· + ·) 0)

theorem sum_sectionSizes {n k : ℕ} (hk : 0 < k) : (sectionSizes n k).sum = n := by
  have hmod := Nat.mod_lt n hk
  have hdiv := Nat.div_add_mod n k
  obtain ⟨rest,hrest⟩ := Nat.exists_eq_add_of_le hmod.le
  rw [sectionSizes, List.sum_append, List.sum_replicate, List.sum_replicate, smul_eq_mul,
    smul_eq_mul]
  have hsub : k-n%k = rest := by omega
  rw [hsub]
  calc n%k*(n/k+1)+rest*(n/k) = (n%k+rest)*(n/k)+n%k := by ring
    _ = n := by rw [← hrest, hdiv]

theorem flatten_arraySplit {k : ℕ} (l : List α) (hk : 0 < k) : (arraySplit l k).flatten = l := by
  rw [arraySplit, (between_scanl l _ 0).1, Nat.zero_add, sum_sectionSizes hk]
  simp [span]

theorem lengths_arraySplit {k : ℕ} (l : List α) (hk : 0 < k) :
    (arraySplit l k).map List.length = sectionSizes l.length k :=
  (between_scanl l _ 0).2 (by rw [Nat.zero_add, sum_sectionSizes hk])

theorem length_arraySplit {k : ℕ} (l : List α) (hk : 0 < k) : (arraySplit l k).length = k := by
  have h := congrArg List.length (lengths_arraySplit l hk)
  have hmod := Nat.mod_lt l.length hk
  rw [List.length_map, sectionSizes, List.length_append, List.length_replicate,
    List.length_replicate] at h
  omega

end Sections

namespace ConfluxFL.Partition
open Sections

inductive PartitionError where
  | unknown (name : String)
  | needsLabels (partition : String)
  /-- NumPy refuses to cut an array into no sections. -/
  | noSections
  /-- NumPy refuses to draw from a distribution with a negative concentration. -/
  | negativeAlpha
  /-- There is no client at this place. -/
  | outOfRange (client : ℕ)
  deriving DecidableEq, Repr

/-- The text of an error; `repr` is Python's. -/
def PartitionError.text (repr : String → String) : PartitionError → String
  | .unknown name => s!"no partition named {repr name} (known: dirichlet, iid, shard)"
  | .needsLabels partition => s!"the {partition} partition needs labels"
  | .noSections => "number sections must be larger than 0."
  | .negativeAlpha => "alpha < 0"
  | .outOfRange _ => "list index out of range"

/-- A seeded generator. Its permutations reorder, and a draw from a Dirichlet distribution that it
takes has a proportion for each client; the draws of one partition are numbered. -/
structure Generator (ν : Type) where
  permutation : List ℕ → List ℕ
  shuffle : ℕ → List ℕ → List ℕ
  takes : ν → Bool
  dirichlet : ℕ → ν → ℕ → List ν
  permutation_perm : ∀ l, (permutation l).Perm l
  shuffle_perm : ∀ i l, (shuffle i l).Perm l
  length_dirichlet : ∀ i alpha clients, takes alpha = true →
    (dirichlet i alpha clients).length = clients

section Source
variable {ν : Type} (g : Generator ν)

def sections (l : List ℕ) (k : ℕ) : Except PartitionError (List (List ℕ)) :=
  if k = 0 then .error .noSections else .ok (arraySplit l k)

def iid (indices : List ℕ) (clients : ℕ) : Except PartitionError (List (List ℕ)) :=
  sections (g.permutation indices) clients

/-- `np.unique`. -/
def classes (labels : List ℤ) : List ℤ := StableSort.sortBy id labels.dedup

/-- `indices[labels == c]`. -/
def ofClass (indices : List ℕ) (labels : List ℤ) (c : ℤ) : List ℕ :=
  (StableSort.group Prod.snd c (indices.zip labels)).map Prod.fst

def cumsum [Floating ν] : List ν → List ν
  | [] => []
  | x::xs => xs.scanl (· + ·) x

/-- Where a class of `n` samples is cut. -/
def cuts [Floating ν] (proportions : List ν) (n : ℕ) : List ℕ :=
  ((cumsum proportions).map fun x => Floating.floorToNat (x*Floating.ofNat n)).dropLast

/-- Each part goes to the end of its client's list. -/
def extendEach : ℕ → List (List ℕ) → List (List ℕ) → Except PartitionError (List (List ℕ))
  | _, perClient, [] => .ok perClient
  | client, [], _::_ => .error (.outOfRange client)
  | client, idx::perClient, part::parts => do
    let rest ← extendEach (client+1) perClient parts
    return (idx++part)::rest

/-- The parts of the class `c`, the `i`-th in the order of its labels. -/
def classParts [Floating ν] (alpha : ν) (indices : List ℕ) (labels : List ℤ) (clients : ℕ) (c : ℤ)
    (i : ℕ) : List (List ℕ) :=
  let cIdx := g.shuffle i (ofClass indices labels c)
  splitAt cIdx (cuts (g.dirichlet i alpha clients) cIdx.length)

def dirichlet [Floating ν] (alpha : ν) (indices : List ℕ) (labels : Option (List ℤ)) (clients : ℕ) :
    Except PartitionError (List (List ℕ)) :=
  match labels with
  | none => .error (.needsLabels "dirichlet")
  | some labels => (classes labels).zipIdx.foldlM (fun perClient c =>
      if g.takes alpha then
        extendEach 0 perClient (classParts g alpha indices labels clients c.1 c.2)
      else .error .negativeAlpha) (List.replicate clients [])

/-- `indices[np.argsort(labels, kind="stable")]`. -/
def inLabelOrder (indices : List ℕ) (labels : List ℤ) : List ℕ :=
  (StableSort.sortBy Prod.snd (indices.zip labels)).map Prod.fst

/-- Row `i` of a list reshaped to rows of `width`. -/
def row (l : List ℕ) (width i : ℕ) : List ℕ := (l.drop (i*width)).take width

def shard (indices : List ℕ) (labels : Option (List ℤ)) (clients shardsPerClient : ℕ) :
    Except PartitionError (List (List ℕ)) :=
  match labels with
  | none => .error (.needsLabels "shard")
  | some labels => do
    let nShards := clients*shardsPerClient
    let shards ← sections (inLabelOrder indices labels) nShards
    let assignment := g.permutation (List.range nShards)
    return (List.range clients).map fun i =>
      (row assignment shardsPerClient i).flatMap fun s => shards.getD s []

/-- The arguments every partition is called with. -/
structure SplitArgs (ν : Type) where
  indices : List ℕ
  clients : ℕ
  labels : Option (List ℤ)
  alpha : ν
  shardsPerClient : ℕ

def split [Floating ν] (name : String) (args : SplitArgs ν) :
    Except PartitionError (List (List ℕ)) :=
  if name = "iid" then iid g args.indices args.clients
  else if name = "dirichlet" then dirichlet g args.alpha args.indices args.labels args.clients
  else if name = "shard" then shard g args.indices args.labels args.clients args.shardsPerClient
  else .error (.unknown name)

end Source
section Deals
variable {ν : Type} {g : Generator ν} {indices : List ℕ} {labels : List ℤ}
  {clients shardsPerClient : ℕ} {alpha : ν}

/-- Every sample goes to one of the clients, and to no other. -/
structure DealtOut (indices : List ℕ) (clients : ℕ) (parts : List (List ℕ)) : Prop where
  clients : parts.length = clients
  perm : parts.flatten.Perm indices

/-- The groups of a list under distinct keys are the elements with these keys. -/
theorem flatMap_group_perm {α κ : Type} [LinearOrder κ] (key : α → κ) (l : List α) {keys : List κ}
    (hn : keys.Nodup) :
    (keys.flatMap fun k => StableSort.group key k l).Perm (l.filter fun a => key a ∈ keys) := by
  induction keys with
  | nil => simp
  | cons k keys ih =>
    obtain ⟨hk,hn⟩ := List.nodup_cons.mp hn
    have hsplit := List.filter_append_perm (fun a => decide (key a = k))
      (l.filter fun a => key a ∈ k::keys)
    rw [List.filter_filter, List.filter_filter] at hsplit
    rw [List.flatMap_cons]
    refine (List.Perm.append_left _ (ih hn)).trans (List.Perm.trans (List.Perm.of_eq ?_) hsplit)
    congr 1
    · refine List.filter_congr fun a _ => ?_
      simp only [List.mem_cons]
      by_cases ha : key a = k <;> simp [ha]
    · refine List.filter_congr fun a _ => ?_
      simp only [List.mem_cons]
      by_cases ha : key a = k <;> simp [ha, hk]

theorem nodup_classes (labels : List ℤ) : (classes labels).Nodup :=
  StableSort.sortBy_perm.nodup_iff.mpr labels.nodup_dedup

theorem mem_classes {c : ℤ} : c ∈ classes labels ↔ c ∈ labels := by
  rw [classes, StableSort.mem_sortBy, List.mem_dedup]

/-- The classes are a division of the samples. -/
theorem flatMap_ofClass_perm (hlen : labels.length = indices.length) :
    ((classes labels).flatMap (ofClass indices labels)).Perm indices := by
  have hzip := flatMap_group_perm Prod.snd (indices.zip labels) (nodup_classes labels)
  have hall : ((indices.zip labels).filter fun a => a.2 ∈ classes labels) = indices.zip labels :=
    List.filter_eq_self.mpr fun a ha =>
      decide_eq_true (mem_classes.mpr (List.of_mem_zip ha).2)
  have hmap := hzip.map Prod.fst
  rw [hall, List.map_fst_zip hlen.ge, List.map_flatMap] at hmap
  exact hmap

theorem extendEach_eq (client : ℕ) {perClient parts : List (List ℕ)}
    (h : perClient.length = parts.length) :
    extendEach client perClient parts = .ok (List.zipWith (· ++ ·) perClient parts) := by
  induction perClient generalizing client parts with
  | nil =>
    rw [List.length_eq_zero_iff.mp h.symm]
    rfl
  | cons idx perClient ih =>
    cases parts with
    | nil => cases h
    | cons part parts =>
      rw [extendEach, ih (client+1) (Nat.succ.inj h)]
      rfl

theorem flatten_zipWith_perm {perClient parts : List (List ℕ)}
    (h : perClient.length = parts.length) :
    (List.zipWith (· ++ ·) perClient parts).flatten.Perm (perClient.flatten++parts.flatten) := by
  induction perClient generalizing parts with
  | nil =>
    rw [List.length_eq_zero_iff.mp h.symm]
    rfl
  | cons idx perClient ih =>
    cases parts with
    | nil => cases h
    | cons part parts =>
      rw [List.zipWith_cons_cons, List.flatten_cons, List.flatten_cons, List.flatten_cons]
      refine ((ih (Nat.succ.inj h)).append_left (idx++part)).trans ?_
      rw [List.append_assoc, List.append_assoc]
      refine List.Perm.append_left idx ?_
      rw [← List.append_assoc, ← List.append_assoc]
      exact List.perm_append_comm.append_right _

theorem length_cumsum [Floating ν] (xs : List ν) : (cumsum xs).length = xs.length := by
  cases xs with
  | nil => rfl
  | cons x xs => rw [cumsum, List.length_scanl, List.length_cons]

theorem length_classParts [Floating ν] (htakes : g.takes alpha = true) (hclients : 0 < clients)
    (c : ℤ) (i : ℕ) : (classParts g alpha indices labels clients c i).length = clients := by
  simp only [classParts, splitAt, length_between, List.length_cons, List.length_append,
    List.length_nil, cuts, List.length_dropLast, List.length_map, length_cumsum,
    g.length_dirichlet _ _ _ htakes]
  omega

/-- The loop over the classes hands each client its parts. -/
theorem foldlM_classes {f : ℤ × ℕ → List (List ℕ)} (hf : ∀ c, (f c).length = clients)
    (cs : List (ℤ × ℕ)) {perClient : List (List ℕ)} (hlen : perClient.length = clients) :
    ∃ parts, cs.foldlM (fun perClient c => extendEach 0 perClient (f c)) perClient = .ok parts ∧
      parts.length = clients ∧
      parts.flatten.Perm (perClient.flatten++cs.flatMap fun c => (f c).flatten) := by
  induction cs generalizing perClient with
  | nil => exact ⟨perClient,rfl,hlen,by simp⟩
  | cons c cs ih =>
    have hc : perClient.length = (f c).length := hlen.trans (hf c).symm
    have hnext : (List.zipWith (· ++ ·) perClient (f c)).length = clients := by
      rw [List.length_zipWith, ← hc, min_self, hlen]
    obtain ⟨parts,hparts,hcount,hperm⟩ := ih hnext
    refine ⟨parts,?_,hcount,hperm.trans ?_⟩
    · rw [List.foldlM_cons, extendEach_eq 0 hc]
      exact hparts
    · rw [List.flatMap_cons, ← List.append_assoc]
      exact (flatten_zipWith_perm hc).append_right _

theorem iid_deals (hclients : 0 < clients) : ∃ parts, iid g indices clients = .ok parts ∧
    DealtOut indices clients parts ∧ parts.map List.length = sectionSizes indices.length clients := by
  have hperm := g.permutation_perm indices
  refine ⟨arraySplit (g.permutation indices) clients,if_neg hclients.ne',⟨?_,?_⟩,?_⟩
  · exact length_arraySplit _ hclients
  · rw [flatten_arraySplit _ hclients]
    exact hperm
  · rw [lengths_arraySplit _ hclients, hperm.length_eq]

theorem flatMap_row (l : List ℕ) (width k : ℕ) :
    (List.range k).flatMap (row l width) = l.take (k*width) := by
  induction k with
  | zero => simp
  | succ k ih =>
    rw [List.range_succ, List.flatMap_append, ih, List.flatMap_singleton, Nat.succ_mul,
      List.take_add]
    rfl

theorem flatMap_getD_range (shards : List (List ℕ)) :
    (List.range shards.length).flatMap (fun s => shards.getD s []) = shards.flatten := by
  rw [List.flatMap_def]
  refine congrArg List.flatten (List.ext_getElem (by simp) fun i hi hi' => ?_)
  rw [List.getElem_map, List.getElem_range, List.getD_eq_getElem?_getD,
    List.getElem?_eq_getElem hi']
  rfl

theorem inLabelOrder_perm (hlen : labels.length = indices.length) :
    (inLabelOrder indices labels).Perm indices := by
  have h : (StableSort.sortBy Prod.snd (indices.zip labels)).Perm (indices.zip labels) :=
    StableSort.sortBy_perm
  have hfst := h.map Prod.fst
  rwa [List.map_fst_zip hlen.ge] at hfst

theorem shard_deals (hlen : labels.length = indices.length) (hshards : 0 < clients*shardsPerClient) :
    ∃ parts, shard g indices (some labels) clients shardsPerClient = .ok parts ∧
      DealtOut indices clients parts := by
  let nShards := clients*shardsPerClient
  let shards := arraySplit (inLabelOrder indices labels) nShards
  let assignment := g.permutation (List.range nShards)
  refine ⟨(List.range clients).map fun i =>
    (row assignment shardsPerClient i).flatMap fun s => shards.getD s [],?_,⟨?_,?_⟩⟩
  · simp only [shard, sections, if_neg hshards.ne']
    rfl
  · rw [List.length_map, List.length_range]
  · have hassignment : assignment.Perm (List.range nShards) := g.permutation_perm _
    have hrows : (List.range clients).flatMap (row assignment shardsPerClient) = assignment := by
      rw [flatMap_row, List.take_of_length_le]
      rw [hassignment.length_eq, List.length_range]
    have hcount : shards.length = nShards := length_arraySplit _ hshards
    rw [← List.flatMap_def, ← List.flatMap_assoc, hrows]
    refine (hassignment.flatMap_right _).trans ?_
    rw [← hcount, flatMap_getD_range, flatten_arraySplit _ hshards]
    exact inLabelOrder_perm hlen

theorem length_flatMap_eq_iff {β : Type} {f h : β → List ℕ} {cs : List β}
    (hle : ∀ c ∈ cs, (h c).length ≤ (f c).length) : (cs.flatMap h).length ≤ (cs.flatMap f).length ∧
    ((cs.flatMap f).length = (cs.flatMap h).length ↔ ∀ c ∈ cs, (f c).length = (h c).length) := by
  induction cs with
  | nil => simp
  | cons c cs ih =>
    obtain ⟨hmono,hiff⟩ := ih fun c' hc' => hle c' (List.mem_cons_of_mem c hc')
    have hc := hle c List.mem_cons_self
    rw [List.flatMap_cons, List.flatMap_cons, List.length_append, List.length_append,
      List.forall_mem_cons, ← hiff]
    omega

/-- The draws leave the cuts of every class in order. -/
def CutsInOrder [Floating ν] (g : Generator ν) (alpha : ν) (indices : List ℕ) (labels : List ℤ)
    (clients : ℕ) : Prop :=
  ∀ c ∈ (classes labels).zipIdx,
    let n := (ofClass indices labels c.1).length
    InOrder n (cuts (g.dirichlet c.2 alpha clients) n)

theorem classes_ne_nil (h : labels ≠ []) : classes labels ≠ [] := by
  obtain ⟨c,hc⟩ := List.exists_mem_of_ne_nil _ h
  exact List.ne_nil_of_mem (StableSort.mem_sortBy.mpr (List.mem_dedup.mpr hc))

/-- A concentration that is refused ends the partition at its first class. -/
theorem dirichlet_refused [Floating ν] (htakes : g.takes alpha = false) (h : labels ≠ []) :
    dirichlet g alpha indices (some labels) clients = .error .negativeAlpha := by
  have hne : (classes labels).zipIdx ≠ [] := fun hnil => classes_ne_nil h (by simpa using hnil)
  obtain ⟨c,cs,hcs⟩ := List.exists_cons_of_ne_nil hne
  rw [dirichlet, hcs, List.foldlM_cons, htakes, if_neg Bool.false_ne_true]
  rfl

theorem dirichlet_deals [Floating ν] (hlen : labels.length = indices.length)
    (hclients : 0 < clients) (htakes : g.takes alpha = true ∨ labels = []) :
    ∃ parts, dirichlet g alpha indices (some labels) clients = .ok parts ∧ parts.length = clients ∧
      (∀ x ∈ indices, x ∈ parts.flatten) ∧
      (DealtOut indices clients parts ↔ CutsInOrder g alpha indices labels clients) := by
  rcases htakes with htakes | rfl
  case inr =>
    obtain rfl := List.eq_nil_of_length_eq_zero hlen.symm
    exact ⟨List.replicate clients [],rfl,List.length_replicate,nofun,
      iff_of_true ⟨List.length_replicate,by simp⟩ nofun⟩
  let cs := (classes labels).zipIdx
  let f := fun c : ℤ × ℕ => classParts g alpha indices labels clients c.1 c.2
  let own := fun c : ℤ × ℕ => g.shuffle c.2 (ofClass indices labels c.1)
  have hf : ∀ c, (f c).length = clients := fun c =>
    length_classParts htakes hclients c.1 c.2
  have hstart : (List.replicate clients ([] : List ℕ)).length = clients := List.length_replicate
  obtain ⟨parts,hparts,hcount,hperm⟩ := foldlM_classes hf cs hstart
  have hdeals : dirichlet g alpha indices (some labels) clients = .ok parts := by
    rw [dirichlet, ← hparts]
    simp only [htakes, if_true, cs, f]
  have hperm : parts.flatten.Perm (cs.flatMap fun c => (f c).flatten) := by simpa using hperm
  have hown : (cs.flatMap own).Perm indices := by
    have hshuffled : (cs.flatMap own).Perm (cs.flatMap fun c => ofClass indices labels c.1) :=
      List.Perm.flatMap_left cs fun c _ => g.shuffle_perm c.2 _
    refine hshuffled.trans ?_
    have hfst : (cs.flatMap fun c => ofClass indices labels c.1) =
        (cs.map Prod.fst).flatMap (ofClass indices labels) := (List.flatMap_map ..).symm
    rw [hfst, List.zipIdx_map_fst]
    exact flatMap_ofClass_perm hlen
  have hlenOwn : ∀ c, (own c).length = (ofClass indices labels c.1).length := fun c =>
    (g.shuffle_perm c.2 _).length_eq
  have hpieces : ∀ c, (own c).length ≤ (f c).flatten.length ∧
      ((f c).flatten.length = (own c).length ↔ InOrder (own c).length
        (cuts (g.dirichlet c.2 alpha clients) (own c).length)) := fun c => length_splitAt _ _
  refine ⟨parts,hdeals,hcount,fun x hx => ?_,⟨fun hdealt => ?_,fun hcuts => ⟨hcount,?_⟩⟩⟩
  · obtain ⟨c,hc,hxc⟩ := List.mem_flatMap.mp (hown.mem_iff.mpr hx)
    exact hperm.mem_iff.mpr (List.mem_flatMap.mpr ⟨c,hc,mem_splitAt _ hxc⟩)
  · have heq : (cs.flatMap fun c => (f c).flatten).length = (cs.flatMap own).length := by
      rw [← hperm.length_eq, hdealt.perm.length_eq, hown.length_eq]
    have hall := (length_flatMap_eq_iff fun c _ => (hpieces c).1).2.mp heq
    intro c hc
    have hin := (hpieces c).2.mp (hall c hc)
    rwa [hlenOwn c] at hin
  · refine hperm.trans (List.Perm.trans (List.Perm.of_eq ?_) hown)
    refine List.flatMap_congr fun c hc => flatten_splitAt ?_
    have hin := hcuts c hc
    rwa [← hlenOwn c] at hin

theorem scanl_isChain (x : ℝ) {xs : List ℝ} (hpos : ∀ y ∈ xs, 0 ≤ y) :
    (xs.scanl (· + ·) x).IsChain (· ≤ ·) := by
  induction xs generalizing x with
  | nil => exact List.isChain_singleton x
  | cons y xs ih =>
    have hy := hpos y List.mem_cons_self
    rw [List.scanl_cons]
    refine List.isChain_cons.mpr ⟨fun z hz => ?_,
      ih (x+y) fun z hz => hpos z (List.mem_cons_of_mem y hz)⟩
    obtain rfl : x+y = z := by
      cases xs with
      | nil => simpa using hz
      | cons w xs => simpa using hz
    linarith

/-- Without rounding, proportions that are not negative leave the cuts in order. -/
theorem inOrder_cuts {xs : List ℝ} (hpos : ∀ x ∈ xs, 0 ≤ x) (n : ℕ) : InOrder n (cuts xs n) := by
  have hsums : (cumsum xs).IsChain (· ≤ ·) := by
    cases xs with
    | nil => exact List.isChain_nil
    | cons x xs => exact scanl_isChain x fun y hy => hpos y (List.mem_cons_of_mem x hy)
  have hfloors : ((cumsum xs).map fun x => Floating.floorToNat (x*Floating.ofNat n)).IsChain
      (· ≤ ·) := by
    refine List.isChain_map_of_isChain _ (fun a b hab => ?_) hsums
    exact Nat.floor_le_floor (mul_le_mul_of_nonneg_right hab (Nat.cast_nonneg n))
  refine List.isChain_map_of_isChain _ (fun a b hab => min_le_min_right n hab) ?_
  exact hfloors.prefix (List.dropLast_prefix _)

theorem cutsInOrder_exact {g : Generator ℝ} {alpha : ℝ}
    (hpos : ∀ i, ∀ x ∈ g.dirichlet i alpha clients, 0 ≤ x) :
    CutsInOrder g alpha indices labels clients := fun c _ => inOrder_cuts (hpos c.2) _

/-- Every partition gives every client a part and every sample to a client. Under `iid` and under
`shard` none is given twice; under `dirichlet` none is exactly when the cuts of every class are in
order, where there is a class to draw for only if NumPy takes the concentration. -/
theorem split_deals [Floating ν] (g : Generator ν) (args : SplitArgs ν)
    (hlabels : args.labels = some labels) (hlen : labels.length = args.indices.length)
    (hclients : 0 < args.clients) (hshards : 0 < args.shardsPerClient) :
    (∃ parts, split g "iid" args = .ok parts ∧ DealtOut args.indices args.clients parts ∧
      parts.map List.length = sectionSizes args.indices.length args.clients) ∧
    (∃ parts, split g "shard" args = .ok parts ∧ DealtOut args.indices args.clients parts) ∧
    (g.takes args.alpha = true ∨ labels = [] →
      ∃ parts, split g "dirichlet" args = .ok parts ∧ parts.length = args.clients ∧
        (∀ x ∈ args.indices, x ∈ parts.flatten) ∧
        (DealtOut args.indices args.clients parts ↔
          CutsInOrder g args.alpha args.indices labels args.clients)) ∧
    (g.takes args.alpha = false → labels ≠ [] →
      split g "dirichlet" args = .error .negativeAlpha) := by
  have hshard : split g "shard" args =
      shard g args.indices args.labels args.clients args.shardsPerClient := by
    simp [split]
  have hdirichlet : split g "dirichlet" args =
      dirichlet g args.alpha args.indices args.labels args.clients := by
    simp [split]
  rw [hshard, hdirichlet, hlabels]
  exact ⟨iid_deals hclients,shard_deals hlen (Nat.mul_pos hclients hshards),
    dirichlet_deals hlen hclients,dirichlet_refused⟩

/-- A generator that leaves every order as it is and gives equal proportions. -/
def unshuffled : Generator F64 where
  permutation l := l
  shuffle _ l := l
  takes alpha := !F64.lt alpha .zero
  dirichlet _ _ clients := List.replicate clients (F64.one/F64.ofNat clients)
  permutation_perm := List.Perm.refl
  shuffle_perm _ := List.Perm.refl
  length_dirichlet _ _ _ _ := List.length_replicate

/-- Five samples of two classes for two clients. -/
def fiveSamples : SplitArgs F64 where
  indices := [0,1,2,3,4]
  clients := 2
  labels := some [7,7,3,7,3]
  alpha := F64.one
  shardsPerClient := 2

theorem split_deals_fiveSamples :
    (∃ parts, split unshuffled "iid" fiveSamples = .ok parts ∧ DealtOut [0,1,2,3,4] 2 parts ∧
      parts.map List.length = sectionSizes 5 2) ∧
    (∃ parts, split unshuffled "shard" fiveSamples = .ok parts ∧ DealtOut [0,1,2,3,4] 2 parts) ∧
    ∃ parts, split unshuffled "dirichlet" fiveSamples = .ok parts ∧ parts.length = 2 ∧
      (∀ x ∈ fiveSamples.indices, x ∈ parts.flatten) ∧
      (DealtOut [0,1,2,3,4] 2 parts ↔
        CutsInOrder unshuffled F64.one [0,1,2,3,4] [7,7,3,7,3] 2) := by
  obtain ⟨hiid,hshard,hdirichlet,-⟩ :=
    split_deals unshuffled fiveSamples rfl rfl (by decide) (by decide)
  exact ⟨hiid,hshard,hdirichlet (.inl (by decide +kernel))⟩

end Deals

section Labels
variable {α : Type} {l : List α} {lab : α → ℤ} {c : ℤ} {s k : ℕ}

/-- In label order the labels up to `c` come first. -/
theorem le_iff_lt_countP (hl : l.Pairwise fun a b => lab a ≤ lab b) {p : ℕ} (hp : p < l.length) :
    lab l[p] ≤ c ↔ p < l.countP fun a => lab a ≤ c := by
  induction l generalizing p with
  | nil => exact absurd hp (Nat.not_lt_zero p)
  | cons a l ih =>
    obtain ⟨ha,hrest⟩ := List.pairwise_cons.mp hl
    by_cases hac : lab a ≤ c
    · rw [List.countP_cons_of_pos (by simpa using hac)]
      cases p with
      | zero => exact iff_of_true hac (Nat.succ_pos _)
      | succ p =>
        rw [List.getElem_cons_succ, ih hrest (Nat.lt_of_succ_lt_succ hp)]
        omega
    · have hnone : (a::l).countP (fun a => lab a ≤ c) = 0 := by
        rw [List.countP_eq_zero]
        intro b hb
        rcases List.mem_cons.mp hb with rfl | hb
        · simpa using hac
        · have := ha b hb
          simp only [decide_eq_true_iff]
          omega
      rw [hnone]
      refine iff_of_false (fun hle => hac ?_) (Nat.not_lt_zero p)
      cases p with
      | zero => exact hle
      | succ p => exact (ha _ (List.getElem_mem _)).trans hle

theorem countP_le_eq (l : List α) (c : ℤ) : l.countP (fun a => lab a ≤ c) =
    l.countP (fun a => lab a ≤ c-1)+l.countP (fun a => lab a = c) := by
  induction l with
  | nil => rfl
  | cons a l ih =>
    simp only [List.countP_cons, ih, decide_eq_true_iff]
    split_ifs <;> omega

/-- The classes have multiples of `s` samples exactly when the samples up to each of them do. -/
theorem dvd_countP_le_iff :
    (∀ c, s ∣ l.countP fun a => lab a ≤ c) ↔ ∀ c, s ∣ l.countP fun a => lab a = c := by
  constructor
  · intro h c
    exact (Nat.dvd_add_right (h (c-1))).mp (countP_le_eq l c ▸ h c)
  · intro h c
    obtain ⟨low,hlow⟩ : ∃ low, ∀ a ∈ l, low < lab a := by
      refine ⟨(l.map lab).foldr min 0-1,fun a ha => ?_⟩
      have hmin : (l.map lab).foldr min 0 ≤ lab a := by
        clear h
        induction l with
        | nil => cases ha
        | cons b l ih =>
          rcases List.mem_cons.mp ha with rfl | ha
          · exact min_le_left _ _
          · exact (min_le_right _ _).trans (ih ha)
      omega
    have hzero : ∀ c ≤ low, l.countP (fun a => lab a ≤ c) = 0 := by
      intro c hc
      rw [List.countP_eq_zero]
      intro a ha
      have := hlow a ha
      simp only [decide_eq_true_iff]
      omega
    rcases le_total c low with hc | hc
    · rw [hzero c hc]
      exact dvd_zero s
    · induction c, hc using Int.leInduction with
      | base => rw [hzero low le_rfl]; exact dvd_zero s
      | succ c _ ih =>
        rw [countP_le_eq, add_sub_cancel_right]
        exact dvd_add ih (h (c+1))

theorem between_scanl_replicate (l : List α) (k s p : ℕ) :
    between l ((List.replicate k s).scanl (· + ·) p) =
      (List.range k).map fun j => span l (p+j*s) (p+(j+1)*s) := by
  induction k generalizing p with
  | zero => rfl
  | succ k ih =>
    obtain ⟨points,hpoints⟩ :
        ∃ points, (List.replicate k s).scanl (· + ·) (p+s) = (p+s)::points := by
      cases k with
      | zero => exact ⟨[],rfl⟩
      | succ k => exact ⟨_,List.scanl_cons⟩
    rw [List.replicate_succ, List.scanl_cons, hpoints, between_cons_cons, ← hpoints, ih,
      List.range_succ_eq_map, List.map_cons, List.map_map]
    refine congrArg₂ List.cons (by simp) (List.map_congr_left fun j _ => ?_)
    simp only [Function.comp_apply, Nat.succ_eq_add_one, Nat.add_mul, Nat.one_mul]
    rw [Nat.add_assoc, Nat.add_assoc, Nat.add_comm s (j*s), Nat.add_comm s (j*s+s)]

/-- Shards of `s` samples each. -/
theorem arraySplit_equal (hk : 0 < k) (hlen : l.length = k*s) :
    arraySplit l k = (List.range k).map fun j => span l (j*s) ((j+1)*s) := by
  have hsizes : sectionSizes l.length k = List.replicate k s := by
    rw [sectionSizes, hlen, Nat.mul_mod_right, Nat.mul_div_cancel_left s hk]
    simp
  rw [arraySplit, hsizes, between_scanl_replicate]
  simp only [Nat.zero_add]

theorem mem_span_iff {a b : ℕ} {x : α} :
    x ∈ span l a b ↔ ∃ i, ∃ h : i < l.length, a ≤ i ∧ i < b ∧ l[i] = x := by
  rw [span, List.mem_iff_getElem]
  simp only [List.length_drop, List.length_take, List.getElem_drop, List.getElem_take]
  constructor
  · rintro ⟨i,hi,rfl⟩
    exact ⟨a+i,by omega,by omega,by omega,rfl⟩
  · rintro ⟨i,hi,ha,hb,rfl⟩
    refine ⟨i-a,by omega,?_⟩
    simp only [Nat.add_sub_cancel' ha]

/-- Every shard is of one class. -/
def OneClass (lab : α → ℤ) (shards : List (List α)) : Prop :=
  ∀ piece ∈ shards, ∀ x ∈ piece, ∀ y ∈ piece, lab x = lab y

/-- Equal shards in label order are each of one class exactly when the classes are made of whole
shards. -/
theorem oneClass_arraySplit_iff (hl : l.Pairwise fun a b => lab a ≤ lab b) (hk : 0 < k)
    (hlen : l.length = k*s) :
    OneClass lab (arraySplit l k) ↔ ∀ c, s ∣ l.countP fun a => lab a = c := by
  rw [arraySplit_equal hk hlen, ← dvd_countP_le_iff]
  constructor
  · intro hpure c
    by_contra hdvd
    -- the last sample up to `c` and the first past it are in one shard
    obtain ⟨m,hm⟩ : ∃ m, l.countP (fun a => lab a ≤ c) = m := ⟨_,rfl⟩
    have hle : m ≤ k*s := hm ▸ hlen ▸ List.countP_le_length
    rw [hm] at hdvd
    have hmod : 0 < m%s := Nat.pos_of_ne_zero fun h => hdvd (Nat.dvd_of_mod_eq_zero h)
    have hs : 0 < s := by
      rcases Nat.eq_zero_or_pos s with rfl | hs
      · exact absurd ((Nat.le_zero.mp hle).symm ▸ dvd_zero 0) hdvd
      · exact hs
    have hne : m ≠ k*s := by
      rintro rfl
      exact hdvd (Nat.dvd_mul_left s k)
    have hdiv := Nat.div_add_mod m s
    have hlt := Nat.mod_lt m hs
    rw [Nat.mul_comm] at hdiv
    have hsucc : (m/s+1)*s = m/s*s+s := Nat.succ_mul ..
    have hj : m/s < k := by
      rw [Nat.div_lt_iff_lt_mul hs]
      omega
    have hlow : m-1 < l.length := by omega
    have hhigh : m < l.length := by omega
    have heq := hpure _ (List.mem_map.mpr ⟨m/s,List.mem_range.mpr hj,rfl⟩)
      l[m-1] (mem_span_iff.mpr ⟨m-1,hlow,by omega,by omega,rfl⟩)
      l[m] (mem_span_iff.mpr ⟨m,hhigh,by omega,by omega,rfl⟩)
    have hin : lab l[m-1] ≤ c := (le_iff_lt_countP hl hlow).mpr (by omega)
    have hlt' := (le_iff_lt_countP hl hhigh).mp (heq ▸ hin)
    omega
  · intro hdvd piece hpiece x hx y hy
    obtain ⟨j,hj,rfl⟩ := List.mem_map.mp hpiece
    obtain ⟨i,hi,hij,hij',rfl⟩ := mem_span_iff.mp hx
    obtain ⟨i',hi',hji,hji',rfl⟩ := mem_span_iff.mp hy
    have hs : 0 < s := by
      rcases Nat.eq_zero_or_pos s with rfl | hs
      · omega
      · exact hs
    have hblock : ∀ n, j*s ≤ n → n < (j+1)*s → n/s = j := fun n hn hn' =>
      Nat.div_eq_of_lt_le hn hn'
    have hsame : ∀ c, lab l[i] ≤ c ↔ lab l[i'] ≤ c := by
      intro c
      obtain ⟨q,hq⟩ := hdvd c
      rw [le_iff_lt_countP hl hi, le_iff_lt_countP hl hi', hq, Nat.mul_comm s q,
        ← Nat.div_lt_iff_lt_mul hs, ← Nat.div_lt_iff_lt_mul hs, hblock i hij hij',
        hblock i' hji hji']
    exact le_antisymm ((hsame _).mpr le_rfl) ((hsame _).mp le_rfl)

end Labels

section Skew
variable {ν : Type} {g : Generator ν} {indices : List ℕ} {lab : ℕ → ℤ} {clients spc s : ℕ}

theorem inLabelOrder_map (lab : ℕ → ℤ) (indices : List ℕ) :
    (inLabelOrder indices (indices.map lab)).Pairwise fun a b => lab a ≤ lab b := by
  rw [inLabelOrder, List.pairwise_map]
  have hsorted : StableSort.SortedBy Prod.snd
      (StableSort.sortBy Prod.snd (indices.zip (indices.map lab))) := StableSort.sortBy_sorted
  refine hsorted.imp_of_mem fun {a b} ha hb hab => ?_
  have hlab : ∀ a ∈ indices.zip (indices.map lab), a.2 = lab a.1 := by
    intro a ha
    rw [← List.map_id indices, List.map_map, List.zip_map', List.mem_map] at ha
    obtain ⟨x,-,rfl⟩ := ha
    rfl
  rwa [hlab a (StableSort.mem_sortBy.mp ha), hlab b (StableSort.mem_sortBy.mp hb)] at hab

/-- A client whose shards are each of one class sees at most one class a shard. -/
theorem card_labels_le {shards : List (List ℕ)} (hpure : OneClass lab shards) (r : List ℕ) :
    ((r.flatMap fun t => shards.getD t []).map lab).toFinset.card ≤ r.length := by
  have hsub : ((r.flatMap fun t => shards.getD t []).map lab).toFinset ⊆
      (r.map fun t => lab ((shards.getD t []).headD 0)).toFinset := by
    intro c hc
    rw [List.mem_toFinset, List.mem_map] at hc ⊢
    obtain ⟨x,hx,rfl⟩ := hc
    obtain ⟨t,ht,hxt⟩ := List.mem_flatMap.mp hx
    refine ⟨t,ht,?_⟩
    rw [List.getD_eq_getElem?_getD] at hxt ⊢
    cases hpiece : shards[t]? with
    | none =>
      rw [hpiece] at hxt
      cases hxt
    | some piece =>
      rw [hpiece] at hxt
      cases piece with
      | nil => cases hxt
      | cons y piece =>
        exact hpure _ (List.mem_of_getElem? hpiece) y List.mem_cons_self x hxt
  exact (Finset.card_le_card hsub).trans ((List.toFinset_card_le _).trans_eq (List.length_map _))

/-- The skew of `shard`: where the data makes shards of equal size, they are each of one class
exactly when every class is made of whole shards, and then no client sees more classes than it
holds shards, however they are dealt. -/
theorem shard_skew (g : Generator ν) (indices : List ℕ) (lab : ℕ → ℤ)
    (hshards : 0 < clients*spc) (hlen : indices.length = clients*spc*s) :
    ∃ parts, shard g indices (some (indices.map lab)) clients spc = .ok parts ∧
      (OneClass lab (arraySplit (inLabelOrder indices (indices.map lab)) (clients*spc)) ↔
        ∀ c, s ∣ indices.countP fun x => lab x = c) ∧
      ((∀ c, s ∣ indices.countP fun x => lab x = c) →
        ∀ part ∈ parts, (part.map lab).toFinset.card ≤ spc) := by
  have hperm : (inLabelOrder indices (indices.map lab)).Perm indices :=
    inLabelOrder_perm (List.length_map lab)
  have hpure := oneClass_arraySplit_iff (inLabelOrder_map lab indices) hshards
    (hperm.length_eq.trans hlen)
  simp only [fun c => hperm.countP_eq fun x => decide (lab x = c)] at hpure
  refine ⟨_,by simp only [shard, sections, if_neg hshards.ne']; rfl,hpure,fun hdvd part hpart => ?_⟩
  obtain ⟨i,-,rfl⟩ := List.mem_map.mp hpart
  exact (card_labels_le (hpure.mpr hdvd) _).trans (List.length_take_le _ _)

def parity (x : ℕ) : ℤ := x%2

/-- Two classes of four samples in four shards of two. -/
theorem shard_skew_twoClasses :
    ∃ parts, shard unshuffled (List.range 8) (some ((List.range 8).map parity)) 2 2 = .ok parts ∧
      (OneClass parity (arraySplit (inLabelOrder (List.range 8) ((List.range 8).map parity)) (2*2)) ↔
        ∀ c, 2 ∣ (List.range 8).countP fun x => parity x = c) ∧
      ((∀ c, 2 ∣ (List.range 8).countP fun x => parity x = c) →
        ∀ part ∈ parts, (part.map parity).toFinset.card ≤ 2) :=
  shard_skew unshuffled (List.range 8) parity (by decide) (by decide)

end Skew
end ConfluxFL.Partition
