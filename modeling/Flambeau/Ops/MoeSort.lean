import Flambeau.Systems.CountingSort
import Flambeau.Systems.Spans
import Mathlib.Data.List.Basic

namespace Flambeau.Ops
open Systems

/-- The experts that a batch of tokens is routed to, and the capacity of its scratch. -/
structure Routing where
  nTokens : Nat
  topK : Nat
  nExperts : Nat
  /-- `[n_tokens, top_k]`. -/
  expertIds : List Nat
  maxTokens : Nat
  tokens_lt : nTokens < 2 ^ 15
  topK_lt : topK < 2 ^ 16
  experts_le : nExperts ≤ 512
  ids_length : expertIds.length = nTokens * topK
  ids_lt : ∀ e ∈ expertIds, e < nExperts
  tokens_le : nTokens ≤ maxTokens
  grid_lt : maxTokens * topK + 7 < 2 ^ 32

namespace Routing

variable (r : Routing)

def total : Nat := r.nTokens * r.topK

def ids (i : Nat) : Nat := r.expertIds.getD i 0

end Routing

def indexedMoeMmqX : Nat := 8

/-- `bucket_expert` and `bucket_slots`, -1 for padding. -/
structure Buckets where
  bucketExpert : List Nat
  bucketSlots : List Int
deriving Repr, DecidableEq

/-- `(t << 16) | slot` of pair `t * top_k + slot`. -/
def packPair (topK i : Nat) : Int := (((i / topK) <<< 16 ||| i % topK : Nat) : Int)

/-- Count, reserve whole buckets expert by expert, then scatter the pairs in order. -/
def buildExpertBuckets (r : Routing) : Buckets :=
  if r.total = 0 then ⟨[], []⟩
  else
    let nExperts := r.expertIds.foldl max 0 + 1
    let counts := histogram r.ids (fun _ => 0) (List.range r.expertIds.length)
    let padded := fun e => divCeil (counts e) indexedMoeMmqX * indexedMoeMmqX
    let starts := below padded
    let slots := (scatter r.ids (packPair r.topK) starts (fun _ => -1) r.total).2
    { bucketExpert := (List.range nExperts).flatMap fun e =>
        List.replicate (divCeil (counts e) indexedMoeMmqX) e
      bucketSlots := (List.range (below padded nExperts)).map slots }

/-- `MAX_N_EXPERTS` is the block of the scan kernels; their offsets are 1 to 256. -/
def scanRoundsOf512 : Nat := 9

/-- The exclusive scan of one block: inclusive rounds, then a shift by one thread. -/
def blockScan (v : Nat → Nat) (tid : Nat) : Nat :=
  if tid = 0 then 0 else scanRounds v scanRoundsOf512 (tid - 1)

/-- The device's buffers before the launches, and the order in which the threads of the
two many-block kernels get to memory. -/
structure SortRun (r : Routing) where
  counts : Nat → Nat
  offsets : Nat → Nat
  cursors : Nat → Nat
  sortedPairIdx : Nat → Int
  paddedOffsets : Nat → Nat
  sortedPairIdxPadded : Nat → Int
  countOrder : List Nat
  copyOrder : List (Nat × Nat)
  countOrder_perm : countOrder.Perm (List.range (divCeil r.total 256 * 256))
  copyOrder_perm : copyOrder.Perm ((List.range r.nExperts).flatMap fun e =>
    (List.range (max (divCeil ((r.maxTokens * r.topK + 7) / 8 * 8) 256) 1 * 256)).map fun i => (e, i))

namespace SortRun

variable {r : Routing} (run : SortRun r)

/-- `flambeau_moe_sort_zero_counts`. -/
def zeroed (tid : Nat) : Nat := if tid < r.nExperts ∧ tid < 512 then 0 else run.counts tid

/-- `flambeau_moe_sort_count`. -/
def counted : Nat → Nat := histogram r.ids run.zeroed (run.countOrder.filter (· < r.total))

/-- `offsets` and `cursors` of `flambeau_moe_sort_scan_offsets`; its last entry is a sum of
one thread. -/
def scannedOffsets (tid : Nat) : Nat :=
  if tid < r.nExperts then blockScan (fun t => if t < r.nExperts then run.counted t else 0) tid
  else if tid = r.nExperts then below run.counted r.nExperts
  else run.offsets tid

def scannedCursors (tid : Nat) : Nat :=
  if tid < r.nExperts then blockScan (fun t => if t < r.nExperts then run.counted t else 0) tid
  else run.cursors tid

/-- `flambeau_moe_sort_scatter_det`. -/
def scattered : Nat → Int :=
  (scatter r.ids (fun i => (i : Int)) run.scannedCursors run.sortedPairIdx r.total).2

/-- `(counts[e] + 7) & ~7`. -/
def paddedCount (e : Nat) : Nat := (run.counted e + 7) / 8 * 8

/-- `flambeau_moe_sort_scan_padded_offsets`. -/
def scannedPadded (tid : Nat) : Nat :=
  if tid < r.nExperts then blockScan (fun t => if t < r.nExperts then run.paddedCount t else 0) tid
  else if tid = r.nExperts then below run.paddedCount r.nExperts
  else run.paddedOffsets tid

/-- The write of one thread of `flambeau_moe_sort_pad_copy`. -/
def padWrite (thread : Nat × Nat) : Option (Nat × Int) :=
  let e := thread.1
  let padIdx := thread.2
  if run.scannedPadded (e + 1) - run.scannedPadded e ≤ padIdx then none
  else
    let realCount := run.counted e
    let pair :=
      if padIdx < realCount then run.scattered (run.scannedOffsets e + padIdx)
      else if 0 < realCount then run.scattered (run.scannedOffsets e + realCount - 1)
      else -1
    some (run.scannedPadded e + padIdx, pair)

def padCopied : Nat → Int := writeAll run.sortedPairIdxPadded (run.copyOrder.filterMap run.padWrite)

end SortRun

namespace Routing

variable {r : Routing}

theorem ids_mem (hi : i < r.total) : r.ids i ∈ r.expertIds := by
  have hlen : i < r.expertIds.length := by
    rw [r.ids_length]
    exact hi
  unfold ids
  rw [List.getD_eq_getElem?_getD, List.getElem?_eq_getElem hlen]
  exact List.getElem_mem hlen

theorem ids_lt_experts (hi : i < r.total) : r.ids i < r.nExperts := r.ids_lt _ (ids_mem hi)

theorem all_ids_lt : ∀ i < r.total, r.ids i < r.nExperts := fun _ => ids_lt_experts

end Routing

theorem blockScan_eq (v : Nat → Nat) (h : tid < 512) : blockScan v tid = below v tid := by
  unfold blockScan
  by_cases hzero : tid = 0
  · rw [if_pos hzero, hzero]
    rfl
  · have hrounds : tid - 1 < 2 ^ scanRoundsOf512 := by
      unfold scanRoundsOf512
      omega
    rw [if_neg hzero, scanRounds_all v hrounds, Nat.sub_add_cancel (by omega)]

namespace SortRun

variable {r : Routing} (run : SortRun r)

theorem counted_eq (he : e < r.nExperts) : run.counted e = keyRank r.ids e r.total := by
  have hle := r.experts_le
  have hgrid : r.total ≤ divCeil r.total 256 * 256 := le_divCeil_mul (by decide) r.total
  have hzero : run.zeroed e = 0 := if_pos ⟨he, by omega⟩
  unfold counted
  rw [histogram_eq, hzero, countP_threads r.ids e run.countOrder_perm hgrid, Nat.zero_add]

theorem counted_room : ∀ e < r.nExperts, keyRank r.ids e r.total ≤ run.counted e :=
  fun _ he => Nat.le_of_eq (run.counted_eq he).symm

theorem scan_eq (v : Nat → Nat) (he : e < r.nExperts) :
    blockScan (fun t => if t < r.nExperts then v t else 0) e = below v e := by
  have hle := r.experts_le
  rw [blockScan_eq _ (by omega)]
  exact below_congr fun t ht => if_pos (by omega)

theorem scannedOffsets_eq (he : e ≤ r.nExperts) : run.scannedOffsets e = below run.counted e := by
  unfold scannedOffsets
  by_cases hlt : e < r.nExperts
  · rw [if_pos hlt, scan_eq _ hlt]
  · have heq : e = r.nExperts := by omega
    rw [if_neg hlt, if_pos heq, heq]

theorem scannedCursors_eq (he : e < r.nExperts) : run.scannedCursors e = below run.counted e := by
  unfold scannedCursors
  rw [if_pos he, scan_eq _ he]

theorem scannedPadded_eq (he : e ≤ r.nExperts) :
    run.scannedPadded e = below run.paddedCount e := by
  unfold scannedPadded
  by_cases hlt : e < r.nExperts
  · rw [if_pos hlt, scan_eq _ hlt]
  · have heq : e = r.nExperts := by omega
    rw [if_neg hlt, if_pos heq, heq]

theorem counted_total : below run.counted r.nExperts = r.total := by
  rw [below_congr fun e he => run.counted_eq he]
  exact below_keyRank_all Routing.all_ids_lt

/-- The place of a pair in the sorted list. -/
abbrev position (i : Nat) : Nat := place (below run.counted) r.ids i

theorem position_lt (hi : i < r.total) : run.position i < r.total := by
  have hlt := place_lt run.counted_room Routing.all_ids_lt hi
  rw [counted_total] at hlt
  exact hlt

theorem position_lt_iff (hi : i < r.total) (hj : j < r.total) :
    run.position i < run.position j ↔ r.ids i < r.ids j ∨ r.ids i = r.ids j ∧ i < j :=
  place_lt_iff run.counted_room Routing.all_ids_lt hi hj

theorem position_onto (hp : p < r.total) : ∃ i < r.total, run.position i = p :=
  place_onto (fun e he => run.counted_eq he) (by rwa [counted_total])

theorem scattered_position (hi : i < r.total) : run.scattered (run.position i) = i := by
  have hstart : ∀ i < r.total, run.scannedCursors (r.ids i) = below run.counted (r.ids i) :=
    fun i hi => run.scannedCursors_eq (Routing.ids_lt_experts hi)
  obtain ⟨-, hplaced, -⟩ := scatter_spec run.counted_room
    Routing.all_ids_lt (fun i => (i : Int)) run.sortedPairIdx hstart (Nat.le_refl _)
  exact hplaced i hi

/-- A place in the range of an expert holds a pair of that expert. -/
theorem scattered_range (he : e < r.nExperts) (hk : k < run.counted e) :
    ∃ i < r.total, r.ids i = e ∧ run.position i = below run.counted e + k ∧
      run.scattered (below run.counted e + k) = i := by
  have hend : below run.counted (e + 1) ≤ r.total := by
    rw [← run.counted_total]
    exact below_mono _ he
  have hlt : below run.counted e + k < below run.counted (e + 1) := by
    rw [below]
    omega
  obtain ⟨i, hi, hposition⟩ := run.position_onto (show below run.counted e + k < r.total by omega)
  have hrange := place_range run.counted_room
    Routing.all_ids_lt hi
  have hplace : place (below run.counted) r.ids i = below run.counted e + k := hposition
  rw [hplace] at hrange
  have hexpert : r.ids i = e :=
    range_unique run.counted hrange.1 hrange.2 (Nat.le_add_right _ _) hlt
  refine ⟨i, hi, hexpert, hposition, ?_⟩
  rw [← hposition]
  exact run.scattered_position hi

/-- The sorted list is the stable sort of the pairs by expert. -/
theorem scattered_sorted : ((List.range r.total).map run.scattered).Pairwise fun a b =>
    r.ids a.toNat < r.ids b.toNat ∨ r.ids a.toNat = r.ids b.toNat ∧ a < b := by
  rw [List.pairwise_map]
  refine List.Pairwise.imp_of_mem ?_ List.pairwise_lt_range
  intro p q hp hq hlt
  obtain ⟨i, hi, rfl⟩ := run.position_onto (List.mem_range.mp hp)
  obtain ⟨j, hj, rfl⟩ := run.position_onto (List.mem_range.mp hq)
  rw [run.scattered_position hi, run.scattered_position hj]
  rcases (run.position_lt_iff hi hj).mp hlt with hless | ⟨hsame, hbefore⟩
  · exact .inl hless
  · exact .inr ⟨hsame, Int.ofNat_lt.mpr hbefore⟩

theorem scattered_perm :
    ((List.range r.total).map run.scattered).Perm ((List.range r.total).map fun i : Nat => (i : Int)) := by
  have hnodup : ((List.range r.total).map run.scattered).Nodup := by
    refine run.scattered_sorted.imp ?_
    rintro a b (hless | ⟨-, hbefore⟩) rfl
    · exact Nat.lt_irrefl _ hless
    · exact Int.lt_irrefl _ hbefore
  have hpairs : ((List.range r.total).map fun i : Nat => (i : Int)).Nodup := by
    rw [List.Nodup, List.pairwise_map]
    refine List.Pairwise.imp ?_ List.pairwise_lt_range
    intro a b hlt heq
    exact Nat.ne_of_lt hlt (Int.ofNat_inj.mp heq)
  refine (List.perm_ext_iff_of_nodup hnodup hpairs).mpr fun x => ?_
  rw [List.mem_map, List.mem_map]
  constructor
  · rintro ⟨p, hp, rfl⟩
    obtain ⟨i, hi, rfl⟩ := run.position_onto (List.mem_range.mp hp)
    exact ⟨i, List.mem_range.mpr hi, (run.scattered_position hi).symm⟩
  · rintro ⟨i, hi, rfl⟩
    rw [List.mem_range] at hi
    exact ⟨run.position i, List.mem_range.mpr (run.position_lt hi), run.scattered_position hi⟩

theorem padded_eq (e : Nat) :
    below run.paddedCount e = below (fun e => (run.counted e + 7) / 8) e * 8 :=
  below_mul _ 8 e

theorem counted_le_padded (e : Nat) : run.counted e ≤ run.paddedCount e := by
  unfold paddedCount
  omega

theorem paddedCount_le (e : Nat) : run.paddedCount e ≤ run.counted e + 7 := by
  unfold paddedCount
  omega

/-- The pair that the padded list has at place `k` of an expert. -/
def padPair (e k : Nat) : Int :=
  run.scattered (below run.counted e + min k (run.counted e - 1))

theorem padWrite_eq (he : e < r.nExperts) : run.padWrite (e, k) =
    if k < run.paddedCount e then some (below run.paddedCount e + k, run.padPair e k) else none := by
  have hroom : run.scannedPadded (e + 1) - run.scannedPadded e = run.paddedCount e := by
    rw [run.scannedPadded_eq he, run.scannedPadded_eq (by omega), below]
    omega
  unfold padWrite
  simp only [hroom]
  by_cases hk : k < run.paddedCount e
  · rw [if_neg (by omega), if_pos hk, run.scannedPadded_eq (by omega),
      run.scannedOffsets_eq (by omega)]
    unfold padPair
    by_cases hreal : k < run.counted e
    · rw [if_pos hreal, Nat.min_eq_left (by omega)]
    · have hsome : 0 < run.counted e := by
        unfold paddedCount at hk
        omega
      rw [if_neg hreal, if_pos hsome, Nat.min_eq_right (by omega), Nat.add_sub_assoc hsome]
  · rw [if_pos (by omega), if_neg hk]

/-- The grid reaches every place of every expert. -/
theorem thread_mem (he : e < r.nExperts) (hk : k < run.paddedCount e) :
    (e, k) ∈ run.copyOrder := by
  have hcount : run.counted e ≤ r.total := by
    have hend := below_mono run.counted (show e + 1 ≤ r.nExperts from he)
    rw [run.counted_total, below] at hend
    omega
  have htotal : r.total ≤ r.maxTokens * r.topK := Nat.mul_le_mul_right _ r.tokens_le
  have hblocks := le_divCeil_mul (show 0 < 256 by decide) ((r.maxTokens * r.topK + 7) / 8 * 8)
  have hgrid := Nat.mul_le_mul_right 256
    (Nat.le_max_left (divCeil ((r.maxTokens * r.topK + 7) / 8 * 8) 256) 1)
  have hlt : k < max (divCeil ((r.maxTokens * r.topK + 7) / 8 * 8) 256) 1 * 256 := by
    unfold paddedCount at hk
    omega
  rw [run.copyOrder_perm.mem_iff, List.mem_flatMap]
  exact ⟨e, List.mem_range.mpr he, List.mem_map.mpr ⟨k, List.mem_range.mpr hlt, rfl⟩⟩

/-- The only write to a place of the padded list is that of its own thread. -/
theorem padCopied_eq (he : e < r.nExperts) (hk : k < run.paddedCount e) :
    run.padCopied (below run.paddedCount e + k) = run.padPair e k := by
  have hwrites : ∀ w ∈ run.copyOrder.filterMap run.padWrite, ∃ e < r.nExperts, ∃ k < run.paddedCount e,
      w = (below run.paddedCount e + k, run.padPair e k) := by
    intro w hw
    obtain ⟨⟨e, k⟩, hthread, hwrite⟩ := List.mem_filterMap.mp hw
    rw [run.copyOrder_perm.mem_iff, List.mem_flatMap] at hthread
    obtain ⟨e', he', hthread⟩ := hthread
    obtain ⟨k', -, heq⟩ := List.mem_map.mp hthread
    obtain ⟨rfl, rfl⟩ := Prod.mk.inj heq
    rw [run.padWrite_eq (List.mem_range.mp he')] at hwrite
    split at hwrite
    · rename_i hk'
      exact ⟨e', List.mem_range.mp he', k', hk', (Option.some.inj hwrite).symm⟩
    · exact absurd hwrite (Option.some_ne_none w).symm
  have hagree : ∀ w ∈ run.copyOrder.filterMap run.padWrite,
      ∀ w' ∈ run.copyOrder.filterMap run.padWrite, w.1 = w'.1 → w.2 = w'.2 := by
    intro w hw w' hw' hplace
    obtain ⟨e, he, k, hk, rfl⟩ := hwrites w hw
    obtain ⟨e', he', k', hk', rfl⟩ := hwrites w' hw'
    change below run.paddedCount e + k = below run.paddedCount e' + k' at hplace
    have hend : below run.paddedCount (e + 1) = below run.paddedCount e + run.paddedCount e := rfl
    have hend' : below run.paddedCount (e' + 1) = below run.paddedCount e' + run.paddedCount e' := rfl
    have hexpert : e = e' := range_unique run.paddedCount (Nat.le_add_right _ k) (by omega)
      (by omega) (by omega)
    subst hexpert
    have hsame : k = k' := by omega
    rw [hsame]
  have hmem : (below run.paddedCount e + k, run.padPair e k) ∈
      run.copyOrder.filterMap run.padWrite := by
    refine List.mem_filterMap.mpr ⟨(e, k), run.thread_mem he hk, ?_⟩
    rw [run.padWrite_eq he, if_pos hk]
  exact writeAll_spec run.sortedPairIdxPadded hagree _ hmem

/-- A place in an expert's padded range holds a pair of that expert. -/
theorem padCopied_range (he : e < r.nExperts) (hlo : below run.paddedCount e ≤ p)
    (hhi : p < below run.paddedCount (e + 1)) :
    ∃ i < r.total, r.ids i = e ∧ run.padCopied p = i := by
  rw [below] at hhi
  have hk : p - below run.paddedCount e < run.paddedCount e := by omega
  have hsome : 0 < run.counted e := by
    unfold paddedCount at hk
    omega
  have hvalue := run.padCopied_eq he hk
  rw [show below run.paddedCount e + (p - below run.paddedCount e) = p by omega] at hvalue
  obtain ⟨i, hi, hexpert, -, hpair⟩ := run.scattered_range he
    (show min (p - below run.paddedCount e) (run.counted e - 1) < run.counted e by omega)
  exact ⟨i, hi, hexpert, hvalue.trans hpair⟩

end SortRun

/-- The host's buckets: every pair in one position, in a bucket of its expert. -/
structure BucketsHold (r : Routing) (b : Buckets) : Prop where
  slots_length : b.bucketSlots.length = b.bucketExpert.length * indexedMoeMmqX
  experts_ascend : b.bucketExpert.Pairwise (· ≤ ·)
  pair_once : ∀ t < r.nTokens, ∀ slot < r.topK,
    ∃ p, b.bucketExpert[p / indexedMoeMmqX]? = some (r.ids (t * r.topK + slot)) ∧
      ∀ q, b.bucketSlots[q]? = some ((t <<< 16 ||| slot : Nat) : Int) ↔ q = p
  rest_padding : ∀ v ∈ b.bucketSlots,
    v = -1 ∨ ∃ t < r.nTokens, ∃ slot < r.topK, v = ((t <<< 16 ||| slot : Nat) : Int)

/-- The device's counts and sorted list. -/
structure SortHolds {r : Routing} (run : SortRun r) : Prop where
  counts : ∀ e < r.nExperts, run.counted e = (List.range r.total).countP (r.ids · = e)
  offsets : ∀ e ≤ r.nExperts, run.scannedOffsets e = (List.range r.total).countP (r.ids · < e)
  sorted_perm :
    ((List.range r.total).map run.scattered).Perm ((List.range r.total).map fun i : Nat => (i : Int))
  sorted_stable : ((List.range r.total).map run.scattered).Pairwise fun a b =>
    r.ids a.toNat < r.ids b.toNat ∨ r.ids a.toNat = r.ids b.toNat ∧ a < b

/-- The padded list as the tile kernels index it. -/
structure PaddedHolds {r : Routing} (run : SortRun r) : Prop where
  starts : run.scannedPadded 0 = 0
  grows : ∀ e < r.nExperts, run.scannedPadded (e + 1) =
    run.scannedPadded e + divCeil (run.counted e) indexedMoeMmqX * indexedMoeMmqX
  total_le : run.scannedPadded r.nExperts ≤ r.total + r.nExperts * indexedMoeMmqX
  group_expert : ∀ p < run.scannedPadded r.nExperts, ∃ i < r.total, ∃ first < r.total,
    run.padCopied p = i ∧ run.padCopied (p / indexedMoeMmqX * indexedMoeMmqX) = first ∧
      r.ids i = r.ids first
  pair_once : ∀ i < r.total, ∃ k < run.counted (r.ids i), ∀ e < r.nExperts, ∀ k' < run.counted e,
    run.padCopied (run.scannedPadded e + k') = i ↔ e = r.ids i ∧ k' = k
  rest_repeats : ∀ e < r.nExperts, ∀ k, run.counted e ≤ k →
    run.scannedPadded e + k < run.scannedPadded (e + 1) →
    run.padCopied (run.scannedPadded e + k) =
      run.scattered (run.scannedOffsets e + run.counted e - 1)

theorem le_foldl_max (ids : List Nat) (first : Nat) :
    first ≤ ids.foldl max first ∧ ∀ e ∈ ids, e ≤ ids.foldl max first := by
  induction ids generalizing first with
  | nil => exact ⟨Nat.le_refl _, fun e he => absurd he List.not_mem_nil⟩
  | cons e rest ih =>
    obtain ⟨hfirst, hrest⟩ := ih (max first e)
    refine ⟨Nat.le_trans (Nat.le_max_left _ _) hfirst, ?_⟩
    intro e' he'
    rcases List.mem_cons.mp he' with rfl | he'
    · exact Nat.le_trans (Nat.le_max_right _ _) hfirst
    · exact hrest e' he'

theorem packPair_pair (r : Routing) (hslot : slot < r.topK) :
    packPair r.topK (t * r.topK + slot) = ((t <<< 16 ||| slot : Nat) : Int) := by
  have hpos : 0 < r.topK := by omega
  unfold packPair
  rw [Nat.mul_comm t, Nat.mul_add_div hpos, Nat.mul_add_mod, Nat.div_eq_of_lt hslot,
    Nat.mod_eq_of_lt hslot, Nat.add_zero]

theorem packPair_inj (r : Routing) (hpos : 0 < r.topK)
    (h : packPair r.topK i = packPair r.topK j) : i = j := by
  have hpack : ∀ i, packPair r.topK i = ((i / r.topK * 2 ^ 16 + i % r.topK : Nat) : Int) := by
    intro i
    have hslot : i % r.topK < 2 ^ 16 := Nat.lt_trans (Nat.mod_lt i hpos) r.topK_lt
    unfold packPair
    rw [← Nat.shiftLeft_add_eq_or_of_lt hslot, Nat.shiftLeft_eq]
  rw [hpack, hpack, Int.ofNat_inj] at h
  have hi := Nat.mod_lt i hpos
  have hj := Nat.mod_lt j hpos
  have hbound := r.topK_lt
  have htoken : i / r.topK = j / r.topK := by omega
  have hslot : i % r.topK = j % r.topK := by omega
  rw [← Nat.div_add_mod i r.topK, ← Nat.div_add_mod j r.topK, htoken, hslot]

theorem packPair_ne (topK i : Nat) : packPair topK i ≠ -1 := by
  unfold packPair
  omega

/-- Every pair is that of a token and a slot. -/
theorem pair_split (r : Routing) (hi : i < r.total) :
    ∃ t < r.nTokens, ∃ slot < r.topK, i = t * r.topK + slot := by
  have hpos : 0 < r.topK := Nat.pos_of_mul_pos_left (Nat.zero_lt_of_lt hi)
  refine ⟨i / r.topK, Nat.div_lt_of_lt_mul ?_, i % r.topK, Nat.mod_lt i hpos, ?_⟩
  · rw [Nat.mul_comm]
    exact hi
  · rw [Nat.mul_comm]
    exact (Nat.div_add_mod i r.topK).symm

theorem pair_lt (r : Routing) (ht : t < r.nTokens) (hslot : slot < r.topK) :
    t * r.topK + slot < r.total := by
  have hmul := Nat.mul_le_mul_right r.topK (show t + 1 ≤ r.nTokens from ht)
  rw [Nat.add_mul] at hmul
  unfold Routing.total
  omega

theorem getElem?_map_range {f : Nat → Int} {n q : Nat} {v : Int} :
    ((List.range n).map f)[q]? = some v ↔ q < n ∧ f q = v := by
  rw [List.getElem?_map]
  by_cases hq : q < n
  · rw [List.getElem?_range hq, Option.map_some, Option.some.injEq]
    exact ⟨fun h => ⟨hq, h⟩, fun h => h.2⟩
  · rw [List.getElem?_eq_none (by rw [List.length_range]; omega)]
    exact ⟨fun h => absurd h.symm (Option.some_ne_none v), fun h => absurd h.1 hq⟩

section Packed
variable {r : Routing} {size : Nat → Nat} {n : Nat}
  (hroom : ∀ e < n, keyRank r.ids e r.total ≤ size e) (hkeys : ∀ i < r.total, r.ids i < n)
include hroom hkeys

/-- A pair stands at its place and nowhere else. -/
theorem scattered_pair_iff (hi : i < r.total) (q : Nat) :
    (scatter r.ids (packPair r.topK) (below size) (fun _ => -1) r.total).2 q = packPair r.topK i ↔
      q = place (below size) r.ids i := by
  obtain ⟨-, hplaced, hothers⟩ := scatter_spec hroom hkeys (packPair r.topK) (fun _ => -1)
    (fun i _ => rfl) (Nat.le_refl _)
  have hpos : 0 < r.topK := Nat.pos_of_mul_pos_left (Nat.zero_lt_of_lt hi)
  constructor
  · intro hq
    by_cases hitem : ∃ j < r.total, q = place (below size) r.ids j
    · obtain ⟨j, hj, rfl⟩ := hitem
      rw [packPair_inj r hpos ((hplaced j hj).symm.trans hq)]
    · have hvalue := hothers q fun j hj h => hitem ⟨j, hj, h⟩
      exact absurd (hq.symm.trans hvalue) (packPair_ne _ _)
  · rintro rfl
    exact hplaced i hi

/-- What stands in a bucket is a pair or the padding. -/
theorem scattered_pad_or_pair (q : Nat) :
    (scatter r.ids (packPair r.topK) (below size) (fun _ => -1) r.total).2 q = -1 ∨
      ∃ t < r.nTokens, ∃ slot < r.topK,
        (scatter r.ids (packPair r.topK) (below size) (fun _ => -1) r.total).2 q =
          ((t <<< 16 ||| slot : Nat) : Int) := by
  obtain ⟨-, hplaced, hothers⟩ := scatter_spec hroom hkeys (packPair r.topK) (fun _ => -1)
    (fun i _ => rfl) (Nat.le_refl _)
  by_cases hitem : ∃ j < r.total, q = place (below size) r.ids j
  · obtain ⟨j, hj, rfl⟩ := hitem
    obtain ⟨t, ht, slot, hslot, rfl⟩ := pair_split r hj
    refine .inr ⟨t, ht, slot, hslot, ?_⟩
    rw [← packPair_pair r hslot]
    exact hplaced _ hj
  · exact .inl (hothers q fun j hj h => hitem ⟨j, hj, h⟩)

end Packed

theorem buildExpertBuckets_holds (r : Routing) : BucketsHold r (buildExpertBuckets r) := by
  unfold buildExpertBuckets
  by_cases hempty : r.total = 0
  · rw [if_pos hempty]
    refine ⟨rfl, List.Pairwise.nil, ?_, fun v hv => absurd hv List.not_mem_nil⟩
    intro t ht slot hslot
    have hlt := pair_lt r ht hslot
    omega
  · rw [if_neg hempty]
    let n := r.expertIds.foldl max 0 + 1
    let counts := histogram r.ids (fun _ => 0) (List.range r.expertIds.length)
    let chunks := fun e => divCeil (counts e) indexedMoeMmqX
    let padded := fun e => divCeil (counts e) indexedMoeMmqX * indexedMoeMmqX
    let slots := (scatter r.ids (packPair r.topK) (below padded) (fun _ => -1) r.total).2
    have hkeys : ∀ i < r.total, r.ids i < n := fun i hi =>
      Nat.lt_succ_of_le ((le_foldl_max r.expertIds 0).2 _ (Routing.ids_mem hi))
    have hroom : ∀ e < n, keyRank r.ids e r.total ≤ padded e := by
      intro e _
      have hcount : counts e = keyRank r.ids e r.total := by
        change histogram _ _ _ e = _
        rw [histogram_eq, countP_range, r.ids_length, Nat.zero_add]
        rfl
      rw [← hcount]
      exact le_divCeil_mul (by decide) _
    have hpadded : ∀ e, below padded e = below chunks e * indexedMoeMmqX :=
      fun e => below_mul chunks indexedMoeMmqX e
    obtain ⟨hlen, hexperts⟩ := replicate_runs chunks n
    refine ⟨?_, replicate_runs_sorted chunks n, ?_, ?_⟩
    · change ((List.range (below padded n)).map slots).length = _ * _
      rw [List.length_map, List.length_range, hpadded]
      exact congrArg (· * indexedMoeMmqX) hlen.symm
    · intro t ht slot hslot
      have hi := pair_lt r ht hslot
      have hrange := place_range hroom hkeys hi
      have hlt := place_lt hroom hkeys hi
      refine ⟨place (below padded) r.ids (t * r.topK + slot), ?_, ?_⟩
      · refine hexperts _ (hkeys _ hi) _ ?_ ?_
        · rw [Nat.le_div_iff_mul_le (by decide), ← hpadded]
          exact hrange.1
        · rw [Nat.div_lt_iff_lt_mul (by decide), ← hpadded]
          exact hrange.2
      · intro q
        rw [← packPair_pair r hslot]
        refine getElem?_map_range.trans ?_
        rw [scattered_pair_iff hroom hkeys hi q]
        exact ⟨fun h => h.2, fun h => ⟨h ▸ hlt, h⟩⟩
    · intro v hv
      obtain ⟨q, -, rfl⟩ := List.mem_map.mp hv
      exact scattered_pad_or_pair hroom hkeys q

namespace SortRun

variable {r : Routing} (run : SortRun r)

theorem sort_holds : SortHolds run := by
  refine ⟨?_, ?_, run.scattered_perm, run.scattered_sorted⟩
  · intro e he
    rw [run.counted_eq he, countP_range]
  · intro e he
    rw [run.scannedOffsets_eq he, ← below_keyRank]
    exact below_congr fun e' he' => run.counted_eq (by omega)

theorem below_padded_le (e : Nat) : below run.paddedCount e ≤ below run.counted e + e * 8 := by
  induction e with
  | zero => exact Nat.le_refl _
  | succ e ih =>
    have hround := run.paddedCount_le e
    rw [below, below]
    omega

/-- The entries of one tile are pairs of one expert. -/
theorem group_expert (hp : p < below run.paddedCount r.nExperts) :
    ∃ i < r.total, ∃ first < r.total, run.padCopied p = i ∧ run.padCopied (p / 8 * 8) = first ∧
      r.ids i = r.ids first := by
  obtain ⟨e, he, hlo, hhi⟩ := exists_range run.paddedCount hp
  have hmult := run.padded_eq e
  obtain ⟨i, hi, hexpert, hpair⟩ := run.padCopied_range he hlo hhi
  obtain ⟨first, hfirst, hsame, hlead⟩ := run.padCopied_range he
    (show below run.paddedCount e ≤ p / 8 * 8 by omega)
    (show p / 8 * 8 < below run.paddedCount (e + 1) by omega)
  exact ⟨i, hi, first, hfirst, hpair, hlead, hexpert.trans hsame.symm⟩

/-- Of the first places of the experts, only one holds a given pair. -/
theorem padded_pair (hi : i < r.total) :
    ∃ k < run.counted (r.ids i), ∀ e < r.nExperts, ∀ k' < run.counted e,
      run.padCopied (run.scannedPadded e + k') = i ↔ e = r.ids i ∧ k' = k := by
  have hcount := run.counted_eq (Routing.ids_lt_experts hi)
  have hrank : keyRank r.ids (r.ids i) i < run.counted (r.ids i) := by
    rw [hcount]
    exact rank_lt hi
  have hcopied : ∀ e < r.nExperts, ∀ k < run.counted e, run.padCopied (run.scannedPadded e + k) =
      run.scattered (below run.counted e + k) := by
    intro e he k hk
    have hpad := run.counted_le_padded e
    rw [run.scannedPadded_eq (by omega), run.padCopied_eq he (by omega)]
    unfold padPair
    rw [Nat.min_eq_left (by omega)]
  refine ⟨keyRank r.ids (r.ids i) i, hrank, ?_⟩
  intro e he k' hk'
  rw [hcopied e he k' hk']
  constructor
  · intro hvalue
    obtain ⟨j, -, hexpert, hposition, hpair⟩ := run.scattered_range he hk'
    have hsame : j = i := Int.ofNat_inj.mp (hpair.symm.trans hvalue)
    rw [hsame] at hexpert hposition
    unfold position place at hposition
    rw [hexpert] at hposition
    refine ⟨hexpert.symm, ?_⟩
    rw [hexpert]
    omega
  · rintro ⟨rfl, rfl⟩
    exact run.scattered_position hi

theorem padded_holds : PaddedHolds run := by
  have hsize : ∀ e, run.paddedCount e = divCeil (run.counted e) indexedMoeMmqX * indexedMoeMmqX :=
    fun _ => rfl
  refine ⟨run.scannedPadded_eq (Nat.zero_le _), ?_, ?_, ?_, fun i hi => run.padded_pair hi, ?_⟩
  · intro e he
    rw [run.scannedPadded_eq he, run.scannedPadded_eq (by omega), below, hsize]
  · rw [run.scannedPadded_eq (Nat.le_refl _), ← run.counted_total]
    exact run.below_padded_le r.nExperts
  · intro p hp
    rw [run.scannedPadded_eq (Nat.le_refl _)] at hp
    exact run.group_expert hp
  · intro e he k hreal hk
    rw [run.scannedPadded_eq he, run.scannedPadded_eq (by omega), below] at hk
    have hsome : 0 < run.counted e := by
      have hk' : k < run.paddedCount e := by omega
      unfold paddedCount at hk'
      omega
    rw [run.scannedPadded_eq (by omega), run.padCopied_eq he (by omega),
      run.scannedOffsets_eq (by omega)]
    unfold padPair
    rw [Nat.min_eq_right (by omega), Nat.add_sub_assoc hsome]

end SortRun

/-- The host's buckets hold every pair once, and every run of the device leaves the stable
sort and its padded groups. -/
theorem expert_sort_stable (r : Routing) : BucketsHold r (buildExpertBuckets r) ∧
    ∀ run : SortRun r, SortHolds run ∧ PaddedHolds run :=
  ⟨buildExpertBuckets_holds r, fun run => ⟨run.sort_holds, run.padded_holds⟩⟩

/-- One token with one expert. -/
def oneToken : Routing where
  nTokens := 1
  topK := 1
  nExperts := 1
  expertIds := [0]
  maxTokens := 1
  tokens_lt := by decide
  topK_lt := by decide
  experts_le := by decide
  ids_length := rfl
  ids_lt := by decide
  tokens_le := Nat.le_refl _
  grid_lt := by decide

def oneTokenRun : SortRun oneToken where
  counts _ := 0
  offsets _ := 0
  cursors _ := 0
  sortedPairIdx _ := 0
  paddedOffsets _ := 0
  sortedPairIdxPadded _ := 0
  countOrder := List.range (divCeil oneToken.total 256 * 256)
  copyOrder := (List.range oneToken.nExperts).flatMap fun e =>
    (List.range (max (divCeil ((oneToken.maxTokens * oneToken.topK + 7) / 8 * 8) 256) 1 * 256)).map
      fun i => (e, i)
  countOrder_perm := List.Perm.refl _
  copyOrder_perm := List.Perm.refl _

/-- Padding repeats the last pair: the only pair is at both the first and the last place of
its group. -/
theorem padding_repeats_pair : oneTokenRun.scannedPadded oneToken.nExperts = 8 ∧
    oneTokenRun.padCopied 0 = 0 ∧ oneTokenRun.padCopied 7 = 0 := by
  have hcount : oneTokenRun.counted 0 = 1 := oneTokenRun.counted_eq (show 0 < 1 by decide)
  have hpadded : oneTokenRun.paddedCount 0 = 8 := by
    unfold SortRun.paddedCount
    rw [hcount]
  have hpair : ∀ p < 8, oneTokenRun.padCopied p = 0 := by
    intro p hp
    obtain ⟨i, hi, -, hpair⟩ := oneTokenRun.padCopied_range (show 0 < 1 by decide) (Nat.zero_le p)
      (by rw [below, hpadded]; omega)
    have hfirst : i = 0 := Nat.lt_one_iff.mp hi
    rw [hpair, hfirst]
    rfl
  refine ⟨?_, hpair 0 (by decide), hpair 7 (by decide)⟩
  rw [oneTokenRun.scannedPadded_eq (Nat.le_refl _)]
  change below oneTokenRun.paddedCount 1 = 8
  rw [below, hpadded]
  rfl

end Flambeau.Ops
