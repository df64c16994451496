import Flambeau.Ops.MoeSort
import Flambeau.Ops.QMatmul

namespace Flambeau.Ops
open Systems
open Forward (QDtype)

/-! The routed experts of a MoE layer, with exact arithmetic. -/

inductive Activation where
  | swiGLU
  | gelu
deriving DecidableEq

structure WeightHandle (B : Type) where
  ptr : B
  dtype : QDtype

/-- What the kernels take from outside: the values of a tensor read as a type, the rounding of
a block by Q8_1, and the two activations. -/
structure Arithmetic (B R : Type) where
  decode : QDtype → B → Nat → R
  q8_1 : (Fin 32 → R) → Fin 32 → R
  silu : R → R
  gelu : R → R

/-- `MoeExperts`; `n_experts` and `top_k` are those of the routing. -/
structure MoeExperts (B : Type) where
  ffnGateExps : WeightHandle B
  ffnUpExps : WeightHandle B
  ffnDownExps : WeightHandle B
  hidden : Nat
  intermediate : Nat
  activation : Activation
  tile8MinTokens : Option Nat
  hidden_blocks : blockElems ffnGateExps.dtype ∣ hidden
  inter_blocks : blockElems ffnDownExps.dtype ∣ intermediate

theorem blockElems_rounds (dtype : QDtype) : 32 ∣ blockElems dtype := by
  cases dtype <;> decide

def iqTypes : List QDtype :=
  [.iq4_XS, .iq4_NL, .iq3_XXS, .iq3_S, .iq2_XXS, .iq2_XS, .iq2_S, .iq1_S, .iq1_M]

/-- The types with a kernel for gate and up, for one token and for a tile of eight. -/
def gateUpTypes : List QDtype := [.q4_K, .q8_0, .q4_0, .q3_K, .q5_K, .q6_K] ++ iqTypes

def downTypes : List QDtype := [.q4_K, .q5_K, .q6_K, .q3_K, .q8_0, .q4_0, .q4_1] ++ iqTypes

/-- The down types of the short path of a prefill. -/
def downPrefillMmvqTypes : List QDtype := [.q4_K, .q5_K, .q6_K, .q8_0, .q4_0, .q4_1]

/-- `n_rows`, the number of blocks in a row of the weights, and their elements. -/
structure MoeShape where
  nRows : Nat
  nBlocks : Nat
  blockElems : Nat

/-- The shape of a launch over rows of `cols` elements of a type. -/
def shapeOf (nRows cols : Nat) (dtype : QDtype) : MoeShape :=
  ⟨nRows, cols / blockElems dtype, blockElems dtype⟩

section
variable {B R : Type} [CommSemiring R]

/-- A row of an expert times a row of the activation, block by block. -/
def rowDot (shape : MoeShape) (weights act : Nat → R) (expert row actRow : Nat) : R :=
  (List.range shape.nBlocks).foldl (fun sum ib => sum + ((List.range shape.blockElems).map fun j =>
    weights (((expert * shape.nRows + row) * shape.nBlocks + ib) * shape.blockElems + j) *
      act ((actRow * shape.nBlocks + ib) * shape.blockElems + j)).sum) 0

/-- `indexed_moe_mmvq_*`: a block of threads for every row of every slot. -/
def indexedMoeMmvq (shape : MoeShape) (topK : Nat) (ids : Nat → Nat) (weights act : Nat → R) : Nat → R := fun i =>
  rowDot shape weights act (ids (i / shape.nRows)) (i % shape.nRows) (i / shape.nRows / topK)

/-- The writes of a thread of `indexed_moe_mmq_*_tile8`: its row for the eight pairs of its tile, whose first one
has the expert. -/
def tile8Writes (shape : MoeShape) (topK paddedTotal : Nat) (ids sorted : Nat → Nat) (weights act : Nat → R)
    (thread : (Nat × Nat) × Nat) : List (Nat × R) :=
  let tileN := thread.1.2 * 8
  let row := thread.1.1 * 64 + thread.2
  if paddedTotal ≤ tileN then []
  else if row < shape.nRows then
    (List.range 8).map fun c =>
      let pair := sorted (tileN + c)
      (pair * shape.nRows + row, rowDot shape weights act (ids (sorted tileN)) row (pair / topK))
  else []

/-- The grid of a tile launch and its 64 threads. -/
def tile8Threads (r : Routing) (nRows : Nat) : List ((Nat × Nat) × Nat) :=
  ((List.range (divCeil nRows 64)).product (List.range (divCeil (r.total + r.nExperts * 8) 8))).product (List.range 64)

/-- `indexed_moe_mmq_*_tile8` after `moe_sort_by_expert_padded`, its threads in some order. -/
def indexedMoeMmqTile8 {r : Routing} (run : SortRun r) (shape : MoeShape) (topK : Nat) (weights act dst : Nat → R)
    (order : List ((Nat × Nat) × Nat)) : Nat → R :=
  writeAll dst (order.flatMap
    (tile8Writes shape topK (run.scannedPadded r.nExperts) r.ids (fun p => (run.padCopied p).toNat) weights act))

/-- `quantize_f16_q8_1`, read back. -/
def Arithmetic.quantize (a : Arithmetic B R) (x : Nat → R) : Nat → R := fun i =>
  a.q8_1 (fun j => x (i / 32 * 32 + j.val)) (Fin.ofNat 32 i)

def Arithmetic.swiglu (a : Arithmetic B R) (gate up : Nat → R) : Nat → R := fun i => a.silu (gate i) * up i

def Arithmetic.geglu (a : Arithmetic B R) (gate up : Nat → R) : Nat → R := fun i => a.gelu (gate i) * up i

/-- `moe_combine_no_residual_f32`. -/
def moeCombine (topK hidden : Nat) (expertOuts weights : Nat → R) : Nat → R := fun i =>
  (List.range topK).foldl (fun acc k =>
    acc + weights (i / hidden * topK + k) * expertOuts ((i / hidden * topK + k) * hidden + i % hidden)) 0

namespace MoeExperts

/-- The shape of the gate and up launches; the type of up is not looked at. -/
def gateUpShape (b : MoeExperts B) : MoeShape := shapeOf b.intermediate b.hidden b.ffnGateExps.dtype

def downShape (b : MoeExperts B) : MoeShape := shapeOf b.hidden b.intermediate b.ffnDownExps.dtype

def gateWeights (a : Arithmetic B R) (b : MoeExperts B) : Nat → R := a.decode b.ffnGateExps.dtype b.ffnGateExps.ptr

def upWeights (a : Arithmetic B R) (b : MoeExperts B) : Nat → R := a.decode b.ffnGateExps.dtype b.ffnUpExps.ptr

def downWeights (a : Arithmetic B R) (b : MoeExperts B) : Nat → R := a.decode b.ffnDownExps.dtype b.ffnDownExps.ptr

/-- `forward_decode_tp_f32`, for the experts and the weights of one token; a type without a kernel is none. -/
def forwardDecodeTpF32 (a : Arithmetic B R) (b : MoeExperts B) (topK : Nat) (ids : Nat → Nat) (weights x : Nat → R) :
    Option (Nat → R) :=
  let act := a.quantize x
  if b.ffnGateExps.dtype ∈ gateUpTypes then
    let gate := indexedMoeMmvq b.gateUpShape topK ids (gateWeights a b) act
    let up := indexedMoeMmvq b.gateUpShape topK ids (upWeights a b) act
    let activated := a.quantize (match b.activation with
      | .swiGLU => a.swiglu gate up
      | .gelu => a.geglu gate up)
    if b.ffnDownExps.dtype ∈ downTypes then
      some (moeCombine topK b.hidden (indexedMoeMmvq b.downShape 1 ids (downWeights a b) activated) weights)
    else none
  else none

def tile8PairsMin : Nat := 8

/-- `q4_0_use_tile8` and `q8_0_use_tile8`, but for the types: `FLAMBEAU_MOE_TILE8_DECODE` allows it. -/
def tile8Wanted (b : MoeExperts B) (r : Routing) (allowTile8Decode : Bool) : Bool :=
  decide (tile8PairsMin ≤ r.total) && (b.tile8MinTokens.map fun m => decide (m ≤ r.nTokens)).getD true && allowTile8Decode

/-- Whether a prefill takes the short path, without sort and tiles. -/
def shortPath (b : MoeExperts B) (r : Routing) (allowTile8Decode : Bool) : Bool :=
  let q40UseTile8 := decide (b.ffnDownExps.dtype ∈ [.q4_0, .q8_0, .q4_1]) && b.tile8Wanted r allowTile8Decode
  let q80UseTile8 := decide (b.ffnDownExps.dtype = .q8_0) && b.tile8Wanted r allowTile8Decode
  (decide (b.ffnGateExps.dtype = .q4_0) && !q40UseTile8) || (decide (b.ffnGateExps.dtype = .q8_0) && !q80UseTile8)

/-- What the launches of a prefill find in the scratch, and the order of their threads. -/
structure Launches (R : Type) (b : MoeExperts B) (r : Routing) where
  run : SortRun r
  gateOut : Nat → R
  upOut : Nat → R
  downF32 : Nat → R
  gateUpOrder : List ((Nat × Nat) × Nat)
  downOrder : List ((Nat × Nat) × Nat)
  gateUpOrder_perm : gateUpOrder.Perm (tile8Threads r b.intermediate)
  downOrder_perm : downOrder.Perm (tile8Threads r b.hidden)

/-- `down_f32` after `prefill_compute_expert_outs`. -/
def prefillComputeExpertOuts (a : Arithmetic B R) (b : MoeExperts B) (r : Routing) (l : Launches R b r)
    (allowTile8Decode : Bool) (x : Nat → R) : Option (Nat → R) :=
  let act := a.quantize x
  if r.nTokens = 0 then none
  else if b.shortPath r allowTile8Decode then
    let gate := indexedMoeMmvq b.gateUpShape r.topK r.ids (gateWeights a b) act
    let up := indexedMoeMmvq b.gateUpShape r.topK r.ids (upWeights a b) act
    let activated := a.quantize (a.swiglu gate up)
    if b.ffnDownExps.dtype ∈ downPrefillMmvqTypes then
      some (indexedMoeMmvq b.downShape 1 r.ids (downWeights a b) activated)
    else none
  else if b.ffnGateExps.dtype ∈ gateUpTypes then
    let gate := indexedMoeMmqTile8 l.run b.gateUpShape r.topK (gateWeights a b) act l.gateOut l.gateUpOrder
    let up := indexedMoeMmqTile8 l.run b.gateUpShape r.topK (upWeights a b) act l.upOut l.gateUpOrder
    let activated := a.quantize (a.swiglu gate up)
    if b.ffnDownExps.dtype ∈ downTypes then
      some (indexedMoeMmqTile8 l.run b.downShape 1 (downWeights a b) activated l.downF32 l.downOrder)
    else none
  else none

/-- `forward_prefill_tp_f32`. -/
def forwardPrefillTpF32 (a : Arithmetic B R) (b : MoeExperts B) (r : Routing) (l : Launches R b r)
    (allowTile8Decode : Bool) (weights x : Nat → R) : Option (Nat → R) :=
  (prefillComputeExpertOuts a b r l allowTile8Decode x).map fun down => moeCombine r.topK b.hidden down weights

end MoeExperts

/-! The kernels. -/

theorem rowDot_congr {shape : MoeShape} {weights act act' : Nat → R} (expert row : Nat)
    (h : ∀ e < shape.nBlocks * shape.blockElems,
      act (actRow * (shape.nBlocks * shape.blockElems) + e) = act' (actRow' * (shape.nBlocks * shape.blockElems) + e)) :
    rowDot shape weights act expert row actRow = rowDot shape weights act' expert row actRow' := by
  have hplace : ∀ r ib j, (r * shape.nBlocks + ib) * shape.blockElems + j =
      r * (shape.nBlocks * shape.blockElems) + (ib * shape.blockElems + j) := by
    intro r ib j
    ring
  unfold rowDot
  refine List.foldl_ext _ _ _ fun sum ib hib => ?_
  congr 2
  refine List.map_congr_left fun j hj => ?_
  have hinside : ib * shape.blockElems + j < shape.nBlocks * shape.blockElems := by
    have hnext : (ib + 1) * shape.blockElems ≤ shape.nBlocks * shape.blockElems :=
      Nat.mul_le_mul_right _ (List.mem_range.mp hib)
    rw [Nat.succ_mul] at hnext
    have hj := List.mem_range.mp hj
    omega
  rw [hplace actRow, hplace actRow', h _ hinside]

theorem slot_div (hrow : row < n) (i : Nat) : (i * n + row) / n = i := by
  rw [Nat.mul_comm, Nat.mul_add_div (by omega), Nat.div_eq_of_lt hrow, Nat.add_zero]

theorem slot_mod (hrow : row < n) (i : Nat) : (i * n + row) % n = row := by
  rw [Nat.mul_comm, Nat.mul_add_mod, Nat.mod_eq_of_lt hrow]

theorem mmvq_reads (shape : MoeShape) (topK : Nat) (ids : Nat → Nat) (weights act : Nat → R) (i : Nat)
    (hrow : row < shape.nRows) : indexedMoeMmvq shape topK ids weights act (i * shape.nRows + row) =
      rowDot shape weights act (ids i) row (i / topK) := by
  unfold indexedMoeMmvq
  rw [slot_div hrow, slot_mod hrow]

/-- Every place of the padded list that a tile reads is a pair, of the expert of the tile's first one. -/
theorem tile_pair {r : Routing} (run : SortRun r) (hc : c < 8) (htile : tile * 8 < run.scannedPadded r.nExperts) :
    ∃ i < r.total, (run.padCopied (tile * 8 + c)).toNat = i ∧ r.ids (run.padCopied (tile * 8)).toNat = r.ids i := by
  rw [run.scannedPadded_eq (Nat.le_refl _)] at htile
  have hwhole : 8 ∣ below run.paddedCount r.nExperts := by
    have hmul := below_mul (fun e => (run.counted e + 7) / 8) 8 r.nExperts
    exact ⟨_, hmul.trans (Nat.mul_comm _ _)⟩
  obtain ⟨i, hi, first, -, hpair, hfirst, hsame⟩ := run.group_expert (show tile * 8 + c < _ by omega)
  rw [show (tile * 8 + c) / 8 * 8 = tile * 8 by omega] at hfirst
  refine ⟨i, hi, by rw [hpair]; rfl, ?_⟩
  rw [hfirst, hsame]
  rfl

/-- Every pair is in a tile of the grid. -/
theorem exists_tile {r : Routing} (run : SortRun r) (hi : i < r.total) :
    ∃ tile c, c < 8 ∧ tile * 8 < run.scannedPadded r.nExperts ∧ tile < divCeil (r.total + r.nExperts * 8) 8 ∧
      (run.padCopied (tile * 8 + c)).toNat = i := by
  have hexpert := Routing.ids_lt_experts hi
  obtain ⟨k, hk, hplace⟩ := run.padded_pair hi
  have hpair := (hplace _ hexpert k hk).mpr ⟨rfl, rfl⟩
  have hcount := run.counted_le_padded (r.ids i)
  have hlast := below_mono run.paddedCount hexpert
  have htotal := run.padded_holds.total_le
  rw [below] at hlast
  rw [run.scannedPadded_eq (Nat.le_of_lt hexpert)] at hpair
  rw [run.scannedPadded_eq (Nat.le_refl _)] at htotal ⊢
  have hgrid := le_divCeil_mul (show 0 < 8 by decide) (r.total + r.nExperts * 8)
  have hsize : indexedMoeMmqX = 8 := rfl
  rw [hsize] at htotal
  refine ⟨(below run.paddedCount (r.ids i) + k) / 8, (below run.paddedCount (r.ids i) + k) % 8,
    Nat.mod_lt _ (by decide), by omega, by omega, ?_⟩
  rw [Nat.div_add_mod', hpair]
  rfl

theorem tile8Writes_mem {shape : MoeShape} {topK paddedTotal : Nat} {ids sorted : Nat → Nat} {weights act : Nat → R}
    {thread : (Nat × Nat) × Nat} {w : Nat × R} :
    w ∈ tile8Writes shape topK paddedTotal ids sorted weights act thread ↔
      thread.1.2 * 8 < paddedTotal ∧ thread.1.1 * 64 + thread.2 < shape.nRows ∧ ∃ c < 8,
        w = (sorted (thread.1.2 * 8 + c) * shape.nRows + (thread.1.1 * 64 + thread.2),
          rowDot shape weights act (ids (sorted (thread.1.2 * 8))) (thread.1.1 * 64 + thread.2)
            (sorted (thread.1.2 * 8 + c) / topK)) := by
  unfold tile8Writes
  dsimp only
  by_cases htile : paddedTotal ≤ thread.1.2 * 8
  · rw [if_pos htile]
    exact iff_of_false List.not_mem_nil fun h => absurd h.1 (by omega)
  · rw [if_neg htile]
    by_cases hrow : thread.1.1 * 64 + thread.2 < shape.nRows
    · rw [if_pos hrow, List.mem_map]
      constructor
      · rintro ⟨c, hc, rfl⟩
        exact ⟨by omega, hrow, c, List.mem_range.mp hc, rfl⟩
      · rintro ⟨-, -, c, hc, rfl⟩
        exact ⟨c, List.mem_range.mpr hc, rfl⟩
    · rw [if_neg hrow]
      exact iff_of_false List.not_mem_nil fun h => hrow h.2.1

/-- In any order of the threads, a tile launch leaves the product of every pair's row. -/
theorem tile8_reads {r : Routing} (run : SortRun r) (shape : MoeShape) (topK : Nat) (weights act dst : Nat → R)
    {order : List ((Nat × Nat) × Nat)} (horder : order.Perm (tile8Threads r shape.nRows)) (hi : i < r.total)
    (hrow : row < shape.nRows) :
    indexedMoeMmqTile8 run shape topK weights act dst order (i * shape.nRows + row) =
      rowDot shape weights act (r.ids i) row (i / topK) := by
  have hwrites : ∀ w ∈ order.flatMap (tile8Writes shape topK (run.scannedPadded r.nExperts) r.ids
      (fun p => (run.padCopied p).toNat) weights act),
      w.2 = rowDot shape weights act (r.ids (w.1 / shape.nRows)) (w.1 % shape.nRows) (w.1 / shape.nRows / topK) := by
    intro w hw
    obtain ⟨thread, -, hwrite⟩ := List.mem_flatMap.mp hw
    obtain ⟨htile, hlt, c, hc, rfl⟩ := tile8Writes_mem.mp hwrite
    obtain ⟨i, -, hpair, hsame⟩ := tile_pair run hc htile
    dsimp only
    rw [hpair, hsame, slot_div hlt, slot_mod hlt]
  obtain ⟨tile, c, hc, htile, hgrid, hpair⟩ := exists_tile run hi
  obtain ⟨i', -, hpair', hsame⟩ := tile_pair run hc htile
  have hmem : (i * shape.nRows + row, rowDot shape weights act (r.ids i) row (i / topK)) ∈
      order.flatMap (tile8Writes shape topK (run.scannedPadded r.nExperts) r.ids
        (fun p => (run.padCopied p).toNat) weights act) := by
    have hblock : row / 64 < divCeil shape.nRows 64 := by
      have hcover := le_divCeil_mul (show 0 < 64 by decide) shape.nRows
      omega
    refine List.mem_flatMap.mpr ⟨((row / 64, tile), row % 64), horder.mem_iff.mpr ?_, tile8Writes_mem.mpr ?_⟩
    · exact List.mem_product.mpr ⟨List.mem_product.mpr ⟨List.mem_range.mpr hblock, List.mem_range.mpr hgrid⟩,
        List.mem_range.mpr (Nat.mod_lt _ (by decide))⟩
    · dsimp only
      rw [Nat.div_add_mod' row 64]
      refine ⟨htile, hrow, c, hc, ?_⟩
      rw [hsame, ← hpair', hpair]
  refine writeAll_spec dst (fun w hw w' hw' hplace => ?_) _ hmem
  rw [hwrites w hw, hwrites w' hw', hplace]

omit [CommSemiring R] in
/-- The blocks of a buffer that starts at a block. -/
theorem quantize_shift (a : Arithmetic B R) (x : Nat → R) (h : 32 ∣ m) (e : Nat) :
    a.quantize x (m + e) = a.quantize (fun i => x (m + i)) e := by
  obtain ⟨k, rfl⟩ := h
  have hlane : Fin.ofNat 32 (32 * k + e) = Fin.ofNat 32 e := Fin.ext (Nat.mul_add_mod 32 k e)
  unfold Arithmetic.quantize
  rw [hlane, show (32 * k + e) / 32 * 32 = 32 * k + e / 32 * 32 by omega]
  simp only [Nat.add_assoc]

omit [CommSemiring R] in
theorem quantize_congr (a : Arithmetic B R) (h : ∀ i < n, x i = y i) (hn : 32 ∣ n) (he : e < n) :
    a.quantize x e = a.quantize y e := by
  unfold Arithmetic.quantize
  congr 1
  funext j
  have hj := j.isLt
  exact h _ (by omega)

namespace MoeExperts

/-! The prefill and the decode. -/

variable {a : Arithmetic B R} {b : MoeExperts B} {r : Routing}

/-- The experts' outputs of the MMVQ kernels with SwiGLU between them. -/
def swigluOuts (a : Arithmetic B R) (b : MoeExperts B) (topK : Nat) (ids : Nat → Nat) (x : Nat → R) : Nat → R :=
  indexedMoeMmvq b.downShape 1 ids (downWeights a b) (a.quantize (a.swiglu
    (indexedMoeMmvq b.gateUpShape topK ids (gateWeights a b) (a.quantize x))
    (indexedMoeMmvq b.gateUpShape topK ids (upWeights a b) (a.quantize x))))

theorem gateUp_cols (b : MoeExperts B) : b.gateUpShape.nBlocks * b.gateUpShape.blockElems = b.hidden :=
  Nat.div_mul_cancel b.hidden_blocks

theorem down_cols (b : MoeExperts B) : b.downShape.nBlocks * b.downShape.blockElems = b.intermediate :=
  Nat.div_mul_cancel b.inter_blocks

theorem hidden_rounds (b : MoeExperts B) : 32 ∣ b.hidden := (blockElems_rounds _).trans b.hidden_blocks

theorem inter_rounds (b : MoeExperts B) : 32 ∣ b.intermediate := (blockElems_rounds _).trans b.inter_blocks

theorem split_cell {n m i : Nat} (h : i < n * m) : ∃ k < n, ∃ row < m, i = k * m + row := by
  have hm : 0 < m := Nat.pos_of_ne_zero fun hm => by
    rw [hm, Nat.mul_zero] at h
    exact Nat.not_lt_zero _ h
  refine ⟨i / m, Nat.div_lt_of_lt_mul (Nat.mul_comm n m ▸ h), i % m, Nat.mod_lt _ hm, ?_⟩
  rw [Nat.mul_comm, Nat.div_add_mod]

/-- The tiles leave for every pair what the MMVQ kernels leave. -/
theorem tile8_outs (l : Launches R b r) (act : Nat → R) (hi : i < r.total) (hd : d < b.hidden) :
    indexedMoeMmqTile8 l.run b.downShape 1 (downWeights a b) (a.quantize (a.swiglu
      (indexedMoeMmqTile8 l.run b.gateUpShape r.topK (gateWeights a b) act l.gateOut l.gateUpOrder)
      (indexedMoeMmqTile8 l.run b.gateUpShape r.topK (upWeights a b) act l.upOut l.gateUpOrder)))
      l.downF32 l.downOrder (i * b.hidden + d) =
    indexedMoeMmvq b.downShape 1 r.ids (downWeights a b) (a.quantize (a.swiglu
      (indexedMoeMmvq b.gateUpShape r.topK r.ids (gateWeights a b) act)
      (indexedMoeMmvq b.gateUpShape r.topK r.ids (upWeights a b) act))) (i * b.hidden + d) := by
  have hcell : ∀ weights dst : Nat → R, ∀ j < r.total * b.intermediate,
      indexedMoeMmqTile8 l.run b.gateUpShape r.topK weights act dst l.gateUpOrder j =
        indexedMoeMmvq b.gateUpShape r.topK r.ids weights act j := by
    intro weights dst j hj
    obtain ⟨k, hk, row, hrow, rfl⟩ := split_cell hj
    have htile := tile8_reads l.run b.gateUpShape r.topK weights act dst l.gateUpOrder_perm hk hrow
    have hmmvq := mmvq_reads b.gateUpShape r.topK r.ids weights act k hrow
    exact htile.trans hmmvq.symm
  have htile := tile8_reads l.run b.downShape 1 (downWeights a b) (a.quantize (a.swiglu
      (indexedMoeMmqTile8 l.run b.gateUpShape r.topK (gateWeights a b) act l.gateOut l.gateUpOrder)
      (indexedMoeMmqTile8 l.run b.gateUpShape r.topK (upWeights a b) act l.upOut l.gateUpOrder)))
      l.downF32 l.downOrder_perm hi hd
  have hmmvq := mmvq_reads b.downShape 1 r.ids (downWeights a b) (a.quantize (a.swiglu
      (indexedMoeMmvq b.gateUpShape r.topK r.ids (gateWeights a b) act)
      (indexedMoeMmvq b.gateUpShape r.topK r.ids (upWeights a b) act))) i hd
  refine htile.trans (Eq.trans ?_ hmmvq.symm)
  refine rowDot_congr _ _ fun e he => ?_
  rw [down_cols] at he ⊢
  refine quantize_congr (n := r.total * b.intermediate) a (fun j hj => ?_) (b.inter_rounds.mul_left _) ?_
  · unfold Arithmetic.swiglu
    rw [hcell _ _ j hj, hcell _ _ j hj]
  · have hnext : (i + 1) * b.intermediate ≤ r.total * b.intermediate := Nat.mul_le_mul_right _ hi
    rw [Nat.succ_mul] at hnext
    rw [Nat.div_one]
    omega

/-- A token's gate or up in a batch is that of the token alone. -/
theorem gateUp_alone (weights x : Nat → R) (t : Nat) (hk : k < r.topK) (hrow : row < b.intermediate) :
    indexedMoeMmvq b.gateUpShape r.topK r.ids weights (a.quantize x) ((t * r.topK + k) * b.intermediate + row) =
      indexedMoeMmvq b.gateUpShape r.topK (fun k => r.ids (t * r.topK + k)) weights
        (a.quantize fun i => x (t * b.hidden + i)) (k * b.intermediate + row) := by
  have hbatch := mmvq_reads b.gateUpShape r.topK r.ids weights (a.quantize x) (t * r.topK + k) hrow
  have halone := mmvq_reads b.gateUpShape r.topK (fun k => r.ids (t * r.topK + k)) weights
    (a.quantize fun i => x (t * b.hidden + i)) k hrow
  refine hbatch.trans (Eq.trans ?_ halone.symm)
  refine rowDot_congr _ _ fun e _ => ?_
  rw [gateUp_cols, slot_div hk, Nat.div_eq_of_lt hk, Nat.zero_mul, Nat.zero_add]
  exact quantize_shift a x (b.hidden_rounds.mul_left _) e

/-- A token's experts in a batch are those of the token alone. -/
theorem swigluOuts_alone (x : Nat → R) (t : Nat) (hk : k < r.topK) (hd : d < b.hidden) :
    swigluOuts a b r.topK r.ids x ((t * r.topK + k) * b.hidden + d) =
      swigluOuts a b r.topK (fun k => r.ids (t * r.topK + k)) (fun i => x (t * b.hidden + i)) (k * b.hidden + d) := by
  unfold swigluOuts
  generalize hbatch : a.swiglu (indexedMoeMmvq b.gateUpShape r.topK r.ids (gateWeights a b) (a.quantize x))
    (indexedMoeMmvq b.gateUpShape r.topK r.ids (upWeights a b) (a.quantize x)) = batch
  generalize halone : a.swiglu (indexedMoeMmvq b.gateUpShape r.topK (fun k => r.ids (t * r.topK + k)) (gateWeights a b)
      (a.quantize fun i => x (t * b.hidden + i)))
    (indexedMoeMmvq b.gateUpShape r.topK (fun k => r.ids (t * r.topK + k)) (upWeights a b)
      (a.quantize fun i => x (t * b.hidden + i))) = alone
  have hleft := mmvq_reads b.downShape 1 r.ids (downWeights a b) (a.quantize batch) (t * r.topK + k) hd
  have hright := mmvq_reads b.downShape 1 (fun k => r.ids (t * r.topK + k)) (downWeights a b)
    (a.quantize alone) k hd
  refine hleft.trans (Eq.trans ?_ hright.symm)
  refine rowDot_congr _ _ fun e he => ?_
  rw [down_cols] at he ⊢
  rw [Nat.div_one, Nat.div_one, Nat.add_mul, Nat.add_assoc,
    quantize_shift a batch (b.inter_rounds.mul_left _)]
  refine quantize_congr (n := r.topK * b.intermediate) a (fun j hj => ?_) (b.inter_rounds.mul_left _) ?_
  · obtain ⟨k', hk', row, hrow, rfl⟩ := split_cell hj
    rw [← hbatch, ← halone, ← Nat.add_assoc, ← Nat.add_mul]
    unfold Arithmetic.swiglu
    rw [gateUp_alone _ _ t hk' hrow, gateUp_alone _ _ t hk' hrow]
  · have hnext : (k + 1) * b.intermediate ≤ r.topK * b.intermediate := Nat.mul_le_mul_right _ hk
    rw [Nat.succ_mul] at hnext
    omega

/-- What a prefill has accepted, and the experts' outputs it leaves. -/
theorem prefill_outs (l : Launches R b r) (h : prefillComputeExpertOuts a b r l allow x = some down) :
    b.ffnGateExps.dtype ∈ gateUpTypes ∧ b.ffnDownExps.dtype ∈ downTypes ∧
      (b.shortPath r allow = true → b.ffnDownExps.dtype ∈ downPrefillMmvqTypes) ∧
      ∀ i < r.total, ∀ d < b.hidden,
        down (i * b.hidden + d) = swigluOuts a b r.topK r.ids x (i * b.hidden + d) := by
  unfold prefillComputeExpertOuts at h
  dsimp only at h
  by_cases hempty : r.nTokens = 0
  · rw [if_pos hempty] at h
    cases h
  rw [if_neg hempty] at h
  by_cases hshort : b.shortPath r allow = true
  · rw [if_pos hshort] at h
    by_cases hdown : b.ffnDownExps.dtype ∈ downPrefillMmvqTypes
    · rw [if_pos hdown] at h
      obtain rfl := Option.some.inj h
      have hgate : b.ffnGateExps.dtype = .q4_0 ∨ b.ffnGateExps.dtype = .q8_0 := by
        unfold shortPath at hshort
        simp only [Bool.or_eq_true, Bool.and_eq_true, decide_eq_true_eq] at hshort
        exact hshort.imp And.left And.left
      refine ⟨?_, ?_, fun _ => hdown, fun i _ d _ => rfl⟩
      · rcases hgate with hgate | hgate <;> rw [hgate] <;> decide
      · have hlisted : ∀ dtype ∈ downPrefillMmvqTypes, dtype ∈ downTypes := by decide
        exact hlisted _ hdown
    · rw [if_neg hdown] at h
      cases h
  · rw [if_neg hshort] at h
    by_cases hgate : b.ffnGateExps.dtype ∈ gateUpTypes
    · rw [if_pos hgate] at h
      by_cases hdown : b.ffnDownExps.dtype ∈ downTypes
      · rw [if_pos hdown] at h
        obtain rfl := Option.some.inj h
        exact ⟨hgate, hdown, fun hyes => absurd hyes hshort, fun i hi d hd => tile8_outs l _ hi hd⟩
      · rw [if_neg hdown] at h
        cases h
    · rw [if_neg hgate] at h
      cases h

theorem prefill_accepts (l : Launches R b r) (hne : 0 < r.nTokens) (hgate : b.ffnGateExps.dtype ∈ gateUpTypes)
    (hdown : b.ffnDownExps.dtype ∈ downTypes)
    (hshort : b.shortPath r allow = true → b.ffnDownExps.dtype ∈ downPrefillMmvqTypes) :
    ∃ down, prefillComputeExpertOuts a b r l allow x = some down := by
  unfold prefillComputeExpertOuts
  dsimp only
  rw [if_neg (by omega)]
  by_cases h : b.shortPath r allow = true
  · rw [if_pos h, if_pos (hshort h)]
    exact ⟨_, rfl⟩
  · rw [if_neg h, if_pos hgate, if_pos hdown]
    exact ⟨_, rfl⟩

theorem decode_swiglu (topK : Nat) (ids : Nat → Nat) (weights x : Nat → R) (hgate : b.ffnGateExps.dtype ∈ gateUpTypes)
    (hdown : b.ffnDownExps.dtype ∈ downTypes) (hact : b.activation = .swiGLU) :
    forwardDecodeTpF32 a b topK ids weights x = some (moeCombine topK b.hidden (swigluOuts a b topK ids x) weights) := by
  unfold forwardDecodeTpF32
  dsimp only
  rw [if_pos hgate, if_pos hdown, hact]
  rfl

/-- A token's row of a prefill is that of the token alone with SwiGLU. -/
theorem combine_alone (weights x : Nat → R) {down : Nat → R} (ht : t < r.nTokens) (hd : d < b.hidden)
    (hdown : ∀ i < r.total, ∀ d < b.hidden,
      down (i * b.hidden + d) = swigluOuts a b r.topK r.ids x (i * b.hidden + d)) :
    moeCombine r.topK b.hidden down weights (t * b.hidden + d) =
      moeCombine r.topK b.hidden
        (swigluOuts a b r.topK (fun k => r.ids (t * r.topK + k)) fun i => x (t * b.hidden + i))
        (fun k => weights (t * r.topK + k)) d := by
  unfold moeCombine
  rw [slot_div hd, slot_mod hd, Nat.div_eq_of_lt hd, Nat.mod_eq_of_lt hd]
  refine List.foldl_ext _ _ _ fun acc k hk => ?_
  have hk := List.mem_range.mp hk
  have hpair : t * r.topK + k < r.total := by
    have hnext : (t + 1) * r.topK ≤ r.nTokens * r.topK := Nat.mul_le_mul_right _ ht
    rw [Nat.succ_mul] at hnext
    unfold Routing.total
    omega
  rw [hdown _ hpair d hd, swigluOuts_alone x t hk hd, Nat.zero_mul, Nat.zero_add]

/-! Where the two agree. -/

/-- Whatever the tensors and the tokens, the prefill runs and every token has the row of its own decode. -/
def MatchesDecode (b : MoeExperts B) (r : Routing) (l : Launches R b r) (allowTile8Decode : Bool) : Prop :=
  ∀ (a : Arithmetic B R) (weights x : Nat → R), ∃ out,
    forwardPrefillTpF32 a b r l allowTile8Decode weights x = some out ∧ ∀ t < r.nTokens, ∃ out',
      forwardDecodeTpF32 a b r.topK (fun k => r.ids (t * r.topK + k)) (fun k => weights (t * r.topK + k))
          (fun i => x (t * b.hidden + i)) = some out' ∧
        ∀ d < b.hidden, out (t * b.hidden + d) = out' d

/-- Every element of every tensor is 1; GELU is 0. -/
def ones : Arithmetic B R where
  decode _ _ _ := 1
  q8_1 x := x
  silu x := x
  gelu _ := 0

theorem foldl_const (v : R) (n : Nat) : (List.range n).foldl (fun sum _ => sum + v) 0 = n * v := by
  induction n with
  | zero => rw [Nat.cast_zero, zero_mul]; rfl
  | succ n ih => rw [List.range_succ, List.foldl_append, ih, Nat.cast_succ, add_mul, one_mul]; rfl

theorem mmvq_const (shape : MoeShape) (topK : Nat) (ids : Nat → Nat) (v : R) :
    indexedMoeMmvq shape topK ids (fun _ => 1) (fun _ => v) =
      fun _ => shape.nBlocks * (shape.blockElems * v) := by
  funext i
  unfold indexedMoeMmvq rowDot
  simp only [one_mul, List.map_const', List.length_range, List.sum_replicate, nsmul_eq_mul]
  exact foldl_const _ _

theorem combine_const (topK hidden i : Nat) (v : R) : moeCombine topK hidden (fun _ => v) (fun _ => 1) i = topK * v := by
  unfold moeCombine
  simp only [one_mul]
  exact foldl_const _ _

/-- All ones: the product of the sizes with SwiGLU, and 0 with GELU. -/
theorem decode_ones (b : MoeExperts B) (topK : Nat) (ids : Nat → Nat) (hgate : b.ffnGateExps.dtype ∈ gateUpTypes)
    (hdown : b.ffnDownExps.dtype ∈ downTypes) :
    ∃ out : Nat → R, forwardDecodeTpF32 ones b topK ids (fun _ => 1) (fun _ => 1) = some out ∧
      out 0 = match b.activation with
        | .swiGLU => ((topK * (b.intermediate * (b.hidden * b.hidden)) : Nat) : R)
        | .gelu => 0 := by
  have hround : ∀ v : R, (ones : Arithmetic B R).quantize (fun _ => v) = fun _ => v := fun _ => rfl
  have hcols := b.gateUp_cols
  have hrows := b.down_cols
  unfold forwardDecodeTpF32
  dsimp only
  rw [if_pos hgate, if_pos hdown]
  refine ⟨_, rfl, ?_⟩
  have hones : gateWeights ones b = fun _ => (1 : R) := rfl
  have hups : upWeights ones b = fun _ => (1 : R) := rfl
  have hdowns : downWeights ones b = fun _ => (1 : R) := rfl
  rw [hround, hones, hups, hdowns, mmvq_const]
  cases b.activation with
  | swiGLU =>
    have hact : (ones : Arithmetic B R).swiglu (fun _ => b.gateUpShape.nBlocks * (b.gateUpShape.blockElems * 1))
        (fun _ => b.gateUpShape.nBlocks * (b.gateUpShape.blockElems * 1)) =
        fun _ => ((b.hidden * b.hidden : Nat) : R) := by
      funext _
      rw [← hcols]
      unfold Arithmetic.swiglu ones
      push_cast
      ring
    dsimp only
    rw [hact, hround, mmvq_const, combine_const, ← hrows]
    push_cast
    ring
  | gelu =>
    have hact : (ones : Arithmetic B R).geglu (fun _ => b.gateUpShape.nBlocks * (b.gateUpShape.blockElems * 1))
        (fun _ => b.gateUpShape.nBlocks * (b.gateUpShape.blockElems * 1)) = fun _ => 0 := by
      funext _
      exact zero_mul _
    dsimp only
    rw [hact, hround, mmvq_const, combine_const, mul_zero, mul_zero, mul_zero]

end MoeExperts

/-- A Q8_0 block of experts with GELU. -/
def geluExperts : MoeExperts Unit where
  ffnGateExps := ⟨(), .q8_0⟩
  ffnUpExps := ⟨(), .q8_0⟩
  ffnDownExps := ⟨(), .q8_0⟩
  hidden := 32
  intermediate := 32
  activation := .gelu
  tile8MinTokens := none
  hidden_blocks := by decide
  inter_blocks := by decide

def geluLaunches : MoeExperts.Launches R geluExperts oneToken where
  run := oneTokenRun
  gateOut _ := 0
  upOut _ := 0
  downF32 _ := 0
  gateUpOrder := tile8Threads oneToken 32
  downOrder := tile8Threads oneToken 32
  gateUpOrder_perm := List.Perm.refl _
  downOrder_perm := List.Perm.refl _

end

end Flambeau.Ops
