import Flambeau.Forward.Attn.Kernels
import Flambeau.Forward.Attn.Paged
import Flambeau.Forward.Scratch

namespace Flambeau.Forward.Attn
open Systems

/-- What the KV path reads of an attention layer's weights. -/
structure AttnWeights where
  nHeads : Nat
  nKvHeads : Nat
  headDim : Nat
  /-- Sliding window, 0 for none. -/
  windowSize : Int
  attnVUnitNorm : Bool
  /-- The layer whose K and V this one reads instead of its own. -/
  kvShareSrc : Option Nat
deriving Repr, DecidableEq

namespace AttnWeights

def qWidth (weights : AttnWeights) : Nat := weights.nHeads * weights.headDim

def kvWidth (weights : AttnWeights) : Nat := weights.nKvHeads * weights.headDim

/-- The shapes every attention op checks for. -/
def headsOk (weights : AttnWeights) : Bool :=
  weights.headDim ∈ [64, 128, 256, 512] && weights.nHeads != 0 && weights.nKvHeads != 0 &&
    weights.nHeads % weights.nKvHeads == 0

def call (weights : AttnWeights) (rows : List (Nat × Nat)) : AttnCall :=
  ⟨rows, weights.attnVUnitNorm, weights.windowSize, weights.kvShareSrc.isSome⟩

end AttnWeights

/-- The K row and the V row that a kernel stores for one row of the batch: `bytes`
bytes of each slab from `byte`. -/
structure KvWrite where
  row : Nat
  slot : Nat
  position : Nat
  byte : Nat
  bytes : Nat
  encoding : KvLayout
  /-- V is stored after its unit RMSNorm. -/
  vNormed : Bool
deriving Repr, DecidableEq

/-- Bytes of each slab that a kernel loads for the queries of a slot. -/
structure KvRead where
  slot : Nat
  byte : Nat
  bytes : Nat
  encoding : KvLayout
deriving Repr, DecidableEq

/-- The K/V rows, by first byte, that the softmax of one row of the batch runs over. -/
structure Attends where
  row : Nat
  keys : List Nat
deriving Repr, DecidableEq

/-- One op of a call. One that is not accepted ends the call with an error. -/
structure Launch where
  accepted : Bool
  writes : List KvWrite
  reads : List KvRead
  attends : List Attends
deriving Repr, DecidableEq

def Launch.bail : Launch := ⟨false, [], [], []⟩

/-- A slot's K and V as a kernel is given them. -/
structure CacheView where
  slot : Nat
  base : Nat
  rowBytes : Nat
  encoding : KvLayout
deriving Repr, DecidableEq

namespace CacheView

def byteOf (view : CacheView) (ringDepth t : Nat) : Nat :=
  view.base + physRow ringDepth t * view.rowBytes

/-- The pointer moved by whole rows of the cache. -/
def slide (view : CacheView) (rows bytesPerRow : Nat) : CacheView :=
  { view with base := view.base + rows * bytesPerRow }

def read (view : CacheView) (ringDepth t : Nat) : KvRead :=
  ⟨view.slot, view.byteOf ringDepth t, view.rowBytes, view.encoding⟩

def attend (view : CacheView) (ringDepth row : Nat) (keys : List Nat) : Attends :=
  ⟨row, keys.map (view.byteOf ringDepth)⟩

end CacheView

structure KvAppendSpec where
  nTokens : Nat
  writePos : Nat
  maxSeqLen : Nat
  ringDepth : Nat
deriving Repr, DecidableEq

namespace KvAppendSpec

def inBounds (spec : KvAppendSpec) : Bool :=
  if spec.ringDepth = 0 then spec.writePos + spec.nTokens ≤ spec.maxSeqLen
  else spec.nTokens ≤ spec.ringDepth

def writes (spec : KvAppendSpec) (view : CacheView) (vNormed : Bool) : List KvWrite :=
  (appendRows spec.writePos spec.nTokens spec.ringDepth).map fun r =>
    ⟨r.1, view.slot, spec.writePos + r.1, view.base + r.2 * view.rowBytes, view.rowBytes,
      view.encoding, vNormed⟩

end KvAppendSpec

section Ops

variable (weights : AttnWeights) (view : CacheView)

def kvAppendF16 (spec : KvAppendSpec) (vNormed : Bool) : Launch :=
  ⟨spec.inBounds, spec.writes view vNormed, [], []⟩

def kvAppendF16ToQ8 (spec : KvAppendSpec) (vNormed : Bool) : Launch :=
  ⟨weights.kvWidth % 32 == 0 && spec.inBounds,
    spec.writes { view with rowBytes := weights.kvWidth / 32 * q80BlockBytes } vNormed, [], []⟩

/-- Each token's row wraps by itself and nothing bounds it. -/
def kvAppendVUnitNormF16 (nTokens writePos ringDepth : Nat) : Launch :=
  ⟨weights.headDim ∈ [64, 128, 256, 512],
    (List.range nTokens).map fun token =>
      ⟨token, view.slot, writePos + token, view.byteOf ringDepth (writePos + token),
        view.rowBytes, view.encoding, true⟩, [], []⟩

/-- `v_unit_norm_per_head_f16`, in place on the V scratch. -/
def vUnitNormPerHeadF16 : Launch :=
  ⟨weights.headDim != 0 && weights.headDim ≤ 512 && weights.headDim % 64 == 0, [], [], []⟩

/-- The cache tensor holds as many rows as the kernel reads. -/
def cacheFits (slotElems nTokens ringDepth : Nat) : Bool :=
  ringCacheRows nTokens ringDepth * weights.kvWidth ≤ slotElems

/-- `attn_decode_f16` and `attn_decode_q8_kv`. -/
def attnDecode (slotElems nTokensKv : Nat) (knobs : AttnKnobs) : Launch :=
  let keys := decodeKeys nTokensKv knobs.windowSize
  ⟨weights.headsOk && cacheFits weights slotElems nTokensKv knobs.ringDepth, [],
    keys.map (view.read knobs.ringDepth), [view.attend knobs.ringDepth 0 keys]⟩

/-- `attn_decode_f16_splitk` and `attn_decode_q8_kv_splitk`. -/
def attnDecodeSplitk (slotElems : Nat) (shape : AttnSplitkShape) (knobs : AttnKnobs) : Launch :=
  let keys := shape.keys knobs.windowSize
  ⟨weights.headsOk && shape.chunkSize != 0 &&
      cacheFits weights slotElems shape.nTokensKv knobs.ringDepth, [],
    keys.map (view.read knobs.ringDepth), [view.attend knobs.ringDepth 0 keys]⟩

/-- The flash tile for a head dimension; the oracle kernel takes fewer than four
queries, and the Q8 layout has no tile for 512. -/
def prefillTile (encoding : KvLayout) (headDim nQTokens : Nat) : Option Tile :=
  if nQTokens < 4 then none
  else if headDim = 64 then some ⟨4, 64⟩
  else if headDim = 128 then some ⟨4, 32⟩
  else if headDim = 256 then some ⟨8, 16⟩
  else match encoding with
    | .f16Contig => some ⟨4, 8⟩
    | .q8Contig => none

/-- The rows loaded for a prefill, by tile or by query. -/
def prefillLoads (tile : Option Tile) (shape : AttnPrefillShape) (windowSize : Int) : List Nat :=
  match tile with
  | none => (List.range shape.nQTokens).flatMap (shape.keys windowSize)
  | some tile =>
    (List.range (divCeil shape.nQTokens tile.br)).flatMap (tile.staged shape windowSize)

def prefillKeys (tile : Option Tile) (shape : AttnPrefillShape) (windowSize : Int) (q : Nat) :
    List Nat :=
  match tile with
  | none => shape.keys windowSize q
  | some tile => tile.keys shape windowSize q

/-- `attn_prefill_f16` and `attn_prefill_q8_kv`; only the first checks that the
queries' own keys are there. -/
def attnPrefill (slotElems : Nat) (shape : AttnPrefillShape) (knobs : AttnKnobs) : Launch :=
  let tile := prefillTile view.encoding weights.headDim shape.nQTokens
  ⟨weights.headsOk &&
      (view.encoding == .q8Contig || decide (shape.qOffset + shape.nQTokens ≤ shape.nKTokens)) &&
      cacheFits weights slotElems shape.nKTokens knobs.ringDepth, [],
    (prefillLoads tile shape knobs.windowSize).map (view.read knobs.ringDepth),
    (List.range shape.nQTokens).map fun q =>
      view.attend knobs.ringDepth q (prefillKeys tile shape knobs.windowSize q)⟩

end Ops

/-- One row of a batched decode: its place in the batch, its slot's view and its
position. -/
structure SlotRow where
  row : Nat
  view : CacheView
  position : Nat
deriving Repr, DecidableEq

def kvAppendF16BatchedSlots (rows : List SlotRow) (ringDepth : Nat) (vNormed : Bool) : Launch :=
  ⟨!rows.isEmpty,
    rows.map fun r =>
      ⟨r.row, r.view.slot, r.position, r.view.byteOf ringDepth r.position, r.view.rowBytes,
        r.view.encoding, vNormed⟩, [], []⟩

/-- Each row comes with the number of tokens its view covers. -/
def attnDecodeF16Batched (weights : AttnWeights) (rows : List (SlotRow × Nat))
    (knobs : AttnKnobs) : Launch :=
  ⟨weights.headsOk && !rows.isEmpty && rows.length ≤ 32, [],
    rows.flatMap fun r =>
      (decodeKeys r.2 knobs.windowSize).map (r.1.view.read knobs.ringDepth),
    rows.map fun r =>
      r.1.view.attend knobs.ringDepth r.1.row (decodeKeys r.2 knobs.windowSize)⟩

section Branches

variable (config : ScratchConfig) (kv : KvCache) (weights : AttnWeights)

def isRingLayer : Bool := kv.depth < config.maxSeqLen

def ringDepth : Nat := if isRingLayer config kv then kv.depth else 0

def slotStrideElems : Nat := kv.depth * weights.kvWidth

def slotStrideBytes : Nat := slotStrideElems kv weights * 2

/-- Bytes a kernel steps over for one row of its layout. -/
def kernelRowBytes (encoding : KvLayout) : Nat :=
  match encoding with
  | .f16Contig => weights.kvWidth * 2
  | .q8Contig => weights.nKvHeads * (weights.headDim / 32) * q80BlockBytes

/-- The F16 kernels' view of a slot, whatever the layer's layout. -/
def f16View (slot : Nat) : CacheView :=
  ⟨slot, slot * slotStrideBytes kv weights, kernelRowBytes weights .f16Contig, .f16Contig⟩

/-- The single-slot branch's view of a slot. -/
def slotView (slot : Nat) : CacheView :=
  match kv.layout with
  | .f16Contig => f16View kv weights slot
  | .q8Contig =>
    ⟨slot, slot * (kv.depth * kv.bytesPerRow), kernelRowBytes weights .q8Contig, .q8Contig⟩

def kvAppend (view : CacheView) (nTokens writePos : Nat) : List Launch :=
  let ring := ringDepth config kv
  let spec : KvAppendSpec := ⟨nTokens, writePos, kv.depth, ring⟩
  match kv.layout with
  | .f16Contig =>
    if weights.attnVUnitNorm then [kvAppendVUnitNormF16 weights view nTokens writePos ring]
    else [kvAppendF16 view spec false]
  | .q8Contig =>
    if weights.attnVUnitNorm then
      [vUnitNormPerHeadF16 weights, kvAppendF16ToQ8 weights view spec true]
    else [kvAppendF16ToQ8 weights view spec false]

/-- Decode of one token. Until a ring has wrapped its slab is contiguous, and the
pointer slides to the window; after that the kernel masks and wraps. -/
def decodeToken (view : CacheView) (position : Nat) : Launch :=
  let nTokensKv := position + 1
  let window := weights.windowSize.toNat
  let ringActive := isRingLayer config kv && decide (kv.depth < nTokensKv)
  let slid := !ringActive && decide (0 < weights.windowSize) && decide (window < nTokensKv)
  let effTokensKv := if slid then window else nTokensKv
  let effView := if slid then view.slide (nTokensKv - window) kv.bytesPerRow else view
  let knobs : AttnKnobs :=
    if ringActive then ⟨weights.windowSize, kv.depth⟩ else ⟨0, 0⟩
  let chunkBase :=
    if ringActive && decide (0 < weights.windowSize) then effTokensKv - window else 0
  let chunkLen := effTokensKv - chunkBase
  let chunkSize := splitkChunkSize chunkLen maxSplitkChunks
  let nChunks := divCeil chunkLen chunkSize
  let useSplitk := decide (256 < effTokensKv) && decide (1 < nChunks) &&
    decide (nChunks ≤ maxSplitkChunks) && decide (0 < config.qWidth)
  let slotElems := slotStrideElems kv weights
  if useSplitk then
    attnDecodeSplitk weights effView slotElems ⟨effTokensKv, chunkSize, chunkBase⟩ knobs
  else attnDecode weights effView slotElems effTokensKv knobs

/-- The single-slot branch: one range append, then decode or prefill attention. -/
def singleSlot (slot startPosition n : Nat) : List Launch :=
  let view := slotView kv weights slot
  let append :=
    if weights.kvShareSrc.isSome then [] else kvAppend config kv weights view n startPosition
  let attention :=
    if n = 1 then decodeToken config kv weights view startPosition
    else
      attnPrefill weights view (slotStrideElems kv weights) ⟨n, startPosition + n, startPosition⟩
        ⟨weights.windowSize, ringDepth config kv⟩
  append ++ [attention]

/-- A row that slides its own pointer to its window. -/
def slides (position : Nat) : Bool :=
  !isRingLayer config kv && decide (0 < weights.windowSize) &&
    decide (weights.windowSize.toNat < position + 1)

/-- The decode rows of a batch, the first of them row `firstRow`: one append for all
slots, then one batched attention. If any row slides, no row is masked. -/
def batchedSlots (rows : List (Nat × Nat)) (firstRow : Nat) (vNormed : Bool) : List Launch :=
  let window := weights.windowSize.toNat
  let slotRows : List SlotRow := rows.zipIdx.map fun r =>
    ⟨firstRow + r.2, f16View kv weights r.1.1, r.1.2⟩
  let readRows : List (SlotRow × Nat) := slotRows.map fun r =>
    if slides config kv weights r.position then
      ({ r with view := r.view.slide (r.position + 1 - window) kv.bytesPerRow }, window)
    else (r, r.position + 1)
  let anyOffset := rows.any fun r => slides config kv weights r.2
  let kernelWindow := if anyOffset then 0 else weights.windowSize
  let append :=
    if weights.kvShareSrc.isSome then []
    else [kvAppendF16BatchedSlots slotRows (ringDepth config kv) vNormed]
  append ++ [attnDecodeF16Batched weights readRows ⟨kernelWindow, ringDepth config kv⟩]

/-- The checks both calls make on their rows and widths. -/
def admits (rows : List (Nat × Nat)) : Bool :=
  !rows.isEmpty && (rows.all fun r => r.2 < config.maxSeqLen && r.1 < config.nSlots) &&
    rows.length ≤ config.maxPrefillTokens && weights.qWidth ≤ config.qWidth &&
    weights.kvWidth ≤ config.kvWidth && kv.kvWidth == weights.kvWidth

/-- The contiguous arms of `standard_attn_local` on a layer's cache. -/
def contiguousAttn (rows : List (Nat × Nat)) : List Launch :=
  match rows with
  | [] => [.bail]
  | (slot, startPosition) :: _ =>
    if (weights.call rows).prefillShape then
      singleSlot config kv weights slot startPosition rows.length
    else if config.nSlots ≤ 1 then [.bail]
    else batchedSlots config kv weights rows 0 false

/-- The attention of `standard_attn_mixed_local`: the first `prefillRows` rows are a
chunk of one slot, the others decode. V is normalised for all of them first. -/
def contiguousMixed (rows : List (Nat × Nat)) (prefillRows : Nat) : List Launch :=
  match rows with
  | [] => [.bail]
  | (slot, pos0) :: _ =>
    let view := f16View kv weights slot
    let ring := ringDepth config kv
    let vNorm := if weights.attnVUnitNorm then [vUnitNormPerHeadF16 weights] else []
    vNorm ++
      [kvAppendF16 view ⟨prefillRows, pos0, kv.depth, ring⟩ weights.attnVUnitNorm,
        attnPrefill weights view (slotStrideElems kv weights)
          ⟨prefillRows, pos0 + prefillRows, pos0⟩ ⟨weights.windowSize, ring⟩] ++
      batchedSlots config kv weights (rows.drop prefillRows) prefillRows weights.attnVUnitNorm

/-- The prefill rows are one slot's, at contiguous positions, and no decode row is on
that slot. -/
def mixedShape (rows : List (Nat × Nat)) (prefillRows : Nat) : Bool :=
  decide (0 < prefillRows) && decide (prefillRows < rows.length) &&
    (weights.call (rows.take prefillRows)).prefillShape &&
    (rows.drop prefillRows).all fun r => some r.1 != rows.head?.map Prod.fst

end Branches

structure CoreState where
  pool : ScratchPool
  layerIdxOffset : Nat
deriving Repr, DecidableEq

namespace CoreState

/-- `checked_sub`, then the bound on the owned layers. -/
def localIdx (state : CoreState) (layerIdx : Nat) : Option Nat :=
  if state.layerIdxOffset ≤ layerIdx then
    let idx := layerIdx - state.layerIdxOffset
    if idx < state.pool.kvCaches.length then some idx else none
  else none

/-- A layer that shares its KV uses its source's cache. -/
def kvLocalIdx (state : CoreState) (weights : AttnWeights) (layerIdx : Nat) : Option Nat :=
  (state.localIdx layerIdx).bind fun idx =>
    match weights.kvShareSrc with
    | some src => state.localIdx src
    | none => some idx

/-- `standard_attn_local`, as far as it touches the K and V slabs. Under paging it
does not. -/
def standardAttnLocal (state : CoreState) (weights : AttnWeights) (layerIdx : Nat)
    (rows : List (Nat × Nat)) : List Launch :=
  match (state.kvLocalIdx weights layerIdx).bind (state.pool.kvCaches[·]?) with
  | none => [.bail]
  | some kv =>
    if !admits state.pool.config kv weights rows then [.bail]
    else if state.pool.config.pagedKv.isSome then []
    else contiguousAttn state.pool.config kv weights rows

/-- `standard_attn_mixed_local`, as far as it touches the K and V slabs. -/
def standardAttnMixedLocal (state : CoreState) (weights : AttnWeights) (layerIdx : Nat)
    (rows : List (Nat × Nat)) (prefillRows : Nat) : List Launch :=
  match (state.localIdx layerIdx).bind (state.pool.kvCaches[·]?) with
  | none => [.bail]
  | some kv =>
    let config := state.pool.config
    if !(mixedShape weights rows prefillRows && config.pagedKv.isNone &&
        weights.kvShareSrc.isNone && admits config kv weights rows &&
        decide (1 < config.nSlots)) then [.bail]
    else contiguousMixed config kv weights rows prefillRows

end CoreState

end Flambeau.Forward.Attn
