import Flambeau.Forward.PagePool

namespace Flambeau.Forward

/-- Shape parameters shared across every GDN layer in a model. -/
structure GdnDims where
  dInner : Nat
  numVHeads : Nat
  numKHeads : Nat
  headKDim : Nat
  headVDim : Nat
  convChannels : Nat
  convKernel : Nat
deriving Repr, DecidableEq

/-- The element layout of a layer's KV slab. -/
inductive KvLayout where
  | f16Contig
  | q8Contig
deriving Repr, DecidableEq

/-- A 2-byte F16 scale and 32 int8 quants. -/
def q80BlockBytes : Nat := 34

/-- Slab byte stride for one row. A release build does not check that a Q8 width is
a multiple of 32. -/
def KvLayout.bytesPerRow (layout : KvLayout) (kvWidth : Nat) : Nat :=
  match layout with
  | .f16Contig => 2 * kvWidth
  | .q8Contig => kvWidth / 32 * q80BlockBytes

/-- How a rank shares a layer's weights. -/
inductive ShardMode where
  | replicated
  | tp (rank nRanks : Nat)
deriving Repr, DecidableEq

def ShardMode.nRanks : ShardMode → Nat
  | .replicated => 1
  | .tp _ nRanks => nRanks

structure PagedKvCacheConfig where
  pageSize : Nat
  nPages : Nat
  maxPagesPerSlot : Nat
deriving Repr, DecidableEq

/-- Pick the page count from a per-layer VRAM budget, at least one full table for
each slot. -/
def PagedKvCacheConfig.fromVramBudget
    (perLayerBudgetBytes pageSize kvWidth maxSlots maxPagesPerSlot : Nat) : PagedKvCacheConfig :=
  let overhead := maxSlots * maxPagesPerSlot * 4 + maxSlots * 4
  let usable := perLayerBudgetBytes - overhead
  let bytesPerPagePair := 2 * pageSize * kvWidth * 2
  ⟨pageSize, max (usable / bytesPerPagePair) (maxSlots * maxPagesPerSlot), maxPagesPerSlot⟩

structure MoeShape where
  numExperts : Nat
  expertsPerTok : Nat
  sharedIntermediatePerRank : Nat
deriving Repr, DecidableEq

/-- What an architecture says of each of its layers, by global index, and of its
widths. The second argument of a width is the number of tensor-parallel ranks. -/
structure ScratchShape where
  numLayers : Nat
  kvWidthAt : (li nRanks : Nat) → Nat
  headDimAt : Nat → Nat
  windowSizeAt : Nat → Int
  kvDepthAt : (li maxSeqLen prefillUbatch : Nat) → Nat
  hidden : Nat
  vocab : Nat
  maxSeqLen : Nat
  intermediatePerRank : Nat → Nat
  qWidthPerRank : Nat → Nat
  moePerRank : Nat → Option MoeShape
  gdnPerRank : Nat → Option GdnDims
  attnQGated : Bool
  perLayerEmbd : Nat

structure ScratchConfig where
  hidden : Nat
  intermediate : Nat
  qWidth : Nat
  kvWidth : Nat
  vocab : Nat
  maxSeqLen : Nat
  numLayers : Nat
  maxExperts : Nat
  maxExpertsPerTok : Nat
  gdn : Option GdnDims
  perLayerKvWidths : Option (List Nat)
  attnQGated : Bool
  sharedIntermediate : Nat
  /-- Upper bound on tokens per forward. -/
  maxPrefillTokens : Nat
  maxSlots : Nat
  perLayerEmbd : Nat
  pagedKv : Option PagedKvCacheConfig
  kvLayout : KvLayout
  perLayerKvLayouts : Option (List KvLayout)
  perLayerKvDepths : Option (List Nat)
deriving Repr, DecidableEq

namespace ScratchShape

def perLayerKvWidths (shape : ScratchShape) (nRanks : Nat) : List Nat :=
  (List.range shape.numLayers).map fun li => shape.kvWidthAt li nRanks

def perLayerKvDepths (shape : ScratchShape) (maxSeqLen prefillUbatch : Nat) : List Nat :=
  (List.range shape.numLayers).map fun li => shape.kvDepthAt li maxSeqLen prefillUbatch

/-- The layout `--kv q8` gives a layer. A layer without a slab keeps the request;
`none` is the panic on a head dimension the architecture does not state. -/
def q8LayoutAt (shape : ScratchShape) (nRanks li : Nat) : Option KvLayout :=
  if shape.kvWidthAt li nRanks = 0 then some .q8Contig
  else if shape.headDimAt li = 0 then none
  else if shape.headDimAt li ∈ [64, 128, 256, 512] then some .q8Contig
  else some .f16Contig

/-- One layout a layer under `--kv q8`, no vector otherwise. -/
def perLayerKvLayouts (shape : ScratchShape) (nRanks : Nat) (kvLayout : KvLayout) :
    Option (Option (List KvLayout)) :=
  match kvLayout with
  | .f16Contig => some none
  | .q8Contig => ((List.range shape.numLayers).mapM (shape.q8LayoutAt nRanks)).map some

/-- `--paged-kv`: 0 is off, 1 the floor of a full table a slot, else the page count. -/
def pagedKv (shape : ScratchShape) (kvWidth maxSlots : Nat) (pagedKvPages : Option Nat) :
    Option PagedKvCacheConfig :=
  pagedKvPages.bind fun parsed =>
    let pageSize := 16
    let mpps := (shape.maxSeqLen + pageSize - 1) / pageSize
    if parsed = 0 then none
    else if parsed = 1 then some (.fromVramBudget 0 pageSize kvWidth maxSlots mpps)
    else some ⟨pageSize, parsed, mpps⟩

end ScratchShape

/-- Every vector is filled by global layer; `none` is a panic. -/
def scratchConfigFor (shape : ScratchShape) (shard : ShardMode) (prefillUbatch maxSlots : Nat)
    (pagedKvPages : Option Nat) (kvLayout : KvLayout) : Option ScratchConfig :=
  let nRanks := shard.nRanks
  let perLayerKv := shape.perLayerKvWidths nRanks
  let kvWidth := perLayerKv.foldl max 0
  let moe := shape.moePerRank nRanks
  (shape.perLayerKvLayouts nRanks kvLayout).map fun layouts =>
    { hidden := shape.hidden
      intermediate := shape.intermediatePerRank nRanks
      qWidth := shape.qWidthPerRank nRanks
      kvWidth := kvWidth
      vocab := shape.vocab
      maxSeqLen := shape.maxSeqLen
      numLayers := shape.numLayers
      maxExperts := moe.elim 0 MoeShape.numExperts
      maxExpertsPerTok := moe.elim 0 MoeShape.expertsPerTok
      gdn := shape.gdnPerRank nRanks
      perLayerKvWidths := some perLayerKv
      attnQGated := shape.attnQGated
      sharedIntermediate := moe.elim 0 MoeShape.sharedIntermediatePerRank
      maxPrefillTokens := prefillUbatch
      maxSlots := maxSlots
      perLayerEmbd := shape.perLayerEmbd
      pagedKv := shape.pagedKv kvWidth maxSlots pagedKvPages
      kvLayout := kvLayout
      perLayerKvLayouts := layouts
      perLayerKvDepths := some (shape.perLayerKvDepths shape.maxSeqLen prefillUbatch) }

/-- A layer's KV slabs. Under paging nothing is allocated for them. -/
structure KvCache where
  /-- Bytes behind `k`, and as many behind `v`. -/
  slabBytes : Nat
  kvWidth : Nat
  bytesPerRow : Nat
  layout : KvLayout
  /-- Slab depth in rows: the slots are `depth * bytesPerRow` apart. -/
  depth : Nat
deriving Repr, DecidableEq

namespace ScratchConfig

/-- The widths are one for each owned layer, none above the shared scratch row. -/
def widthsOk (config : ScratchConfig) : Bool :=
  match config.perLayerKvWidths with
  | none => true
  | some per => per.length == config.numLayers && per.all (· ≤ config.kvWidth)

/-- Indexing past the end of a per-layer vector panics. -/
def perLayer (per : Option (List α)) (default : α) (li : Nat) : Option α :=
  match per with
  | none => some default
  | some per => per[li]?

/-- `n_slots = config.max_slots.max(1)`. -/
def nSlots (config : ScratchConfig) : Nat := max config.maxSlots 1

def kvCacheAt (config : ScratchConfig) (li : Nat) : Option KvCache := do
  let slotKvw ← perLayer config.perLayerKvWidths config.kvWidth li
  let layerLayout ← perLayer config.perLayerKvLayouts config.kvLayout li
  let slotDepth ← perLayer config.perLayerKvDepths config.maxSeqLen li
  let bytesPerRow := layerLayout.bytesPerRow slotKvw
  some { slabBytes := if config.pagedKv.isSome then 0 else config.nSlots * slotDepth * bytesPerRow
         kvWidth := slotKvw
         bytesPerRow := bytesPerRow
         layout := layerLayout
         depth := slotDepth }

end ScratchConfig

/-- What the KV path uses of a pool. -/
structure ScratchPool where
  config : ScratchConfig
  kvCaches : List KvCache
  /-- One pool a layer when the cache is paged. -/
  pagePools : List PagePool
deriving Repr, DecidableEq

/-- `none` is an error or a panic; device allocation succeeds. -/
def ScratchPool.new (config : ScratchConfig) : Option ScratchPool :=
  if config.widthsOk then do
    let kvCaches ← (List.range config.numLayers).mapM config.kvCacheAt
    let pagePools := match config.pagedKv with
      | none => []
      | some paged =>
        List.replicate config.numLayers
          (PagePool.new paged.nPages config.nSlots paged.maxPagesPerSlot)
    some ⟨config, kvCaches, pagePools⟩
  else none

theorem mapM_lookup {f : α → Option β} {xs : List α} {ys : List β} (h : xs.mapM f = some ys) :
    ys.length = xs.length ∧ ∀ i : Nat, ys[i]? = xs[i]?.bind f := by
  induction xs generalizing ys with
  | nil =>
    cases h
    simp
  | cons a xs ih =>
    rw [List.mapM_cons] at h
    cases ha : f a with
    | none => simp [ha] at h
    | some b =>
      cases hr : xs.mapM f with
      | none => simp [ha, hr] at h
      | some bs =>
        simp only [ha, hr, Option.bind_eq_bind, Option.bind_some, Option.pure_def,
          Option.some.injEq] at h
        subst h
        obtain ⟨hlen, hlook⟩ := ih hr
        refine ⟨by simp [hlen], ?_⟩
        intro i
        cases i with
        | zero => simp [ha]
        | succ i => simpa using hlook i

theorem mapM_range {f : Nat → Option β} (h : (List.range n).mapM f = some ys) (hi : i < n) :
    ys[i]? = f i ∧ (f i).isSome := by
  obtain ⟨hlen, hlook⟩ := mapM_lookup h
  have hget : ys[i]? = f i := by
    rw [hlook i, List.getElem?_range hi, Option.bind_some]
  refine ⟨hget, ?_⟩
  have hlt : i < ys.length := by simpa [hlen] using hi
  simp [← hget, hlt]

theorem new_parts (h : ScratchPool.new config = some pool) :
    pool.config = config ∧
      (List.range config.numLayers).mapM config.kvCacheAt = some pool.kvCaches := by
  unfold ScratchPool.new at h
  split at h
  case isFalse => cases h
  case isTrue =>
    cases hk : (List.range config.numLayers).mapM config.kvCacheAt with
    | none => simp [hk] at h
    | some caches =>
      simp only [hk, Option.bind_eq_bind, Option.bind_some, Option.some.injEq] at h
      subst h
      exact ⟨rfl, rfl⟩

/-- A pool's layers are those of its configuration, one by one. -/
theorem new_kvCaches (h : ScratchPool.new config = some pool) (hli : li < config.numLayers) :
    pool.kvCaches[li]? = config.kvCacheAt li :=
  (mapM_range (new_parts h).2 hli).1

/-- A layer's rows are as long as its layout makes them. -/
theorem new_bytesPerRow {kv : KvCache} {li : Nat} (h : ScratchPool.new config = some pool)
    (hkv : pool.kvCaches[li]? = some kv) :
    kv.bytesPerRow = kv.layout.bytesPerRow kv.kvWidth := by
  have hcount : pool.kvCaches.length = config.numLayers := by
    simpa using (mapM_lookup (new_parts h).2).1
  have hli : li < config.numLayers := by
    obtain ⟨hlt, -⟩ := List.getElem?_eq_some_iff.mp hkv
    omega
  rw [new_kvCaches h hli] at hkv
  unfold ScratchConfig.kvCacheAt at hkv
  simp only [Option.bind_eq_bind, Option.bind_eq_some_iff, Option.some.injEq] at hkv
  obtain ⟨_, _, _, _, _, _, rfl⟩ := hkv
  rfl

end Flambeau.Forward
