import Flambeau.Forward.Attn.Contiguous

namespace Flambeau.Forward.Attn
open Systems

/-- The rows one query saw, each with its K and V. -/
structure Seen (α : Type) where
  row : Nat
  keys : List (Nat × α)

section Run

variable {α : Type} (content : Nat → Bool → Option α)

/-- A slab holds the K and V of a row under its first byte. `content` is what a row of
the batch stores there. -/
def store (slab : Nat → α) (write : KvWrite) : Nat → α :=
  match content write.row write.vNormed with
  | some kv => fun byte => if byte = write.byte then kv else slab byte
  | none => slab

def look (slab : Nat → α) (attends : Attends) : Seen α :=
  ⟨attends.row, attends.keys.map fun byte => (byte, slab byte)⟩

/-- The ops of a call in order, to its end or to the first that is not accepted. -/
def runLaunches (slab : Nat → α) : List Launch → (Nat → α) × Option (List (Seen α))
  | [] => (slab, some [])
  | launch :: launches =>
    if launch.accepted then
      let slab := launch.writes.foldl (store content) slab
      let after := runLaunches slab launches
      (after.1, after.2.map fun seen => launch.attends.map (look slab) ++ seen)
    else (slab, none)

end Run

section Rows

variable {config : ScratchConfig} {kv : KvCache} {weights : AttnWeights}

theorem kvWidth_pos (h : weights.headsOk = true) : 0 < weights.kvWidth := by
  unfold AttnWeights.headsOk at h
  simp only [Bool.and_eq_true, decide_eq_true_eq, bne_iff_ne, List.mem_cons, List.not_mem_nil,
    or_false] at h
  exact Nat.mul_pos (Nat.pos_of_ne_zero h.1.2) (by omega)

/-- A cache that is not a ring holds every position. -/
theorem physRow_depth (h : t < config.maxSeqLen) :
    physRow (ringDepth config kv) t = t % kv.depth := by
  unfold ringDepth isRingLayer physRow
  by_cases hring : kv.depth < config.maxSeqLen
  · simp only [hring, decide_true, if_true]
    split
    · rfl
    · have hzero : kv.depth = 0 := by omega
      rw [hzero, Nat.mod_zero]
  · simp only [hring, decide_false, Bool.false_eq_true, if_false, Nat.lt_irrefl]
    exact (Nat.mod_eq_of_lt (by omega)).symm

theorem slides_iff : slides config kv weights position = true ↔
    config.maxSeqLen ≤ kv.depth ∧ 0 < weights.windowSize ∧
      weights.windowSize.toNat < position + 1 := by
  unfold slides isRingLayer
  simp only [Bool.and_eq_true, Bool.not_eq_true', decide_eq_false_iff_not, decide_eq_true_eq,
    Nat.not_lt, and_assoc]

theorem slides_ring (h : slides config kv weights position = true) : ringDepth config kv = 0 := by
  unfold ringDepth isRingLayer
  simp only [decide_eq_true_eq, Nat.not_lt.mpr (slides_iff.mp h).1, if_false]

/-- A batch is given its window, or none once a row slides. -/
theorem batch_window (rows : List (Nat × Nat)) :
    (if (rows.any fun r => slides config kv weights r.2) = true then 0
      else weights.windowSize) = weights.windowSize ∨
    (if (rows.any fun r => slides config kv weights r.2) = true then 0
      else weights.windowSize) = 0 ∧ ∃ p, slides config kv weights p = true := by
  by_cases hany : (rows.any fun r => slides config kv weights r.2) = true
  · obtain ⟨q, _, hq⟩ := List.any_eq_true.mp hany
    exact .inr ⟨if_pos hany, q.2, hq⟩
  · exact .inl (if_neg hany)

/-- A row that does not slide has its whole window under either. -/
theorem live_kernelWindow {kernelWindow : Int}
    (hwindow : kernelWindow = weights.windowSize ∨
      kernelWindow = 0 ∧ ∃ p, slides config kv weights p = true)
    (hs : ¬slides config kv weights position = true) :
    liveWindow kernelWindow position = liveWindow weights.windowSize position := by
  obtain rfl | ⟨rfl, p, hp⟩ := hwindow
  · rfl
  · obtain ⟨hfull, hpos, _⟩ := slides_iff.mp hp
    have hshort : ¬weights.windowSize.toNat < position + 1 := by
      intro hlt
      exact hs (slides_iff.mpr ⟨hfull, hpos, hlt⟩)
    have hstart : windowStart weights.windowSize position = windowStart 0 position := by
      have hzero : windowStart 0 position = 0 := rfl
      rw [hzero]
      unfold windowStart
      rw [if_pos hpos]
      omega
    unfold liveWindow
    rw [hstart]

end Rows

/-- An attention layer with its F16 contiguous cache. -/
structure F16Layer where
  config : ScratchConfig
  kv : KvCache
  weights : AttnWeights
  headsOk : weights.headsOk = true
  qFits : weights.qWidth ≤ config.qWidth
  kvFits : weights.kvWidth ≤ config.kvWidth
  width : kv.kvWidth = weights.kvWidth
  layout : kv.layout = .f16Contig
  rowBytes : kv.bytesPerRow = KvLayout.f16Contig.bytesPerRow kv.kvWidth
  depth_pos : 0 < kv.depth
  prefill_pos : 0 < config.maxPrefillTokens

namespace F16Layer

variable (layer : F16Layer)

def isKvShared : Bool := layer.weights.kvShareSrc.isSome

/-- Where the K and V of a slot's position are. -/
def rowByte (slot position : Nat) : Nat :=
  slot * layer.kv.depth * layer.kv.bytesPerRow +
    position % layer.kv.depth * layer.kv.bytesPerRow

/-- The rows of the slab that hold the window of a query. -/
def windowBytes (slot position : Nat) : List Nat :=
  (liveWindow layer.weights.windowSize position).map (layer.rowByte slot)

def valid (rows : List (Nat × Nat)) : Prop :=
  ∀ r ∈ rows, r.2 < layer.config.maxSeqLen ∧ r.1 < layer.config.nSlots

/-- `standard_attn_local` on the layer. -/
def attn (rows : List (Nat × Nat)) : List Launch :=
  if admits layer.config layer.kv layer.weights rows then
    contiguousAttn layer.config layer.kv layer.weights rows
  else [.bail]

def writesOf (rows : List (Nat × Nat)) (firstRow : Nat) (vNormed : Bool) : List KvWrite :=
  rows.zipIdx.map fun r =>
    ⟨firstRow + r.2, r.1.1, r.1.2, layer.rowByte r.1.1 r.1.2, layer.kv.bytesPerRow, .f16Contig,
      vNormed⟩

def attendsOf (rows : List (Nat × Nat)) (firstRow : Nat) : List Attends :=
  rows.zipIdx.map fun r => ⟨firstRow + r.2, layer.windowBytes r.1.1 r.1.2⟩

/-- The op stores every row at its slot and position. -/
def Appends (rows : List (Nat × Nat)) (firstRow : Nat) (vNormed : Bool) (op : Launch) : Prop :=
  op.accepted = true ∧ op.writes = layer.writesOf rows firstRow vNormed ∧ op.attends = []

/-- The op runs every row's softmax over that row's window. -/
def Attention (rows : List (Nat × Nat)) (firstRow : Nat) (op : Launch) : Prop :=
  op.writes = [] ∧ op.attends = layer.attendsOf rows firstRow

theorem kernelRowBytes_f16 :
    kernelRowBytes layer.weights .f16Contig = layer.kv.bytesPerRow := by
  rw [layer.rowBytes, layer.width]
  exact Nat.mul_comm ..

theorem slotStride_eq (slot : Nat) :
    slot * slotStrideBytes layer.kv layer.weights =
      slot * layer.kv.depth * layer.kv.bytesPerRow := by
  have hrow := layer.kernelRowBytes_f16
  unfold kernelRowBytes at hrow
  unfold slotStrideBytes slotStrideElems
  rw [← hrow, Nat.mul_assoc layer.kv.depth, Nat.mul_assoc slot]

theorem byteOf_f16View (slot ringDepth t : Nat) :
    (f16View layer.kv layer.weights slot).byteOf ringDepth t =
      slot * layer.kv.depth * layer.kv.bytesPerRow +
        physRow ringDepth t * layer.kv.bytesPerRow := by
  unfold CacheView.byteOf f16View
  rw [layer.slotStride_eq, layer.kernelRowBytes_f16]

theorem byteOf_row (slot : Nat) (h : t < layer.config.maxSeqLen) :
    (f16View layer.kv layer.weights slot).byteOf (ringDepth layer.config layer.kv) t =
      layer.rowByte slot t := by
  rw [layer.byteOf_f16View, physRow_depth h]
  rfl

theorem slotView_f16 (slot : Nat) :
    slotView layer.kv layer.weights slot = f16View layer.kv layer.weights slot := by
  unfold slotView
  rw [layer.layout]

theorem width_le (h : rows ≤ layer.kv.depth) :
    rows * layer.weights.kvWidth ≤ slotStrideElems layer.kv layer.weights :=
  Nat.mul_le_mul_right _ h

theorem cacheFits_window (h : nTokens ≤ layer.config.maxSeqLen) :
    cacheFits layer.weights (slotStrideElems layer.kv layer.weights) nTokens
      (ringDepth layer.config layer.kv) = true := by
  have hpos := layer.depth_pos
  unfold cacheFits
  apply decide_eq_true
  apply layer.width_le
  unfold ringCacheRows ringDepth isRingLayer
  by_cases hring : layer.kv.depth < layer.config.maxSeqLen
  · simp only [hring, decide_true, if_true, hpos]
    exact Nat.min_le_right ..
  · simp only [hring, decide_false, Bool.false_eq_true, if_false, Nat.lt_irrefl]
    omega

/-- A window that has not wrapped is a run of rows of the slab. -/
theorem windowBytes_run (slot : Nat) (hcount : position < layer.kv.depth) :
    layer.windowBytes slot position =
      (liveWindow layer.weights.windowSize position).map fun t =>
        slot * layer.kv.depth * layer.kv.bytesPerRow + t * layer.kv.bytesPerRow := by
  unfold windowBytes
  apply List.map_congr_left
  intro t ht
  have hle := (mem_span.mp ht).2
  unfold rowByte
  rw [Nat.mod_eq_of_lt (by omega)]

/-- A pointer slid to the window reads the window as its first rows. -/
theorem slid_keys (slot : Nat) (hcount : position < layer.kv.depth)
    (hwindow : 0 < layer.weights.windowSize)
    (hslid : layer.weights.windowSize.toNat < position + 1) :
    (decodeKeys layer.weights.windowSize.toNat 0).map
        (((f16View layer.kv layer.weights slot).slide
          (position + 1 - layer.weights.windowSize.toNat) layer.kv.bytesPerRow).byteOf 0) =
      layer.windowBytes slot position := by
  have hstart : windowStart layer.weights.windowSize position =
      position + 1 - layer.weights.windowSize.toNat := if_pos hwindow
  have hspan : span (position + 1 - layer.weights.windowSize.toNat) (position + 1) =
      (span 0 layer.weights.windowSize.toNat).map fun t =>
        position + 1 - layer.weights.windowSize.toNat + t := by
    rw [span_map_add]
    congr 1
    omega
  have hzero : windowStart 0 (layer.weights.windowSize.toNat - 1) = 0 := rfl
  rw [layer.windowBytes_run slot hcount]
  unfold liveWindow decodeKeys
  rw [hstart, hzero, hspan, List.map_map]
  apply List.map_congr_left
  intro t _
  unfold CacheView.byteOf physRow CacheView.slide f16View
  simp only [Nat.lt_irrefl, if_false, Function.comp]
  rw [layer.slotStride_eq, layer.kernelRowBytes_f16, Nat.add_mul]
  omega

/-- The op runs one query over these rows of a slot. -/
def OneQuery (slot : Nat) (bytes : List Nat) (op : Launch) : Prop :=
  op.accepted = true ∧ op.writes = [] ∧ op.attends = [⟨0, bytes⟩] ∧
    op.reads = bytes.map fun byte => ⟨slot, byte, layer.kv.bytesPerRow, .f16Contig⟩

theorem reads_eq {view : CacheView} (hslot : view.slot = slot)
    (hbytes : view.rowBytes = layer.kv.bytesPerRow) (henc : view.encoding = .f16Contig)
    (keys : List Nat) (ring : Nat) :
    keys.map (view.read ring) =
      (keys.map (view.byteOf ring)).map fun byte => ⟨slot, byte, layer.kv.bytesPerRow, .f16Contig⟩ := by
  rw [List.map_map]
  apply List.map_congr_left
  intro t _
  simp only [CacheView.read, Function.comp, hslot, hbytes, henc]

/-- Both decode kernels, when the split starts at the window. -/
theorem decode_oneQuery {view : CacheView} {knobs : AttnKnobs} (hslot : view.slot = slot)
    (hbytes : view.rowBytes = layer.kv.bytesPerRow) (henc : view.encoding = .f16Contig)
    (hfits : cacheFits layer.weights slotElems nTokens knobs.ringDepth = true)
    (hkeys : (decodeKeys nTokens knobs.windowSize).map (view.byteOf knobs.ringDepth) = bytes)
    (hsize : 0 < chunkSize) (hbase : chunkBase = windowStart knobs.windowSize (nTokens - 1))
    (useSplitk : Bool) :
    layer.OneQuery slot bytes
      (if useSplitk then
        attnDecodeSplitk layer.weights view slotElems ⟨nTokens, chunkSize, chunkBase⟩ knobs
      else attnDecode layer.weights view slotElems nTokens knobs) := by
  have hreads := layer.reads_eq hslot hbytes henc
  have hsplit := AttnSplitkShape.keys_eq ⟨nTokens, chunkSize, chunkBase⟩ hsize hbase
  have hnonzero : (chunkSize != 0) = true := bne_iff_ne.mpr (Nat.pos_iff_ne_zero.mp hsize)
  cases useSplitk with
  | true =>
    unfold OneQuery attnDecodeSplitk CacheView.attend
    simp only [if_true, hsplit, hkeys, hreads, layer.headsOk, hfits, hnonzero, Bool.and_self,
      and_self]
  | false =>
    unfold OneQuery attnDecode CacheView.attend
    simp only [Bool.false_eq_true, if_false, hkeys, hreads, layer.headsOk, hfits, Bool.and_self,
      and_self]

/-- Before and after a ring has wrapped, with the pointer slid or not, split or not,
one token's query runs over its window. -/
theorem decodeToken_oneQuery (slot : Nat) (h : position < layer.config.maxSeqLen) :
    layer.OneQuery slot (layer.windowBytes slot position)
      (decodeToken layer.config layer.kv layer.weights (f16View layer.kv layer.weights slot)
        position) := by
  have hmax : 0 < maxSplitkChunks := by decide
  have hdepth := layer.depth_pos
  have hview := layer.kernelRowBytes_f16
  unfold decodeToken
  by_cases hactive : layer.kv.depth < layer.config.maxSeqLen ∧ layer.kv.depth < position + 1
  · have hring : isRingLayer layer.config layer.kv = true := decide_eq_true hactive.1
    simp only [hring, Bool.true_and, decide_eq_true hactive.2, Bool.not_true, Bool.false_and,
      Bool.false_eq_true, if_false, if_true]
    apply layer.decode_oneQuery rfl hview rfl
    · unfold cacheFits ringCacheRows
      simp only [hdepth, if_true]
      exact decide_eq_true (layer.width_le (Nat.min_le_right ..))
    · rw [decodeKeys_last]
      unfold windowBytes
      apply List.map_congr_left
      intro t _
      rw [layer.byteOf_f16View]
      simp only [physRow, hdepth, if_true]
      rfl
    · apply splitkChunkSize_pos _ hmax
      split
      · rename_i hwindow
        have := of_decide_eq_true hwindow
        omega
      · omega
    · unfold windowStart
      simp only [decide_eq_true_eq, Nat.add_sub_cancel]
  · have hinactive : (isRingLayer layer.config layer.kv &&
        decide (layer.kv.depth < position + 1)) = false := by
      unfold isRingLayer
      simpa using hactive
    have hcount : position < layer.kv.depth := by omega
    have hfits : ∀ n, n ≤ layer.kv.depth →
        cacheFits layer.weights (slotStrideElems layer.kv layer.weights) n 0 = true := by
      intro n hn
      unfold cacheFits ringCacheRows
      exact decide_eq_true (layer.width_le hn)
    simp only [hinactive, Bool.not_false, Bool.true_and, Bool.false_and, Bool.false_eq_true,
      if_false, Nat.sub_zero]
    by_cases hslid : 0 < layer.weights.windowSize ∧
        layer.weights.windowSize.toNat < position + 1
    · simp only [decide_eq_true hslid.1, decide_eq_true hslid.2, Bool.and_self, if_true]
      apply layer.decode_oneQuery rfl hview rfl
      · exact hfits _ (by omega)
      · exact layer.slid_keys slot hcount hslid.1 hslid.2
      · exact splitkChunkSize_pos (by omega) hmax
      · rfl
    · have hstay : (decide (0 < layer.weights.windowSize) &&
          decide (layer.weights.windowSize.toNat < position + 1)) = false := by
        simpa using hslid
      simp only [hstay, Bool.false_eq_true, if_false]
      apply layer.decode_oneQuery rfl hview rfl
      · exact hfits _ (by omega)
      · rw [layer.windowBytes_run slot hcount]
        have hstart : windowStart layer.weights.windowSize position = 0 := by
          unfold windowStart
          split <;> omega
        unfold decodeKeys liveWindow
        rw [hstart]
        apply List.map_congr_left
        intro t _
        exact layer.byteOf_f16View slot 0 t
      · exact splitkChunkSize_pos (by omega) hmax
      · rfl

theorem zipIdx_range_map (f : Nat → β) (n : Nat) :
    ((List.range n).map f).zipIdx = (List.range n).map fun i => (f i, i) := by
  apply List.ext_getElem
  · simp
  · intro i _ _
    simp

/-- A single-slot batch is a run of positions. -/
theorem prefillShape_rows {call : AttnCall} (hshape : call.prefillShape = true)
    (hrows : call.rows = (slot, start) :: rest) :
    call.rows = (List.range call.rows.length).map fun i => (slot, start + i) := by
  unfold AttnCall.prefillShape at hshape
  rw [hrows] at hshape ⊢
  apply List.ext_getElem
  · simp
  · intro i hi _
    rw [List.getElem_map, List.getElem_range]
    have hrow := List.all_eq_true.mp hshape (((slot, start) :: rest)[i], i) (by
      rw [List.mem_zipIdx_iff_getElem?]
      exact List.getElem?_eq_getElem hi)
    simp only [Bool.and_eq_true, beq_iff_eq] at hrow
    exact Prod.ext hrow.1 hrow.2

/-- The last row of a single-slot batch is a valid position too. -/
theorem prefillShape_end {call : AttnCall} (hshape : call.prefillShape = true)
    (hrows : call.rows = (slot, start) :: rest) (hvalid : ∀ r ∈ call.rows, r.2 < maxSeqLen) :
    start + call.rows.length ≤ maxSeqLen := by
  have heq := prefillShape_rows hshape hrows
  have hlen : call.rows.length = rest.length + 1 := by rw [hrows, List.length_cons]
  have hlast : (slot, start + rest.length) ∈ call.rows := by
    rw [heq]
    exact List.mem_map.mpr ⟨rest.length, List.mem_range.mpr (by omega), rfl⟩
  have hlt : start + rest.length < maxSeqLen := hvalid _ hlast
  omega

/-- The rows of a single-slot batch. -/
def chunk (slot start n : Nat) : List (Nat × Nat) :=
  (List.range n).map fun i => (slot, start + i)

theorem writesOf_chunk (slot start n : Nat) (vNormed : Bool) :
    layer.writesOf (chunk slot start n) 0 vNormed =
      (List.range n).map fun i =>
        ⟨i, slot, start + i, layer.rowByte slot (start + i), layer.kv.bytesPerRow, .f16Contig,
          vNormed⟩ := by
  unfold writesOf chunk
  rw [zipIdx_range_map, List.map_map]
  apply List.map_congr_left
  intro i _
  simp

theorem attendsOf_chunk (slot start n : Nat) :
    layer.attendsOf (chunk slot start n) 0 =
      (List.range n).map fun i => ⟨i, layer.windowBytes slot (start + i)⟩ := by
  unfold attendsOf chunk
  rw [zipIdx_range_map, List.map_map]
  apply List.map_congr_left
  intro i _
  simp

/-- A chunk that fits the ring is stored row by row. -/
theorem kvAppendF16_appends (slot : Nat) (vNormed : Bool)
    (hend : start + n ≤ layer.config.maxSeqLen) (hfits : n ≤ layer.kv.depth) :
    layer.Appends (chunk slot start n) 0 vNormed
      (kvAppendF16 (f16View layer.kv layer.weights slot)
        ⟨n, start, layer.kv.depth, ringDepth layer.config layer.kv⟩ vNormed) := by
  refine ⟨?_, ?_, rfl⟩
  · unfold kvAppendF16 KvAppendSpec.inBounds ringDepth isRingLayer
    dsimp only
    by_cases hring : layer.kv.depth < layer.config.maxSeqLen
    · have hnonzero : layer.kv.depth ≠ 0 := Nat.pos_iff_ne_zero.mp layer.depth_pos
      simp [hring, hnonzero, hfits]
    · simp only [hring, decide_false, Bool.false_eq_true, if_false, if_true]
      exact decide_eq_true (by omega)
  · have hring : 0 < ringDepth layer.config layer.kv → n ≤ ringDepth layer.config layer.kv := by
      unfold ringDepth
      split <;> omega
    rw [writesOf_chunk]
    unfold kvAppendF16 KvAppendSpec.writes
    dsimp only
    rw [appendRows_phys hring, List.map_map]
    apply List.map_congr_left
    intro i hi
    have hlt := List.mem_range.mp hi
    have hposition : start + i < layer.config.maxSeqLen := by omega
    have hbyte := layer.byteOf_row slot hposition
    unfold CacheView.byteOf at hbyte
    have hview := layer.kernelRowBytes_f16
    simp only [Function.comp, hbyte]
    unfold f16View
    dsimp only
    rw [hview]

theorem kvAppendVUnitNorm_appends (slot : Nat) (hend : start + n ≤ layer.config.maxSeqLen) :
    layer.Appends (chunk slot start n) 0 true
      (kvAppendVUnitNormF16 layer.weights (f16View layer.kv layer.weights slot) n start
        (ringDepth layer.config layer.kv)) := by
  refine ⟨?_, ?_, rfl⟩
  · have hheads := layer.headsOk
    unfold AttnWeights.headsOk at hheads
    simp only [Bool.and_eq_true] at hheads
    exact hheads.1.1.1
  · rw [writesOf_chunk]
    unfold kvAppendVUnitNormF16
    dsimp only
    apply List.map_congr_left
    intro i hi
    have hlt := List.mem_range.mp hi
    have hview := layer.kernelRowBytes_f16
    rw [layer.byteOf_row _ (by omega)]
    unfold f16View
    dsimp only
    rw [hview]

theorem prefillTile_pos {encoding : KvLayout} {headDim nQTokens : Nat}
    (h : prefillTile encoding headDim nQTokens = some tile) : 0 < tile.br ∧ 0 < tile.bc := by
  unfold prefillTile at h
  repeat' split at h
  all_goals cases h
  all_goals decide

theorem prefillKeys_eq (encoding : KvLayout) (headDim : Nat) (shape : AttnPrefillShape)
    (windowSize : Int) (hq : q < shape.nQTokens) :
    prefillKeys (prefillTile encoding headDim shape.nQTokens) shape windowSize q =
      shape.keys windowSize q := by
  unfold prefillKeys
  cases htile : prefillTile encoding headDim shape.nQTokens with
  | none => rfl
  | some tile =>
    obtain ⟨hbr, hbc⟩ := prefillTile_pos htile
    exact tile.keys_eq shape windowSize hbr hbc hq

/-- Prefill attention runs each query of a chunk over its window. -/
theorem attnPrefill_attention (slot : Nat) (hend : start + n ≤ layer.config.maxSeqLen) :
    layer.Attention (chunk slot start n) 0
        (attnPrefill layer.weights (f16View layer.kv layer.weights slot)
          (slotStrideElems layer.kv layer.weights) ⟨n, start + n, start⟩
          ⟨layer.weights.windowSize, ringDepth layer.config layer.kv⟩) ∧
      (attnPrefill layer.weights (f16View layer.kv layer.weights slot)
        (slotStrideElems layer.kv layer.weights) ⟨n, start + n, start⟩
        ⟨layer.weights.windowSize, ringDepth layer.config layer.kv⟩).accepted = true := by
  refine ⟨⟨rfl, ?_⟩, ?_⟩
  · rw [attendsOf_chunk]
    unfold attnPrefill CacheView.attend
    dsimp only
    apply List.map_congr_left
    intro q hq
    have hlt := List.mem_range.mp hq
    have hlimit : AttnPrefillShape.limit ⟨n, start + n, start⟩ q = start + q + 1 := by
      unfold AttnPrefillShape.limit
      dsimp only
      omega
    rw [prefillKeys_eq _ _ ⟨n, start + n, start⟩ _ hlt]
    unfold AttnPrefillShape.keys windowBytes liveWindow
    rw [hlimit]
    congr 1
    apply List.map_congr_left
    intro t ht
    have ht := (mem_span.mp ht).2
    exact layer.byteOf_row _ (by omega)
  · unfold attnPrefill
    simp only [layer.headsOk, layer.cacheFits_window hend, Nat.le_refl, decide_true, Bool.or_true,
      Bool.and_self]

/-- The single-slot branch: an append of the chunk, then its attention. -/
theorem singleSlot_spec (slot : Nat) (hpos : 0 < n)
    (hend : start + n ≤ layer.config.maxSeqLen) (hfits : n ≤ layer.kv.depth) :
    ∃ append attention,
      singleSlot layer.config layer.kv layer.weights slot start n =
        (if layer.isKvShared then [] else [append]) ++ [attention] ∧
      layer.Appends (chunk slot start n) 0 layer.weights.attnVUnitNorm append ∧
      layer.Attention (chunk slot start n) 0 attention ∧ attention.accepted = true := by
  have hattention : ∃ attention,
      (if n = 1 then decodeToken layer.config layer.kv layer.weights
          (f16View layer.kv layer.weights slot) start
        else attnPrefill layer.weights (f16View layer.kv layer.weights slot)
          (slotStrideElems layer.kv layer.weights) ⟨n, start + n, start⟩
          ⟨layer.weights.windowSize, ringDepth layer.config layer.kv⟩) = attention ∧
      layer.Attention (chunk slot start n) 0 attention ∧ attention.accepted = true := by
    by_cases hone : n = 1
    · subst hone
      rw [if_pos rfl]
      obtain ⟨hok, hwrites, hattends, _⟩ :=
        layer.decodeToken_oneQuery slot (show start < layer.config.maxSeqLen by omega)
      refine ⟨_, rfl, ⟨hwrites, ?_⟩, hok⟩
      rw [hattends]
      rfl
    · rw [if_neg hone]
      obtain ⟨hattention, hok⟩ := layer.attnPrefill_attention slot hend
      exact ⟨_, rfl, hattention, hok⟩
  have happend : ∃ append,
      kvAppend layer.config layer.kv layer.weights (f16View layer.kv layer.weights slot) n start =
        [append] ∧
      layer.Appends (chunk slot start n) 0 layer.weights.attnVUnitNorm append := by
    unfold kvAppend
    rw [layer.layout]
    cases hnorm : layer.weights.attnVUnitNorm with
    | true => exact ⟨_, rfl, layer.kvAppendVUnitNorm_appends slot hend⟩
    | false => exact ⟨_, rfl, layer.kvAppendF16_appends slot false hend hfits⟩
  obtain ⟨append, heqAppend, happend⟩ := happend
  obtain ⟨attention, heqAttention, hattention⟩ := hattention
  refine ⟨append, attention, ?_, happend, hattention⟩
  unfold singleSlot
  dsimp only
  rw [layer.slotView_f16, heqAppend, heqAttention]
  rfl

/-- The keys of one row of a batched decode, under the window the batch is given. -/
theorem batched_keys (slot : Nat) (h : position < layer.config.maxSeqLen)
    (hwindow : kernelWindow = layer.weights.windowSize ∨ kernelWindow = 0 ∧
      ∃ p, slides layer.config layer.kv layer.weights p = true)
    (hslid : slides layer.config layer.kv layer.weights position = true → kernelWindow = 0) :
    (if slides layer.config layer.kv layer.weights position then
        (decodeKeys layer.weights.windowSize.toNat kernelWindow).map
          (((f16View layer.kv layer.weights slot).slide
            (position + 1 - layer.weights.windowSize.toNat) layer.kv.bytesPerRow).byteOf
              (ringDepth layer.config layer.kv))
      else
        (decodeKeys (position + 1) kernelWindow).map
          ((f16View layer.kv layer.weights slot).byteOf (ringDepth layer.config layer.kv))) =
      layer.windowBytes slot position := by
  by_cases hs : slides layer.config layer.kv layer.weights position = true
  · obtain ⟨hfull, hpos, hlt⟩ := slides_iff.mp hs
    rw [if_pos hs, hslid hs, slides_ring hs]
    exact layer.slid_keys slot (by omega) hpos hlt
  · have hlive := live_kernelWindow hwindow hs
    rw [if_neg hs, decodeKeys_last]
    unfold windowBytes
    rw [hlive]
    apply List.map_congr_left
    intro t ht
    have ht := (mem_span.mp ht).2
    exact layer.byteOf_row _ (by omega)

/-- The multi-slot branch, and the decode rows of a mixed batch. -/
theorem batchedSlots_spec (hvalid : layer.valid rows) (hrows : rows ≠ []) (firstRow : Nat)
    (vNormed : Bool) :
    ∃ append attention,
      batchedSlots layer.config layer.kv layer.weights rows firstRow vNormed =
        (if layer.isKvShared then [] else [append]) ++ [attention] ∧
      layer.Appends rows firstRow vNormed append ∧ layer.Attention rows firstRow attention ∧
      attention.accepted = decide (rows.length ≤ 32) := by
  have hview := layer.kernelRowBytes_f16
  have hidx : rows.zipIdx.isEmpty = false := by
    cases rows with
    | nil => exact absurd rfl hrows
    | cons => rfl
  refine ⟨_, _, rfl, ⟨?_, ?_, rfl⟩, ⟨rfl, ?_⟩, ?_⟩
  · unfold kvAppendF16BatchedSlots
    simp only [List.isEmpty_map, hidx, Bool.not_false]
  · unfold kvAppendF16BatchedSlots writesOf
    dsimp only
    rw [List.map_map]
    apply List.map_congr_left
    intro r hr
    have hmem : r.1 ∈ rows := List.fst_mem_of_mem_zipIdx hr
    simp only [Function.comp]
    rw [layer.byteOf_row _ (hvalid r.1 hmem).1]
    unfold f16View
    dsimp only
    rw [hview]
  · unfold attnDecodeF16Batched attendsOf CacheView.attend
    dsimp only
    rw [List.map_map, List.map_map]
    apply List.map_congr_left
    intro r hr
    have hmem : r.1 ∈ rows := List.fst_mem_of_mem_zipIdx hr
    rw [← layer.batched_keys r.1.1 (hvalid r.1 hmem).1 (batch_window rows)
      (fun hs => if_pos (List.any_eq_true.mpr ⟨r.1, hmem, hs⟩))]
    simp only [Function.comp]
    split <;> rfl
  · unfold attnDecodeF16Batched
    simp only [layer.headsOk, List.isEmpty_map, hidx, Bool.not_false, Bool.and_self,
      Bool.true_and, List.length_map, List.length_zipIdx]

def prefillShape (rows : List (Nat × Nat)) : Bool := (layer.weights.call rows).prefillShape

/-- The multi-slot branch stores V as it was projected. -/
def storesNormed (rows : List (Nat × Nat)) : Bool :=
  layer.prefillShape rows && layer.weights.attnVUnitNorm

/-- The batch is one the branch takes to its end. -/
def completes (rows : List (Nat × Nat)) : Bool :=
  layer.prefillShape rows || rows.length ≤ 32

/-- What the batch leaves in the slabs. -/
def stored {α : Type} (content : Nat → Bool → Option α) (slab : Nat → α)
    (rows : List (Nat × Nat)) : Nat → α :=
  if layer.isKvShared then slab
  else (layer.writesOf rows 0 (layer.storesNormed rows)).foldl (store content) slab

theorem run_append_attention {content : Nat → Bool → Option α} {append attention : Launch}
    (happend : layer.Appends rows firstRow vNormed append)
    (hattention : layer.Attention rows firstRow attention) (slab : Nat → α) (shared : Bool) :
    runLaunches content slab ((if shared then [] else [append]) ++ [attention]) =
      (let slab := if shared then slab
        else (layer.writesOf rows firstRow vNormed).foldl (store content) slab
       (slab, if attention.accepted then
          some ((layer.attendsOf rows firstRow).map (look slab)) else none)) := by
  obtain ⟨hok, hwrites, hnone⟩ := happend
  obtain ⟨hquiet, hattends⟩ := hattention
  cases shared <;> cases hattention : attention.accepted <;>
    simp [runLaunches, hok, hwrites, hnone, hquiet, hattends, hattention]

theorem call_rows (rows : List (Nat × Nat)) : (layer.weights.call rows).rows = rows := rfl

/-- A valid batch: its rows are stored, then each runs over its window. -/
theorem run_attn (content : Nat → Bool → Option α) (hvalid : layer.valid rows)
    (hrows : rows ≠ []) (hcount : rows.length ≤ layer.config.maxPrefillTokens)
    (hchunk : layer.prefillShape rows = true → rows.length ≤ layer.kv.depth)
    (hslots : layer.prefillShape rows = false → 1 < layer.config.nSlots) (slab : Nat → α) :
    runLaunches content slab (layer.attn rows) =
      (layer.stored content slab rows,
        if layer.completes rows then
          some ((layer.attendsOf rows 0).map (look (layer.stored content slab rows)))
        else none) := by
  have hadmits : admits layer.config layer.kv layer.weights rows = true := by
    have hall : (rows.all fun r => decide (r.2 < layer.config.maxSeqLen) &&
        decide (r.1 < layer.config.nSlots)) = true := by
      apply List.all_eq_true.mpr
      intro r hr
      simpa using hvalid r hr
    have hempty : rows.isEmpty = false := by
      cases rows with
      | nil => exact absurd rfl hrows
      | cons => rfl
    unfold admits
    simp only [hempty, hall, hcount, layer.qFits, layer.kvFits, layer.width, decide_true,
      beq_self_eq_true, Bool.not_false, Bool.and_self]
  unfold attn
  rw [if_pos hadmits]
  obtain ⟨⟨slot, start⟩, rest, rfl⟩ := List.exists_cons_of_ne_nil hrows
  unfold contiguousAttn
  dsimp only
  cases hshape : (layer.weights.call ((slot, start) :: rest)).prefillShape with
  | true =>
    have heq := prefillShape_rows hshape (layer.call_rows _)
    rw [layer.call_rows] at heq
    have hend : start + ((slot, start) :: rest).length ≤ layer.config.maxSeqLen :=
      prefillShape_end hshape (layer.call_rows _) fun r hr => (hvalid r hr).1
    obtain ⟨append, attention, hops, happend, hattention, hok⟩ :=
      layer.singleSlot_spec slot (List.length_pos_iff.mpr hrows) hend (hchunk hshape)
    have hchunk' : chunk slot start ((slot, start) :: rest).length = (slot, start) :: rest :=
      heq.symm
    rw [hchunk'] at happend hattention
    rw [if_pos rfl, hops, layer.run_append_attention happend hattention]
    unfold completes stored storesNormed prefillShape
    simp [hshape, hok]
  | false =>
    obtain ⟨append, attention, hops, happend, hattention, hok⟩ :=
      layer.batchedSlots_spec hvalid hrows 0 false
    rw [if_neg (by simp), if_neg (Nat.not_le.mpr (hslots hshape)), hops,
      layer.run_append_attention happend hattention]
    unfold completes stored storesNormed prefillShape
    simp [hshape, hok]

end F16Layer

end Flambeau.Forward.Attn
