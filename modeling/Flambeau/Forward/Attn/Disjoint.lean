import Flambeau.Forward.Attn.Slab

namespace Flambeau.Forward.Attn
open Systems

/-- Every byte of the write is in the row of its slot and position, in the layer's
encoding. -/
def WriteInPlace (kv : KvCache) (write : KvWrite) : Prop :=
  ∀ byte, write.byte ≤ byte → byte < write.byte + write.bytes →
    write.slot * kv.depth * kv.bytesPerRow + write.position % kv.depth * kv.bytesPerRow ≤ byte ∧
    byte < write.slot * kv.depth * kv.bytesPerRow +
      write.position % kv.depth * kv.bytesPerRow + kv.bytesPerRow ∧
    write.encoding = kv.layout

/-- The byte is in the range of the slot. -/
def InSlot (kv : KvCache) (slot byte : Nat) : Prop :=
  slot * kv.depth * kv.bytesPerRow ≤ byte ∧ byte < (slot + 1) * kv.depth * kv.bytesPerRow

def ReadInSlot (kv : KvCache) (read : KvRead) : Prop :=
  ∀ byte, read.byte ≤ byte → byte < read.byte + read.bytes → InSlot kv read.slot byte

def OpKeeps (kv : KvCache) (op : Launch) : Prop :=
  (∀ write ∈ op.writes, WriteInPlace kv write) ∧ ∀ read ∈ op.reads, ReadInSlot kv read

/-- The ops of a call that run. -/
def executed (launches : List Launch) : List Launch := launches.takeWhile (·.accepted)

def KeepsSlots (kv : KvCache) (launches : List Launch) : Prop :=
  ∀ op ∈ executed launches, OpKeeps kv op

/-- No byte of one slot is written or read for another one. -/
def LeavesOthers (kv : KvCache) (launches : List Launch) : Prop :=
  ∀ op ∈ executed launches, ∀ slot byte, InSlot kv slot byte →
    (∀ write ∈ op.writes, write.byte ≤ byte → byte < write.byte + write.bytes →
      write.slot = slot) ∧
    ∀ read ∈ op.reads, read.byte ≤ byte → byte < read.byte + read.bytes → read.slot = slot

/-- A call of either kind. -/
inductive AttnOp where
  | standard (rows : List (Nat × Nat))
  | mixed (rows : List (Nat × Nat)) (prefillRows : Nat)
deriving Repr, DecidableEq

namespace AttnOp

def launches (state : CoreState) (weights : AttnWeights) (layerIdx : Nat) : AttnOp → List Launch
  | .standard rows => state.standardAttnLocal weights layerIdx rows
  | .mixed rows prefillRows => state.standardAttnMixedLocal weights layerIdx rows prefillRows

/-- The cache the call works on. -/
def cache (state : CoreState) (weights : AttnWeights) (layerIdx : Nat) : AttnOp → Option KvCache
  | .standard _ => (state.kvLocalIdx weights layerIdx).bind (state.pool.kvCaches[·]?)
  | .mixed _ _ => (state.localIdx layerIdx).bind (state.pool.kvCaches[·]?)

end AttnOp

/-- The F16 rows that a batched decode loads for a row, at the F16 slot stride, do not
reach past the slot's range. -/
def RowFits (config : ScratchConfig) (kv : KvCache) (weights : AttnWeights)
    (row : Nat × Nat) : Prop :=
  let window := weights.windowSize.toNat
  let base := row.1 * slotStrideBytes kv weights
  let slotEnd := (row.1 + 1) * kv.depth * kv.bytesPerRow
  if slides config kv weights row.2 then
    base + (row.2 + 1 - window) * kv.bytesPerRow + window * (weights.kvWidth * 2) ≤ slotEnd
  else
    ∀ t ∈ liveWindow weights.windowSize row.2,
      base + (physRow (ringDepth config kv) t + 1) * (weights.kvWidth * 2) ≤ slotEnd

/-- The rows go to the multi-slot branch. -/
def reachesSlots (config : ScratchConfig) (kv : KvCache) (weights : AttnWeights)
    (rows : List (Nat × Nat)) : Prop :=
  admits config kv weights rows = true ∧ config.pagedKv = none ∧
    (weights.call rows).prefillShape = false ∧ 1 < config.nSlots

/-- A mixed call gets past its checks. -/
def reachesMixed (config : ScratchConfig) (kv : KvCache) (weights : AttnWeights)
    (rows : List (Nat × Nat)) (prefillRows : Nat) : Prop :=
  mixedShape weights rows prefillRows = true ∧ config.pagedKv = none ∧
    weights.kvShareSrc = none ∧ admits config kv weights rows = true ∧ 1 < config.nSlots

/-- The calls that do not put F16 rows where the layer has Q8 ones. -/
def StaysInLayout (config : ScratchConfig) (kv : KvCache) (weights : AttnWeights) : AttnOp → Prop
  | .standard rows =>
    reachesSlots config kv weights rows →
      (kv.layout = .f16Contig ∨ weights.kvShareSrc.isSome = true ∨ weights.kvWidth = 0) ∧
      (weights.headsOk = true → rows.length ≤ 32 → ∀ row ∈ rows, RowFits config kv weights row)
  | .mixed rows prefillRows =>
    reachesMixed config kv weights rows prefillRows →
      kv.layout = .f16Contig ∨ weights.kvWidth = 0 ∨ kv.depth < prefillRows ∨
        weights.attnVUnitNorm = true ∧ (vUnitNormPerHeadF16 weights).accepted = false

theorem KeepsSlots.nil (kv : KvCache) : KeepsSlots kv [] := by
  intro op hop
  cases hop

theorem keepsSlots_cons {kv : KvCache} {op : Launch} {ops : List Launch} :
    KeepsSlots kv (op :: ops) ↔ (op.accepted = true → OpKeeps kv op ∧ KeepsSlots kv ops) := by
  unfold KeepsSlots executed
  rw [List.takeWhile_cons]
  cases op.accepted with
  | true => simp
  | false => simp

/-- An op that nothing is written or read by. -/
theorem OpKeeps.quiet {kv : KvCache} {op : Launch} (hwrites : op.writes = [])
    (hreads : op.reads = []) : OpKeeps kv op := by
  unfold OpKeeps
  rw [hwrites, hreads]
  exact ⟨nofun, nofun⟩

theorem keepsSlots_bail (kv : KvCache) : KeepsSlots kv [.bail] := by
  apply keepsSlots_cons.mpr
  intro h
  cases h

/-- A slot's range belongs to no other slot. -/
theorem InSlot.unique {kv : KvCache} (h : InSlot kv slot byte) (h' : InSlot kv slot' byte) :
    slot = slot' := by
  obtain ⟨hlow, hhigh⟩ := h
  obtain ⟨hlow', hhigh'⟩ := h'
  rw [Nat.mul_assoc] at hlow hhigh hlow' hhigh'
  have hlt := Nat.lt_of_mul_lt_mul_right (Nat.lt_of_le_of_lt hlow hhigh')
  have hlt' := Nat.lt_of_mul_lt_mul_right (Nat.lt_of_le_of_lt hlow' hhigh)
  omega

/-- A slot that has a byte has a row. -/
theorem InSlot.depth_pos {kv : KvCache} (h : InSlot kv slot byte) : 0 < kv.depth := by
  obtain ⟨-, hlt⟩ := h
  rcases Nat.eq_zero_or_pos kv.depth with hzero | hpos
  · rw [hzero, Nat.mul_zero, Nat.zero_mul] at hlt
    omega
  · exact hpos

/-- A write in place is in the range of its slot. -/
theorem WriteInPlace.inSlot {kv : KvCache} {write : KvWrite} (h : WriteInPlace kv write)
    (hdepth : 0 < kv.depth) (hlow : write.byte ≤ byte) (hhigh : byte < write.byte + write.bytes) :
    InSlot kv write.slot byte := by
  obtain ⟨hge, hlt, -⟩ := h byte hlow hhigh
  have hmod := Nat.mul_le_mul_right kv.bytesPerRow (Nat.mod_lt write.position hdepth)
  rw [Nat.succ_mul] at hmod
  unfold InSlot
  rw [Nat.succ_mul, Nat.add_mul]
  omega

/-- Bytes kept to their rows and slots are never another slot's. -/
theorem KeepsSlots.leavesOthers {kv : KvCache} {ops : List Launch} (h : KeepsSlots kv ops) :
    LeavesOthers kv ops := by
  intro op hop slot byte hbyte
  obtain ⟨hwrites, hreads⟩ := h op hop
  constructor
  · intro write hwrite hlow hhigh
    exact ((hwrites write hwrite).inSlot hbyte.depth_pos hlow hhigh).unique hbyte
  · intro read hread hlow hhigh
    exact (hreads read hread byte hlow hhigh).unique hbyte

/-- The first rows of the view are in the range of its slot. -/
def RowsInSlot (kv : KvCache) (view : CacheView) (rows : Nat) : Prop :=
  view.slot * kv.depth * kv.bytesPerRow ≤ view.base ∧
    view.base + rows * view.rowBytes ≤ (view.slot + 1) * kv.depth * kv.bytesPerRow

theorem RowsInSlot.reads {kv : KvCache} {view : CacheView} {keys : List Nat}
    (h : RowsInSlot kv view rows) (hkeys : ∀ t ∈ keys, physRow ring t < rows) :
    ∀ read ∈ keys.map (view.read ring), ReadInSlot kv read := by
  obtain ⟨hlow, hhigh⟩ := h
  intro read hread
  obtain ⟨t, ht, rfl⟩ := List.mem_map.mp hread
  have hrow := Nat.mul_le_mul_right view.rowBytes (hkeys t ht)
  rw [Nat.succ_mul] at hrow
  intro byte hge hlt
  unfold CacheView.read CacheView.byteOf at hge hlt
  unfold InSlot CacheView.read
  dsimp only at hge hlt ⊢
  omega

theorem physRow_lt (h : t < nTokens) : physRow ring t < ringCacheRows nTokens ring := by
  unfold physRow ringCacheRows
  split
  · rename_i hring
    have hlt := Nat.mod_lt t hring
    have hle := Nat.mod_le t ring
    omega
  · exact h

theorem mem_decodeKeys (h : t ∈ decodeKeys nTokens windowSize) : t < nTokens :=
  (mem_span.mp h).2

theorem mem_splitkKeys {shape : AttnSplitkShape} (h : t ∈ shape.keys windowSize) :
    t < shape.nTokensKv := by
  obtain ⟨c, _, hchunk⟩ := List.mem_flatMap.mp h
  have hlt := (mem_span.mp hchunk).2
  omega

theorem mem_prefillLoads {shape : AttnPrefillShape} (h : t ∈ prefillLoads tile shape windowSize) :
    t < shape.nKTokens := by
  unfold prefillLoads at h
  split at h
  · obtain ⟨q, _, hq⟩ := List.mem_flatMap.mp h
    have hlt := (mem_span.mp hq).2
    unfold AttnPrefillShape.limit at hlt
    omega
  · obtain ⟨qTile, _, hstaged⟩ := List.mem_flatMap.mp h
    have hlt := Tile.staged_lt _ hstaged
    unfold Tile.blockLimit at hlt
    omega

/-- The kernels step over the rows the slab is made of. -/
theorem kernelRow_eq {weights : AttnWeights} (h : weights.headsOk = true) (layout : KvLayout) :
    kernelRowBytes weights layout = layout.bytesPerRow weights.kvWidth := by
  unfold AttnWeights.headsOk at h
  simp only [Bool.and_eq_true, decide_eq_true_eq, List.mem_cons, List.not_mem_nil, or_false] at h
  unfold kernelRowBytes KvLayout.bytesPerRow AttnWeights.kvWidth
  cases layout with
  | f16Contig => exact Nat.mul_comm ..
  | q8Contig =>
    have hdiv : 32 ∣ weights.headDim := by
      rcases h.1.1.1 with h | h | h | h <;> rw [h] <;> decide
    dsimp only
    rw [Nat.mul_div_assoc _ hdiv]

section Layer

variable {config : ScratchConfig} {kv : KvCache} {weights : AttnWeights}
  (hrow : kv.bytesPerRow = kv.layout.bytesPerRow weights.kvWidth)

theorem write_inPlace {write : KvWrite}
    (hbyte : write.byte = write.slot * kv.depth * kv.bytesPerRow +
      write.position % kv.depth * kv.bytesPerRow)
    (hbytes : write.bytes = kv.bytesPerRow) (hlayout : write.encoding = kv.layout) :
    WriteInPlace kv write := by
  intro byte hlow hhigh
  rw [hbyte] at hlow hhigh
  rw [hbytes] at hhigh
  exact ⟨hlow, hhigh, hlayout⟩

/-- What the check on the cache tensor says of the rows read. -/
theorem cacheFits_rows (hwidth : 0 < weights.kvWidth)
    (h : cacheFits weights (slotStrideElems kv weights) nTokens ring = true) :
    ringCacheRows nTokens ring ≤ kv.depth := by
  unfold cacheFits slotStrideElems at h
  exact Nat.le_of_mul_le_mul_right (of_decide_eq_true h) hwidth

/-- A view of a slot as the layer lays it out. -/
structure SlotView (kv : KvCache) (slot : Nat) (view : CacheView) : Prop where
  slot_eq : view.slot = slot
  base_eq : view.base = slot * kv.depth * kv.bytesPerRow
  encoding_eq : view.encoding = kv.layout

include hrow in
theorem kernelRow_row (hlayout : kv.layout = .f16Contig) :
    weights.kvWidth * 2 = kv.bytesPerRow := by
  rw [hrow, hlayout]
  exact Nat.mul_comm ..

include hrow in
theorem f16View_slot (hlayout : kv.layout = .f16Contig) (slot : Nat) :
    SlotView kv slot (f16View kv weights slot) := by
  refine ⟨rfl, ?_, hlayout.symm⟩
  have hbytes := kernelRow_row hrow hlayout
  unfold f16View slotStrideBytes slotStrideElems
  dsimp only
  rw [Nat.mul_assoc kv.depth, hbytes, Nat.mul_assoc]

include hrow in
theorem slotView_slot (slot : Nat) : SlotView kv slot (slotView kv weights slot) := by
  cases hlayout : kv.layout with
  | f16Contig =>
    have hview : slotView kv weights slot = f16View kv weights slot := by
      unfold slotView
      rw [hlayout]
    rw [hview]
    exact f16View_slot hrow hlayout slot
  | q8Contig =>
    unfold slotView
    rw [hlayout]
    exact ⟨rfl, (Nat.mul_assoc ..).symm, hlayout.symm⟩

theorem slotView_rowBytes (kv : KvCache) (weights : AttnWeights) (slot : Nat) :
    (slotView kv weights slot).rowBytes = kernelRowBytes weights kv.layout := by
  unfold slotView
  cases kv.layout <;> rfl

/-- The two copies of a range append put every row at its place. -/
theorem rangeAppend_inPlace {view : CacheView} (hview : SlotView kv slot view)
    (hbytes : view.rowBytes = kv.bytesPerRow) (hend : start + n ≤ config.maxSeqLen)
    (hfits : KvAppendSpec.inBounds ⟨n, start, kv.depth, ringDepth config kv⟩ = true)
    (vNormed : Bool) :
    ∀ write ∈ KvAppendSpec.writes ⟨n, start, kv.depth, ringDepth config kv⟩ view vNormed,
      WriteInPlace kv write := by
  have hring : 0 < ringDepth config kv → n ≤ ringDepth config kv := by
    intro hpos
    unfold KvAppendSpec.inBounds at hfits
    dsimp only at hfits
    rw [if_neg (Nat.pos_iff_ne_zero.mp hpos)] at hfits
    exact of_decide_eq_true hfits
  intro write hwrite
  unfold KvAppendSpec.writes at hwrite
  dsimp only at hwrite
  rw [appendRows_phys hring, List.map_map] at hwrite
  obtain ⟨i, hi, rfl⟩ := List.mem_map.mp hwrite
  have hi := List.mem_range.mp hi
  have hphys : physRow (ringDepth config kv) (start + i) = (start + i) % kv.depth :=
    physRow_depth (by omega)
  apply write_inPlace
  · simp only [Function.comp, hphys, hview.base_eq, hview.slot_eq, hbytes]
  · exact hbytes
  · exact hview.encoding_eq

include hrow in
theorem kvAppend_keeps (slot : Nat) (hend : start + n ≤ config.maxSeqLen) :
    ∀ op ∈ kvAppend config kv weights (slotView kv weights slot) n start,
      op.accepted = true → OpKeeps kv op := by
  have hview := slotView_slot hrow slot
  have hbytes := slotView_rowBytes kv weights slot
  intro op hop haccepted
  unfold kvAppend at hop
  cases hlayout : kv.layout with
  | f16Contig =>
    have hwidth : (slotView kv weights slot).rowBytes = kv.bytesPerRow := by
      rw [hbytes, hlayout]
      exact kernelRow_row hrow hlayout
    rw [hlayout] at hop
    dsimp only at hop
    cases hnorm : weights.attnVUnitNorm with
    | true =>
      rw [hnorm, if_pos rfl] at hop
      obtain rfl := List.mem_singleton.mp hop
      refine ⟨?_, nofun⟩
      intro write hwrite
      obtain ⟨i, hi, rfl⟩ := List.mem_map.mp hwrite
      have hi := List.mem_range.mp hi
      have hphys : physRow (ringDepth config kv) (start + i) = (start + i) % kv.depth :=
        physRow_depth (by omega)
      apply write_inPlace
      · unfold CacheView.byteOf
        simp only [hphys, hview.base_eq, hview.slot_eq, hwidth]
      · exact hwidth
      · exact hview.encoding_eq
    | false =>
      rw [hnorm, if_neg Bool.false_ne_true] at hop
      obtain rfl := List.mem_singleton.mp hop
      exact ⟨rangeAppend_inPlace hview hwidth hend haccepted false, nofun⟩
  | q8Contig =>
    have hquant : ∀ vNormed,
        (kvAppendF16ToQ8 weights (slotView kv weights slot)
          ⟨n, start, kv.depth, ringDepth config kv⟩ vNormed).accepted = true →
        OpKeeps kv (kvAppendF16ToQ8 weights (slotView kv weights slot)
          ⟨n, start, kv.depth, ringDepth config kv⟩ vNormed) := by
      intro vNormed hok
      have hwidth : weights.kvWidth / 32 * q80BlockBytes = kv.bytesPerRow := by
        rw [hrow, hlayout]
        rfl
      have hfits := (Bool.and_eq_true_iff.mp hok).2
      refine ⟨?_, nofun⟩
      have hblocks : SlotView kv slot { slotView kv weights slot with
          rowBytes := weights.kvWidth / 32 * q80BlockBytes } :=
        ⟨hview.slot_eq, hview.base_eq, hview.encoding_eq⟩
      exact rangeAppend_inPlace hblocks hwidth hend hfits vNormed
    rw [hlayout] at hop
    dsimp only at hop
    cases hnorm : weights.attnVUnitNorm with
    | true =>
      rw [hnorm, if_pos rfl] at hop
      rcases List.mem_cons.mp hop with rfl | hop
      · exact .quiet rfl rfl
      · obtain rfl := List.mem_singleton.mp hop
        exact hquant true haccepted
    | false =>
      rw [hnorm, if_neg Bool.false_ne_true] at hop
      obtain rfl := List.mem_singleton.mp hop
      exact hquant false haccepted

theorem SlotView.slid_rows {view : CacheView} (hview : SlotView kv slot view)
    (hbytes : view.rowBytes = kv.bytesPerRow) (hrows : skip + rows ≤ kv.depth) :
    RowsInSlot kv (view.slide skip kv.bytesPerRow) rows := by
  have hle := Nat.mul_le_mul_right kv.bytesPerRow hrows
  rw [Nat.add_mul] at hle
  unfold RowsInSlot CacheView.slide
  dsimp only
  rw [hview.slot_eq, hview.base_eq, hbytes, Nat.succ_mul, Nat.add_mul]
  omega

theorem SlotView.first_rows {view : CacheView} (hview : SlotView kv slot view)
    (hbytes : view.rowBytes = kv.bytesPerRow) (hrows : rows ≤ kv.depth) :
    RowsInSlot kv view rows := by
  have hslide := hview.slid_rows hbytes (show 0 + rows ≤ kv.depth by omega)
  unfold CacheView.slide at hslide
  rw [Nat.zero_mul] at hslide
  exact hslide

/-- Either decode kernel, on a view with as many rows as its check asks for. -/
theorem decodeOp_keeps {view : CacheView} {knobs : AttnKnobs} {chunkSize chunkBase : Nat}
    (hrows : weights.headsOk = true → ringCacheRows nTokens knobs.ringDepth ≤ kv.depth →
      RowsInSlot kv view (ringCacheRows nTokens knobs.ringDepth)) (useSplitk : Bool) :
    (if useSplitk then
        attnDecodeSplitk weights view (slotStrideElems kv weights)
          ⟨nTokens, chunkSize, chunkBase⟩ knobs
      else attnDecode weights view (slotStrideElems kv weights) nTokens knobs).accepted = true →
    OpKeeps kv
      (if useSplitk then
        attnDecodeSplitk weights view (slotStrideElems kv weights)
          ⟨nTokens, chunkSize, chunkBase⟩ knobs
      else attnDecode weights view (slotStrideElems kv weights) nTokens knobs) := by
  have hinside : weights.headsOk = true →
      cacheFits weights (slotStrideElems kv weights) nTokens knobs.ringDepth = true →
      RowsInSlot kv view (ringCacheRows nTokens knobs.ringDepth) := by
    intro hheads hfits
    exact hrows hheads (cacheFits_rows (kvWidth_pos hheads) hfits)
  cases useSplitk with
  | true =>
    intro haccepted
    simp only [attnDecodeSplitk, if_true, Bool.and_eq_true] at haccepted
    refine ⟨nofun, (hinside haccepted.1.1 haccepted.2).reads ?_⟩
    intro t ht
    exact physRow_lt (mem_splitkKeys ht)
  | false =>
    intro haccepted
    simp only [attnDecode, Bool.false_eq_true, if_false, Bool.and_eq_true] at haccepted
    refine ⟨nofun, (hinside haccepted.1 haccepted.2).reads ?_⟩
    intro t ht
    exact physRow_lt (mem_decodeKeys ht)

theorem decodeToken_keeps {view : CacheView} (hview : SlotView kv slot view)
    (hbytes : weights.headsOk = true → view.rowBytes = kv.bytesPerRow)
    (hposition : position < config.maxSeqLen) :
    (decodeToken config kv weights view position).accepted = true →
      OpKeeps kv (decodeToken config kv weights view position) := by
  unfold decodeToken
  by_cases hactive : (isRingLayer config kv && decide (kv.depth < position + 1)) = true
  · simp only [hactive, Bool.not_true, Bool.false_and, Bool.false_eq_true, if_false, if_true]
    apply decodeOp_keeps
    intro hheads hrows
    exact hview.first_rows (hbytes hheads) hrows
  · have hinactive : (isRingLayer config kv && decide (kv.depth < position + 1)) = false := by
      simpa using hactive
    have hcount : position + 1 ≤ kv.depth := by
      unfold isRingLayer at hactive
      simp only [Bool.and_eq_true, decide_eq_true_eq, not_and, Nat.not_lt] at hactive
      rcases Nat.lt_or_ge kv.depth config.maxSeqLen with hring | hfull
      · exact hactive hring
      · omega
    simp only [hinactive, Bool.not_false, Bool.true_and, Bool.false_and, Bool.false_eq_true,
      if_false, Nat.sub_zero]
    apply decodeOp_keeps
    intro hheads hrows
    split
    · rename_i hslid
      simp only [Bool.and_eq_true, decide_eq_true_eq] at hslid
      have hcovered : ringCacheRows weights.windowSize.toNat 0 = weights.windowSize.toNat := rfl
      simp only [hcovered]
      exact hview.slid_rows (hbytes hheads) (by omega)
    · rename_i hstay
      rw [if_neg hstay] at hrows
      exact hview.first_rows (hbytes hheads) hrows

theorem attnPrefill_keeps {view : CacheView} (hview : SlotView kv slot view)
    (hbytes : weights.headsOk = true → view.rowBytes = kv.bytesPerRow)
    (shape : AttnPrefillShape) (knobs : AttnKnobs) :
    (attnPrefill weights view (slotStrideElems kv weights) shape knobs).accepted = true →
      OpKeeps kv (attnPrefill weights view (slotStrideElems kv weights) shape knobs) := by
  intro haccepted
  unfold attnPrefill at haccepted
  simp only [Bool.and_eq_true] at haccepted
  have hrows := cacheFits_rows (kvWidth_pos haccepted.1.1) haccepted.2
  refine ⟨nofun, (hview.first_rows (hbytes haccepted.1.1) hrows).reads ?_⟩
  intro t ht
  exact physRow_lt (mem_prefillLoads ht)

theorem keepsSlots_of_all {ops : List Launch}
    (h : ∀ op ∈ ops, op.accepted = true → OpKeeps kv op) : KeepsSlots kv ops := by
  induction ops with
  | nil => exact .nil kv
  | cons op ops ih =>
    apply keepsSlots_cons.mpr
    intro haccepted
    refine ⟨h op (List.mem_cons_self ..) haccepted, ih ?_⟩
    intro other hother
    exact h other (List.mem_cons_of_mem _ hother)

include hrow in
/-- The single-slot branch keeps to the slot, in either layout. -/
theorem singleSlot_keeps (slot : Nat) (hend : start + n ≤ config.maxSeqLen) :
    KeepsSlots kv (singleSlot config kv weights slot start n) := by
  have hview := slotView_slot hrow slot
  have hbytes : weights.headsOk = true →
      (slotView kv weights slot).rowBytes = kv.bytesPerRow := by
    intro hheads
    rw [slotView_rowBytes, kernelRow_eq hheads, hrow]
  apply keepsSlots_of_all
  intro op hop haccepted
  unfold singleSlot at hop
  dsimp only at hop
  rcases List.mem_append.mp hop with happend | hattention
  · split at happend
    · cases happend
    · exact kvAppend_keeps hrow slot hend op happend haccepted
  · obtain rfl := List.mem_singleton.mp hattention
    split at haccepted
    · rw [if_pos ‹_›]
      exact decodeToken_keeps hview hbytes (by omega) haccepted
    · rw [if_neg ‹_›]
      exact attnPrefill_keeps hview hbytes _ _ haccepted

/-- Whole rows are in the range when the end of each is. -/
theorem viewReads_iff {view : CacheView} {keys : List Nat} (hbytes : 0 < view.rowBytes)
    (hlow : view.slot * kv.depth * kv.bytesPerRow ≤ view.base) :
    (∀ read ∈ keys.map (view.read ring), ReadInSlot kv read) ↔
      ∀ t ∈ keys, view.base + (physRow ring t + 1) * view.rowBytes ≤
        (view.slot + 1) * kv.depth * kv.bytesPerRow := by
  constructor
  · intro h t ht
    have hlast := (h _ (List.mem_map_of_mem ht)
      (view.base + (physRow ring t + 1) * view.rowBytes - 1)
      (by unfold CacheView.read CacheView.byteOf; rw [Nat.succ_mul]; dsimp only; omega)
      (by unfold CacheView.read CacheView.byteOf; rw [Nat.succ_mul]; dsimp only; omega)).2
    unfold CacheView.read at hlast
    dsimp only at hlast
    omega
  · intro h read hread
    obtain ⟨t, ht, rfl⟩ := List.mem_map.mp hread
    have hend := h t ht
    rw [Nat.succ_mul] at hend
    intro byte hge hlt
    unfold CacheView.read CacheView.byteOf at hge hlt
    unfold InSlot CacheView.read
    dsimp only at hge hlt ⊢
    omega

include hrow in
/-- No layout has longer rows than F16. -/
theorem slotBase_le (slot skip : Nat) :
    slot * kv.depth * kv.bytesPerRow ≤ slot * slotStrideBytes kv weights + skip := by
  have hle : kv.bytesPerRow ≤ weights.kvWidth * 2 := by
    rw [hrow]
    cases kv.layout with
    | f16Contig => exact Nat.le_of_eq (Nat.mul_comm ..)
    | q8Contig =>
      unfold KvLayout.bytesPerRow q80BlockBytes
      dsimp only
      omega
  have hstride : kv.depth * kv.bytesPerRow ≤ slotStrideBytes kv weights := by
    unfold slotStrideBytes slotStrideElems
    rw [Nat.mul_assoc]
    exact Nat.mul_le_mul_left _ hle
  rw [Nat.mul_assoc]
  exact Nat.le_trans (Nat.mul_le_mul_left _ hstride) (Nat.le_add_right ..)

/-- The view and the token count that a row of a batched decode is launched with. -/
def batchedRead (config : ScratchConfig) (kv : KvCache) (weights : AttnWeights)
    (row : Nat × Nat) : CacheView × Nat :=
  let window := weights.windowSize.toNat
  if slides config kv weights row.2 then
    ((f16View kv weights row.1).slide (row.2 + 1 - window) kv.bytesPerRow, window)
  else (f16View kv weights row.1, row.2 + 1)

include hrow in
theorem batchedRead_iff {kernelWindow : Int} (hwidth : 0 < weights.kvWidth)
    (hwindow : kernelWindow = weights.windowSize ∨
      kernelWindow = 0 ∧ ∃ p, slides config kv weights p = true)
    (hslid : slides config kv weights row.2 = true → kernelWindow = 0) :
    (∀ read ∈ (decodeKeys (batchedRead config kv weights row).2 kernelWindow).map
        ((batchedRead config kv weights row).1.read (ringDepth config kv)),
      ReadInSlot kv read) ↔ RowFits config kv weights row := by
  have hbytes : 0 < kernelRowBytes weights .f16Contig := by
    unfold kernelRowBytes
    dsimp only
    omega
  unfold RowFits batchedRead
  by_cases hs : slides config kv weights row.2 = true
  · obtain ⟨-, hpos, -⟩ := slides_iff.mp hs
    rw [if_pos hs, if_pos hs, slides_ring hs, hslid hs]
    apply Iff.trans (viewReads_iff hbytes (slotBase_le hrow row.1 _))
    constructor
    · intro h
      have hlast := h (weights.windowSize.toNat - 1) (mem_span.mpr
        ⟨Nat.zero_le _, by dsimp only; omega⟩)
      have hcount : physRow 0 (weights.windowSize.toNat - 1) + 1 = weights.windowSize.toNat := by
        unfold physRow
        rw [if_neg (Nat.lt_irrefl 0)]
        omega
      rw [hcount] at hlast
      exact hlast
    · intro h t ht
      have hlt : t + 1 ≤ weights.windowSize.toNat := mem_decodeKeys ht
      exact Nat.le_trans (Nat.add_le_add_left (Nat.mul_le_mul_right _ hlt) _) h
  · rw [if_neg hs, if_neg hs]
    apply Iff.trans (viewReads_iff hbytes (slotBase_le hrow row.1 0))
    dsimp only
    rw [decodeKeys_last, live_kernelWindow hwindow hs]
    exact Iff.rfl

/-- The batch runs as an append and an attention over each row's view. -/
theorem batchedSlots_ops (config : ScratchConfig) (kv : KvCache) (weights : AttnWeights)
    (rows : List (Nat × Nat)) (firstRow : Nat) (vNormed : Bool) :
    ∃ append attention kernelWindow,
      batchedSlots config kv weights rows firstRow vNormed =
        (if weights.kvShareSrc.isSome then [] else [append]) ++ [attention] ∧
      (append.accepted = true ↔ rows ≠ []) ∧ append.reads = [] ∧
      append.writes = rows.zipIdx.map (fun r =>
        ⟨firstRow + r.2, r.1.1, r.1.2,
          (f16View kv weights r.1.1).byteOf (ringDepth config kv) r.1.2, weights.kvWidth * 2,
          .f16Contig, vNormed⟩) ∧
      (attention.accepted = true ↔ weights.headsOk = true ∧ rows ≠ [] ∧ rows.length ≤ 32) ∧
      attention.writes = [] ∧
      attention.reads = (rows.flatMap fun row =>
        (decodeKeys (batchedRead config kv weights row).2 kernelWindow).map
          ((batchedRead config kv weights row).1.read (ringDepth config kv))) ∧
      (kernelWindow = weights.windowSize ∨
        kernelWindow = 0 ∧ ∃ p, slides config kv weights p = true) ∧
      ∀ row ∈ rows, slides config kv weights row.2 = true → kernelWindow = 0 := by
  have hidx : rows.zipIdx.isEmpty = false ↔ rows ≠ [] := by
    cases rows with
    | nil => simp
    | cons row rows => simp
  refine ⟨_, _, _, rfl, ?_, rfl, ?_, ?_, rfl, ?_, batch_window rows, ?_⟩
  · unfold kvAppendF16BatchedSlots
    simp only [List.isEmpty_map, Bool.not_eq_true', hidx]
  · unfold kvAppendF16BatchedSlots
    dsimp only
    rw [List.map_map]
    rfl
  · unfold attnDecodeF16Batched
    simp only [List.isEmpty_map, List.length_map, List.length_zipIdx, Bool.and_eq_true,
      Bool.not_eq_true', decide_eq_true_eq, hidx, and_assoc]
  · unfold attnDecodeF16Batched
    dsimp only
    have hfst : ∀ f : Nat × Nat → List KvRead,
        (rows.zipIdx.flatMap fun r => f r.1) = rows.flatMap f := by
      intro f
      rw [← List.flatMap_map Prod.fst f rows.zipIdx, List.zipIdx_map_fst]
    rw [List.map_map, List.flatMap_map, ← hfst]
    congr 1
    funext r
    unfold batchedRead
    dsimp only [Function.comp]
    split <;> rfl
  · intro row hmem hs
    exact if_pos (List.any_eq_true.mpr ⟨row, hmem, hs⟩)

include hrow in
/-- The batched append stores F16 rows, one slot an F16 stride after the other. -/
theorem batchAppend_keeps_iff {op : Launch} {rows : List (Nat × Nat)} (hrows : rows ≠ [])
    (hvalid : ∀ r ∈ rows, r.2 < config.maxSeqLen) (hreads : op.reads = [])
    (hwrites : op.writes = rows.zipIdx.map (fun r =>
      ⟨firstRow + r.2, r.1.1, r.1.2,
        (f16View kv weights r.1.1).byteOf (ringDepth config kv) r.1.2, weights.kvWidth * 2,
        .f16Contig, vNormed⟩)) :
    OpKeeps kv op ↔ kv.layout = .f16Contig ∨ weights.kvWidth = 0 := by
  constructor
  · intro h
    obtain ⟨⟨slot, position⟩, rest, rfl⟩ := List.exists_cons_of_ne_nil hrows
    rcases Nat.eq_zero_or_pos weights.kvWidth with hzero | hpos
    · exact .inr hzero
    · have hfirst := h.1
      rw [hwrites, List.zipIdx_cons, List.map_cons] at hfirst
      have hlayout := (hfirst _ (List.mem_cons_self ..) _ (Nat.le_refl _)
        (Nat.lt_add_of_pos_right (by dsimp only; omega))).2.2
      exact .inl hlayout.symm
  · intro h
    refine ⟨?_, by rw [hreads]; nofun⟩
    rw [hwrites]
    intro write hwrite
    obtain ⟨r, hr, rfl⟩ := List.mem_map.mp hwrite
    rcases h with hlayout | hzero
    · have hbytes := kernelRow_row hrow hlayout
      apply write_inPlace
      · unfold CacheView.byteOf
        rw [(f16View_slot hrow hlayout r.1.1).base_eq,
          physRow_depth (hvalid r.1 (List.fst_mem_of_mem_zipIdx hr))]
        unfold f16View kernelRowBytes
        dsimp only
        rw [hbytes]
      · exact hbytes
      · exact hlayout.symm
    · intro byte hlow hhigh
      dsimp only at hlow hhigh
      rw [hzero] at hhigh
      omega

include hrow in
theorem batchedSlots_keeps_iff {rows : List (Nat × Nat)} (hrows : rows ≠ [])
    (hvalid : ∀ r ∈ rows, r.2 < config.maxSeqLen) (firstRow : Nat) (vNormed : Bool) :
    KeepsSlots kv (batchedSlots config kv weights rows firstRow vNormed) ↔
      (kv.layout = .f16Contig ∨ weights.kvShareSrc.isSome = true ∨ weights.kvWidth = 0) ∧
      (weights.headsOk = true → rows.length ≤ 32 →
        ∀ row ∈ rows, RowFits config kv weights row) := by
  obtain ⟨append, attention, kernelWindow, hops, hok, happendReads, happendWrites, haccepted,
    hwrites, hreads, hwindow, hslid⟩ :=
      batchedSlots_ops config kv weights rows firstRow vNormed
  have happend := batchAppend_keeps_iff hrow hrows hvalid happendReads happendWrites
  have hattention : KeepsSlots kv [attention] ↔ (weights.headsOk = true → rows.length ≤ 32 →
      ∀ row ∈ rows, RowFits config kv weights row) := by
    rw [keepsSlots_cons, haccepted]
    constructor
    · intro h hheads hlength row hmem
      apply (batchedRead_iff hrow (kvWidth_pos hheads) hwindow (hslid row hmem)).mp
      intro read hread
      apply (h ⟨hheads, hrows, hlength⟩).1.2
      rw [hreads]
      exact List.mem_flatMap.mpr ⟨row, hmem, hread⟩
    · intro h hran
      refine ⟨⟨by rw [hwrites]; nofun, ?_⟩, .nil kv⟩
      rw [hreads]
      intro read hread
      obtain ⟨row, hmem, hread⟩ := List.mem_flatMap.mp hread
      exact (batchedRead_iff hrow (kvWidth_pos hran.1) hwindow (hslid row hmem)).mpr
        (h hran.1 hran.2.2 row hmem) read hread
  rw [hops]
  cases hshared : weights.kvShareSrc.isSome with
  | true => simp [hattention]
  | false =>
    rw [if_neg Bool.false_ne_true, List.singleton_append, keepsSlots_cons, happend, hattention]
    simp [hok.mpr hrows]

include hrow in
/-- An F16 row is in its slot's range, with its pointer slid or not. -/
theorem rowFits_f16 (hlayout : kv.layout = .f16Contig) (hdepth : 0 < kv.depth)
    {row : Nat × Nat} (hposition : row.2 < config.maxSeqLen) : RowFits config kv weights row := by
  have hbytes := kernelRow_row hrow hlayout
  have hbase := (f16View_slot hrow hlayout row.1).base_eq
  unfold f16View at hbase
  dsimp only at hbase
  have hinside : ∀ rows, rows ≤ kv.depth →
      row.1 * slotStrideBytes kv weights + rows * kv.bytesPerRow ≤
        (row.1 + 1) * kv.depth * kv.bytesPerRow := by
    intro rows hle
    have hle := Nat.mul_le_mul_right kv.bytesPerRow hle
    rw [hbase, Nat.succ_mul, Nat.add_mul]
    omega
  unfold RowFits
  rw [hbytes]
  dsimp only
  split
  · rename_i hs
    obtain ⟨hfull, -, hlt⟩ := slides_iff.mp hs
    rw [Nat.add_assoc, ← Nat.add_mul]
    exact hinside _ (by omega)
  · intro t ht
    have ht := (mem_span.mp ht).2
    rw [physRow_depth (by omega)]
    exact hinside _ (Nat.mod_lt t hdepth)

/-- A chunk is refused when it is longer than the ring, and only then. -/
theorem inBounds_iff (hpos : 0 < n) (hend : start + n ≤ config.maxSeqLen) :
    KvAppendSpec.inBounds ⟨n, start, kv.depth, ringDepth config kv⟩ = true ↔ n ≤ kv.depth := by
  unfold KvAppendSpec.inBounds ringDepth isRingLayer
  by_cases hring : kv.depth < config.maxSeqLen
  · simp only [hring, decide_true, if_true]
    split
    · simp only [decide_eq_true_eq]
      omega
    · exact decide_eq_true_iff
  · simp only [hring, decide_false, Bool.false_eq_true, if_false, if_true, decide_eq_true_eq]
    omega

include hrow in
/-- The prefill part's append goes to an F16 slab at the chunk's slot. -/
theorem mixedAppend_keeps_iff (hpos : 0 < n) (hend : start + n ≤ config.maxSeqLen)
    (hfits : n ≤ kv.depth) (slot : Nat) (vNormed : Bool) :
    OpKeeps kv (kvAppendF16 (f16View kv weights slot)
        ⟨n, start, kv.depth, ringDepth config kv⟩ vNormed) ↔
      kv.layout = .f16Contig ∨ weights.kvWidth = 0 := by
  have hbounds := (inBounds_iff hpos hend).mpr hfits
  constructor
  · intro h
    rcases Nat.eq_zero_or_pos weights.kvWidth with hzero | hwidth
    · exact .inr hzero
    · have hring : 0 < ringDepth config kv → n ≤ ringDepth config kv := by
        unfold ringDepth
        split <;> omega
      have hmem : (0, physRow (ringDepth config kv) (start + 0)) ∈
          appendRows start n (ringDepth config kv) := by
        rw [appendRows_phys hring]
        exact List.mem_map.mpr ⟨0, List.mem_range.mpr hpos, rfl⟩
      have hlayout := (h.1 _ (List.mem_map_of_mem hmem) _ (Nat.le_refl _)
        (Nat.lt_add_of_pos_right (by unfold f16View kernelRowBytes; dsimp only; omega))).2.2
      exact .inl hlayout.symm
  · intro h
    rcases h with hlayout | hzero
    · exact ⟨rangeAppend_inPlace (f16View_slot hrow hlayout slot)
        (kernelRow_row hrow hlayout) hend hbounds vNormed, nofun⟩
    · refine ⟨?_, nofun⟩
      intro write hwrite byte hlow hhigh
      obtain ⟨r, _, rfl⟩ := List.mem_map.mp hwrite
      unfold f16View kernelRowBytes at hlow hhigh
      dsimp only at hlow hhigh
      rw [hzero] at hlow hhigh
      omega

include hrow in
theorem contiguousMixed_keeps_iff {rows : List (Nat × Nat)} {prefillRows : Nat}
    (hshape : mixedShape weights rows prefillRows = true)
    (hvalid : ∀ r ∈ rows, r.2 < config.maxSeqLen) :
    KeepsSlots kv (contiguousMixed config kv weights rows prefillRows) ↔
      kv.layout = .f16Contig ∨ weights.kvWidth = 0 ∨ kv.depth < prefillRows ∨
        weights.attnVUnitNorm = true ∧ (vUnitNormPerHeadF16 weights).accepted = false := by
  unfold mixedShape at hshape
  simp only [Bool.and_eq_true, decide_eq_true_eq] at hshape
  obtain ⟨⟨⟨hpos, hlt⟩, hchunk⟩, -⟩ := hshape
  obtain ⟨⟨slot, start⟩, rest, rfl⟩ : ∃ row rest, rows = row :: rest := by
    apply List.exists_cons_of_ne_nil
    rintro rfl
    exact absurd hlt (Nat.not_lt_zero _)
  have htake : ((slot, start) :: rest).take prefillRows =
      (slot, start) :: rest.take (prefillRows - 1) := List.take_cons hpos
  have hend : start + prefillRows ≤ config.maxSeqLen := by
    have hcall : (weights.call (((slot, start) :: rest).take prefillRows)).rows.length =
        prefillRows := by
      show (((slot, start) :: rest).take prefillRows).length = prefillRows
      rw [List.length_take]
      omega
    rw [← hcall]
    apply F16Layer.prefillShape_end hchunk htake
    intro r hr
    exact hvalid r (List.mem_of_mem_take hr)
  have hdrop : ((slot, start) :: rest).drop prefillRows ≠ [] := by
    intro hnil
    have hlen := congrArg List.length hnil
    rw [List.length_drop, List.length_nil] at hlen
    omega
  have hdecode := batchedSlots_keeps_iff hrow hdrop
    (fun r hr => hvalid r (List.mem_of_mem_drop hr)) prefillRows weights.attnVUnitNorm
  have hparts : ∀ prefill, prefill = attnPrefill weights (f16View kv weights slot)
        (slotStrideElems kv weights) ⟨prefillRows, start + prefillRows, start⟩
        ⟨weights.windowSize, ringDepth config kv⟩ →
      (KeepsSlots kv (kvAppendF16 (f16View kv weights slot)
          ⟨prefillRows, start, kv.depth, ringDepth config kv⟩ weights.attnVUnitNorm ::
          prefill :: batchedSlots config kv weights (((slot, start) :: rest).drop prefillRows)
            prefillRows weights.attnVUnitNorm) ↔
        kv.layout = .f16Contig ∨ weights.kvWidth = 0 ∨ kv.depth < prefillRows) := by
    intro prefill hprefill
    have haccepted : (kvAppendF16 (f16View kv weights slot)
        ⟨prefillRows, start, kv.depth, ringDepth config kv⟩
        weights.attnVUnitNorm).accepted = true ↔ prefillRows ≤ kv.depth :=
      inBounds_iff hpos hend
    rw [keepsSlots_cons, haccepted]
    rcases Nat.lt_or_ge kv.depth prefillRows with hlong | hfits
    · constructor
      · intro _
        exact .inr (.inr hlong)
      · intro _ hfits
        omega
    · have happend := mixedAppend_keeps_iff hrow hpos hend hfits slot weights.attnVUnitNorm
      constructor
      · intro h
        rcases happend.mp (h hfits).1 with hlayout | hzero
        · exact .inl hlayout
        · exact .inr (.inl hzero)
      · intro h _
        have hcases : kv.layout = .f16Contig ∨ weights.kvWidth = 0 := by
          rcases h with hlayout | hzero | hlong
          · exact .inl hlayout
          · exact .inr hzero
          · omega
        refine ⟨happend.mpr hcases, keepsSlots_cons.mpr ?_⟩
        intro hran
        rw [hprefill] at hran ⊢
        rcases hcases with hlayout | hzero
        · refine ⟨attnPrefill_keeps (f16View_slot hrow hlayout slot)
            (fun _ => kernelRow_row hrow hlayout) _ _ hran, hdecode.mpr ⟨.inl hlayout, ?_⟩⟩
          intro _ _ row hmem
          exact rowFits_f16 hrow hlayout (by omega) (hvalid row (List.mem_of_mem_drop hmem))
        · unfold attnPrefill at hran
          simp only [Bool.and_eq_true] at hran
          have hwidth := kvWidth_pos hran.1.1
          omega
  unfold contiguousMixed
  dsimp only
  cases hnorm : weights.attnVUnitNorm with
  | false =>
    rw [if_neg Bool.false_ne_true, ← hnorm]
    simp only [List.nil_append, List.cons_append]
    rw [hparts _ rfl]
    simp [hnorm]
  | true =>
    rw [if_pos rfl, ← hnorm]
    simp only [List.nil_append, List.cons_append]
    rw [keepsSlots_cons, hparts _ rfl]
    have hquiet : OpKeeps kv (vUnitNormPerHeadF16 weights) := .quiet rfl rfl
    cases (vUnitNormPerHeadF16 weights).accepted <;> simp [hquiet]

include hrow in
theorem contiguousAttn_keeps_iff {rows : List (Nat × Nat)} (hrows : rows ≠ [])
    (hvalid : ∀ r ∈ rows, r.2 < config.maxSeqLen) :
    KeepsSlots kv (contiguousAttn config kv weights rows) ↔
      ((weights.call rows).prefillShape = false → 1 < config.nSlots →
        (kv.layout = .f16Contig ∨ weights.kvShareSrc.isSome = true ∨ weights.kvWidth = 0) ∧
        (weights.headsOk = true → rows.length ≤ 32 →
          ∀ row ∈ rows, RowFits config kv weights row)) := by
  have hslots := batchedSlots_keeps_iff hrow hrows hvalid 0 false
  obtain ⟨⟨slot, start⟩, rest, rfl⟩ := List.exists_cons_of_ne_nil hrows
  unfold contiguousAttn
  dsimp only
  cases hshape : (weights.call ((slot, start) :: rest)).prefillShape with
  | true =>
    have hend : start + ((slot, start) :: rest).length ≤ config.maxSeqLen :=
      F16Layer.prefillShape_end hshape rfl hvalid
    rw [if_pos rfl]
    constructor
    · intro _ hfalse
      cases hfalse
    · intro _
      exact singleSlot_keeps hrow slot hend
  | false =>
    rw [if_neg Bool.false_ne_true]
    by_cases hone : config.nSlots ≤ 1
    · rw [if_pos hone]
      constructor
      · intro _ _ hmany
        omega
      · intro _
        exact keepsSlots_bail kv
    · rw [if_neg hone, hslots]
      constructor
      · intro h _ _
        exact h
      · intro h
        exact h rfl (by omega)

end Layer

theorem admits_spec {config : ScratchConfig} {kv : KvCache} {weights : AttnWeights}
    {rows : List (Nat × Nat)} (h : admits config kv weights rows = true) :
    rows ≠ [] ∧ (∀ r ∈ rows, r.2 < config.maxSeqLen) ∧ kv.kvWidth = weights.kvWidth := by
  unfold admits at h
  simp only [Bool.and_eq_true, Bool.not_eq_true', beq_iff_eq, List.all_eq_true,
    decide_eq_true_eq] at h
  refine ⟨?_, ?_, h.2⟩
  · rintro rfl
    exact absurd h.1.1.1.1.1 (by decide)
  · intro r hr
    exact (h.1.1.1.1.2 r hr).1

section Calls

variable {pool : ScratchPool} {kv : KvCache} {weights : AttnWeights} {rows : List (Nat × Nat)}
  (hnew : ScratchPool.new config = some pool)

include hnew in
theorem standard_keeps_iff
    (hkv : (AttnOp.standard rows).cache ⟨pool, offset⟩ weights layerIdx = some kv) :
    KeepsSlots kv (CoreState.standardAttnLocal ⟨pool, offset⟩ weights layerIdx rows) ↔
      StaysInLayout config kv weights (.standard rows) := by
  obtain ⟨hconfig, -⟩ := new_parts hnew
  unfold AttnOp.cache at hkv
  dsimp only at hkv
  obtain ⟨li, -, hli⟩ := Option.bind_eq_some_iff.mp hkv
  have hbytes := new_bytesPerRow hnew hli
  unfold CoreState.standardAttnLocal StaysInLayout reachesSlots
  rw [hkv, hconfig]
  dsimp only
  cases hadmits : admits config kv weights rows with
  | false => simp [keepsSlots_bail]
  | true =>
    obtain ⟨hrows, hvalid, hwidth⟩ := admits_spec hadmits
    rw [hwidth] at hbytes
    cases hpaged : config.pagedKv with
    | some => simp [KeepsSlots.nil]
    | none =>
      simp [contiguousAttn_keeps_iff hbytes hrows hvalid]

include hnew in
theorem mixed_keeps_iff
    (hkv : (AttnOp.mixed rows prefillRows).cache ⟨pool, offset⟩ weights layerIdx = some kv) :
    KeepsSlots kv (CoreState.standardAttnMixedLocal ⟨pool, offset⟩ weights layerIdx rows
        prefillRows) ↔
      StaysInLayout config kv weights (.mixed rows prefillRows) := by
  obtain ⟨hconfig, -⟩ := new_parts hnew
  unfold AttnOp.cache at hkv
  dsimp only at hkv
  obtain ⟨li, -, hli⟩ := Option.bind_eq_some_iff.mp hkv
  have hbytes := new_bytesPerRow hnew hli
  unfold CoreState.standardAttnMixedLocal StaysInLayout
  rw [hkv, hconfig]
  dsimp only
  have hchecks : (mixedShape weights rows prefillRows && config.pagedKv.isNone &&
      weights.kvShareSrc.isNone && admits config kv weights rows &&
      decide (1 < config.nSlots)) = true ↔ reachesMixed config kv weights rows prefillRows := by
    simp [reachesMixed, Option.isNone_iff_eq_none, and_assoc]
  by_cases hreach : reachesMixed config kv weights rows prefillRows
  · obtain ⟨-, hvalid, hwidth⟩ := admits_spec hreach.2.2.2.1
    rw [hwidth] at hbytes
    rw [hchecks.mpr hreach, Bool.not_true, if_neg Bool.false_ne_true,
      contiguousMixed_keeps_iff hbytes hreach.1 hvalid]
    exact ⟨fun h _ => h, fun h => h hreach⟩
  · rw [Bool.eq_false_iff.mpr (fun h => hreach (hchecks.mp h)), Bool.not_false, if_pos rfl]
    exact ⟨fun _ h => absurd h hreach, fun _ => keepsSlots_bail kv⟩

/-- Every byte a call writes is in the row of its slot and position, and every byte it
reads in its slot's range, exactly when the call keeps to the layer's layout. -/
theorem slots_apart_iff (hnew : ScratchPool.new config = some pool) (op : AttnOp)
    (hkv : op.cache ⟨pool, offset⟩ weights layerIdx = some kv) :
    KeepsSlots kv (op.launches ⟨pool, offset⟩ weights layerIdx) ∧
        LeavesOthers kv (op.launches ⟨pool, offset⟩ weights layerIdx) ↔
      StaysInLayout config kv weights op := by
  have hiff : KeepsSlots kv (op.launches ⟨pool, offset⟩ weights layerIdx) ↔
      StaysInLayout config kv weights op := by
    cases op with
    | standard rows => exact standard_keeps_iff hnew hkv
    | mixed rows prefillRows => exact mixed_keeps_iff hnew hkv
  rw [← hiff]
  exact ⟨And.left, fun h => ⟨h, h.leavesOthers⟩⟩

end Calls

/-- Three slots of four rows, one head of 64. -/
def threeSlots (layout : KvLayout) : ScratchConfig where
  hidden := 64
  intermediate := 64
  qWidth := 64
  kvWidth := 64
  vocab := 8
  maxSeqLen := 4
  numLayers := 1
  maxExperts := 0
  maxExpertsPerTok := 0
  gdn := none
  perLayerKvWidths := none
  attnQGated := false
  sharedIntermediate := 0
  maxPrefillTokens := 4
  maxSlots := 3
  perLayerEmbd := 0
  pagedKv := none
  kvLayout := layout
  perLayerKvLayouts := none
  perLayerKvDepths := none

def threeSlotCache (layout : KvLayout) : KvCache :=
  ⟨3 * 4 * layout.bytesPerRow 64, 64, layout.bytesPerRow 64, layout, 4⟩

def threeSlotPool (layout : KvLayout) : ScratchPool :=
  ⟨threeSlots layout, [threeSlotCache layout], []⟩

def oneHead : AttnWeights := ⟨1, 1, 64, 0, false, none⟩

theorem plain_slots_apart :
    KeepsSlots (threeSlotCache .f16Contig)
        ((AttnOp.standard [(0, 1), (2, 3)]).launches ⟨threeSlotPool .f16Contig, 0⟩ oneHead 0) ∧
      LeavesOthers (threeSlotCache .f16Contig)
        ((AttnOp.standard [(0, 1), (2, 3)]).launches ⟨threeSlotPool .f16Contig, 0⟩ oneHead 0) := by
  have hnew : ScratchPool.new (threeSlots .f16Contig) = some (threeSlotPool .f16Contig) := rfl
  apply (slots_apart_iff hnew (.standard [(0, 1), (2, 3)]) rfl).mpr
  intro hreach
  refine ⟨.inl rfl, ?_⟩
  intro _ _ row hmem
  exact rowFits_f16 rfl rfl (by decide) ((admits_spec hreach.1).2.1 row hmem)

/-- On a Q8 layer the row of slot 1 is stored as F16 across the range of slot 2. -/
theorem quantised_slots_overlap :
    ScratchPool.new (threeSlots .q8Contig) = some (threeSlotPool .q8Contig) ∧
    (AttnOp.standard [(0, 0), (1, 0)]).cache ⟨threeSlotPool .q8Contig, 0⟩ oneHead 0 =
      some (threeSlotCache .q8Contig) ∧
    ¬KeepsSlots (threeSlotCache .q8Contig)
      ((AttnOp.standard [(0, 0), (1, 0)]).launches ⟨threeSlotPool .q8Contig, 0⟩ oneHead 0) ∧
    ¬LeavesOthers (threeSlotCache .q8Contig)
      ((AttnOp.standard [(0, 0), (1, 0)]).launches ⟨threeSlotPool .q8Contig, 0⟩ oneHead 0) := by
  have hother : ¬LeavesOthers (threeSlotCache .q8Contig)
      ((AttnOp.standard [(0, 0), (1, 0)]).launches ⟨threeSlotPool .q8Contig, 0⟩ oneHead 0) := by
    intro h
    have hslot := (h _ (List.mem_cons_self ..) 2 544 ⟨by decide, by decide⟩).1 _
      (List.mem_cons_of_mem _ (List.mem_cons_self ..)) (by decide) (by decide)
    exact absurd hslot (by decide)
  exact ⟨rfl, rfl, fun h => hother h.leavesOthers, hother⟩

end Flambeau.Forward.Attn
