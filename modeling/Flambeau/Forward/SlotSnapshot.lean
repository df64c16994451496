import Flambeau.Forward.Scratch
import Flambeau.Systems.Lanes

namespace Flambeau.Forward
open Systems

/-- A device allocation of a rank, by local layer. -/
inductive Buffer where
  | k (li : Nat)
  | v (li : Nat)
  | state (li : Nat)
  | convHistory (li : Nat)
deriving DecidableEq

abbrev DeviceMemory := Memory Buffer UInt8

/-- Why a snapshot is not taken or not restored. -/
inductive SlotError where
  | paged
  | snapshotSlot (slotId nSlots : Nat)
  /-- The assertion on `off`. -/
  | coverage
  | restoreSlot (slotId nSlots : Nat)
  | truncated (len : Nat)
  | header (magic version : Nat)
  | tokens (snapTokens nTokens : Nat)
  | length (len expected : Nat)
  | rankMissing (count rank : Nat)
  | rankCount (count ranks : Nat)
deriving DecidableEq

def SlotError.message : SlotError → String
  | paged => "slot snapshot: paged KV is unsupported"
  | snapshotSlot slotId nSlots => s!"snapshot_slot_bytes: slot_id {slotId} >= max_slots {nSlots}"
  | coverage => "snapshot coverage: every byte must be written"
  | restoreSlot slotId nSlots => s!"restore_slot_bytes: slot_id {slotId} >= max_slots {nSlots}"
  | truncated len => s!"restore_slot_bytes: truncated snapshot ({len} bytes)"
  | header magic version =>
    let digits := String.ofList (Nat.toDigits 16 magic)
    s!"restore_slot_bytes: bad header (magic 0x{digits} version {version})"
  | tokens snapTokens nTokens =>
    s!"restore_slot_bytes: snapshot holds {snapTokens} tokens, caller asked {nTokens}"
  | length len expected =>
    s!"restore_slot_bytes: snapshot is {len} bytes, this pool expects {expected} " ++
      "(model/topology/layout mismatch)"
  | rankMissing count rank =>
    s!"RestoreKvSlot: snapshot has {count} rank buffers, rank {rank} missing"
  | rankCount count ranks =>
    s!"restore_kv_slot: snapshot has {count} rank buffers, runtime has {ranks} ranks"

namespace GdnDims

def stateBytesPerSlot (g : GdnDims) : Nat := g.numVHeads * g.headKDim * g.headVDim * 4

def histBytesPerSlot (g : GdnDims) : Nat := (g.convKernel - 1) * g.convChannels * 4

end GdnDims

/-- "KVS1". -/
def snapshotMagic : Nat := 0x4B565331

/-- A layer that owns no cache, as one that shares another's. -/
def KvCache.empty (kv : KvCache) : Bool := kv.kvWidth == 0 || kv.bytesPerRow == 0

namespace ScratchPool

variable (pool : ScratchPool)

/-- `gdn_state.len()`: an entry for every layer, none without GDN. -/
def gdnLayers : Nat := if pool.config.gdn.isSome then pool.config.numLayers else 0

def slotSnapshotPayloadBytes (nTokens : Nat) : Except SlotError Nat :=
  if pool.pagePools.isEmpty then
    let total := pool.kvCaches.foldl (fun total kv =>
      if kv.empty then total else total + 2 * min nTokens kv.depth * kv.bytesPerRow) 0
    .ok (match pool.config.gdn with
      | some g =>
        if pool.gdnLayers = 0 then total
        else total + pool.gdnLayers * (g.stateBytesPerSlot + g.histBytesPerSlot)
      | none => total)
  else .error .paged

section Snapshot

variable (m : DeviceMemory) (slotId nTokens : Nat)

/-- A layer's K then V live rows. A ring layer addresses modulo `depth`, so that only
`depth` rows are live. -/
def snapshotKv (walk : Nat × List UInt8) (layer : KvCache × Nat) : Nat × List UInt8 :=
  if layer.1.empty then walk
  else
    let slotBase := slotId * layer.1.depth * layer.1.bytesPerRow
    let len := min nTokens layer.1.depth * layer.1.bytesPerRow
    m.copyOut (.v layer.2) slotBase len (m.copyOut (.k layer.2) slotBase len walk)

def snapshotGdn (g : GdnDims) (walk : Nat × List UInt8) (li : Nat) : Nat × List UInt8 :=
  let state := g.stateBytesPerSlot
  let hist := g.histBytesPerSlot
  m.copyOut (.convHistory li) (slotId * hist) hist (m.copyOut (.state li) (slotId * state) state walk)

/-- The loops over `kv_caches` and `gdn_state`. -/
def snapshotLayers (walk : Nat × List UInt8) : Nat × List UInt8 :=
  let walk := pool.kvCaches.zipIdx.foldl (snapshotKv m slotId nTokens) walk
  match pool.config.gdn with
  | some g => (List.range pool.gdnLayers).foldl (snapshotGdn m slotId g) walk
  | none => walk

end Snapshot

/-- One slot's resident state: a header of 16 bytes, then the sections. -/
def snapshotSlotBytes (m : DeviceMemory) (slotId : Nat) (nTokens : UInt64) :
    Except SlotError (List UInt8) :=
  if pool.config.nSlots ≤ slotId then .error (.snapshotSlot slotId pool.config.nSlots)
  else
    match pool.slotSnapshotPayloadBytes nTokens.toNat with
    | .error e => .error e
    | .ok payload =>
      let buf := List.replicate (16 + payload) 0
      let buf := splice buf 0 (toLeBytes 4 snapshotMagic)
      let buf := splice buf 4 (toLeBytes 4 1)
      let buf := splice buf 8 (toLeBytes 8 nTokens.toNat)
      let walk := pool.snapshotLayers m slotId nTokens.toNat (16, buf)
      if walk.1 = walk.2.length then .ok walk.2 else .error .coverage

section Restore

variable (bytes : List UInt8) (slotId nTokens : Nat)

def restoreKv (walk : Nat × DeviceMemory) (layer : KvCache × Nat) : Nat × DeviceMemory :=
  if layer.1.empty then walk
  else
    let slotBase := slotId * layer.1.depth * layer.1.bytesPerRow
    let len := min nTokens layer.1.depth * layer.1.bytesPerRow
    Memory.copyIn bytes (.v layer.2) slotBase len (Memory.copyIn bytes (.k layer.2) slotBase len walk)

def restoreGdn (g : GdnDims) (walk : Nat × DeviceMemory) (li : Nat) : Nat × DeviceMemory :=
  let state := g.stateBytesPerSlot
  let hist := g.histBytesPerSlot
  Memory.copyIn bytes (.convHistory li) (slotId * hist) hist
    (Memory.copyIn bytes (.state li) (slotId * state) state walk)

def restoreLayers (walk : Nat × DeviceMemory) : Nat × DeviceMemory :=
  let walk := pool.kvCaches.zipIdx.foldl (restoreKv bytes slotId nTokens) walk
  match pool.config.gdn with
  | some g => (List.range pool.gdnLayers).foldl (restoreGdn bytes slotId g) walk
  | none => walk

end Restore

/-- The result and the memory it leaves. -/
def restoreSlotBytes (m : DeviceMemory) (slotId : Nat) (nTokens : UInt64) (bytes : List UInt8) :
    Except SlotError Unit × DeviceMemory :=
  if pool.config.nSlots ≤ slotId then (.error (.restoreSlot slotId pool.config.nSlots), m)
  else if bytes.length < 16 then (.error (.truncated bytes.length), m)
  else
    let magic := fromLeBytes (bytes.take 4)
    let version := fromLeBytes ((bytes.drop 4).take 4)
    let snapTokens := fromLeBytes ((bytes.drop 8).take 8)
    if magic ≠ snapshotMagic ∨ version ≠ 1 then (.error (.header magic version), m)
    else if snapTokens ≠ nTokens.toNat then (.error (.tokens snapTokens nTokens.toNat), m)
    else
      match pool.slotSnapshotPayloadBytes nTokens.toNat with
      | .error e => (.error e, m)
      | .ok payload =>
        if bytes.length ≠ 16 + payload then (.error (.length bytes.length (16 + payload)), m)
        else (.ok (), (pool.restoreLayers bytes slotId nTokens.toNat (16, m)).2)

end ScratchPool

/-- A worker's pool, with what its allocations hold. -/
structure Rank where
  config : ScratchConfig
  pool : ScratchPool
  made : ScratchPool.new config = some pool
  memory : DeviceMemory

/-- The first error that a rank replies with. -/
def firstError (replies : List (Except SlotError Unit)) : Except SlotError Unit :=
  replies.foldr (fun reply rest => match reply with
    | .error e => .error e
    | .ok () => rest) (.ok ())

namespace Session

/-- `Session::snapshot_kv_slot`: one buffer a rank, in rank order. -/
def snapshotKvSlot (ranks : List Rank) (slotId : Nat) (nTokens : UInt64) :
    Except SlotError (List (List UInt8)) :=
  ranks.mapM fun rank => rank.pool.snapshotSlotBytes rank.memory slotId nTokens

/-- A worker's `RestoreKvSlot`. -/
def restoreRank (slotId : Nat) (nTokens : UInt64) (snaps : List (List UInt8)) (rank : Rank × Nat) :
    Except SlotError Unit × Rank :=
  match snaps[rank.2]? with
  | none => (.error (.rankMissing snaps.length rank.2), rank.1)
  | some bytes =>
    let out := rank.1.pool.restoreSlotBytes rank.1.memory slotId nTokens bytes
    (out.1, { rank.1 with memory := out.2 })

/-- `Session::restore_kv_slot`: the command goes to every rank, also where one of them
replies with an error. -/
def restoreKvSlot (ranks : List Rank) (slotId : Nat) (nTokens : UInt64)
    (snaps : List (List UInt8)) : Except SlotError Unit × List Rank :=
  if snaps.length ≠ ranks.length then (.error (.rankCount snaps.length ranks.length), ranks)
  else
    let outs := ranks.zipIdx.map (restoreRank slotId nTokens snaps)
    (firstError (outs.map Prod.fst), outs.map Prod.snd)

end Session
end Flambeau.Forward
