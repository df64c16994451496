import Mathlib.Data.List.Nodup
import Flambeau.Forward.SlotSnapshot

namespace Flambeau.Forward
open Systems

def Buffer.layer : Buffer → Nat
  | k li | v li | state li | convHistory li => li

/-- Lists of elements that name the one they come from share none. -/
theorem flatMap_nodup {f : α → List β} (key : α → Nat) (tag : β → Nat) {xs : List α}
    (hkeys : (xs.map key).Nodup) (hone : ∀ x ∈ xs, (f x).Nodup)
    (htag : ∀ x ∈ xs, ∀ y ∈ f x, tag y = key x) : (xs.flatMap f).Nodup := by
  rw [List.nodup_flatMap]
  refine ⟨hone, ?_⟩
  rw [List.nodup_iff_pairwise_ne, List.pairwise_map] at hkeys
  refine hkeys.imp_of_mem ?_
  intro a b ha hb hne y hya hyb
  exact hne ((htag a ha y hya).symm.trans (htag b hb y hyb))

/-- Where the K and V of a slot's position are. -/
def KvCache.rowByte (kv : KvCache) (slot position : Nat) : Nat :=
  slot * kv.depth * kv.bytesPerRow + position % kv.depth * kv.bytesPerRow

namespace ScratchPool

variable (pool : ScratchPool) (nTokens : Nat)

/-- A layer's slabs cut into slots, and the rows of one that `nTokens` positions fill. -/
def kvLanes (layer : KvCache × Nat) : List (Lane Buffer) :=
  if layer.1.empty then []
  else
    [⟨.k layer.2, layer.1.depth * layer.1.bytesPerRow, min nTokens layer.1.depth * layer.1.bytesPerRow,
      Nat.mul_le_mul_right _ (Nat.min_le_right ..)⟩,
    ⟨.v layer.2, layer.1.depth * layer.1.bytesPerRow, min nTokens layer.1.depth * layer.1.bytesPerRow,
      Nat.mul_le_mul_right _ (Nat.min_le_right ..)⟩]

def gdnLanes (g : GdnDims) (li : Nat) : List (Lane Buffer) :=
  [⟨.state li, g.stateBytesPerSlot, g.stateBytesPerSlot, Nat.le_refl _⟩,
  ⟨.convHistory li, g.histBytesPerSlot, g.histBytesPerSlot, Nat.le_refl _⟩]

/-- The sections of a snapshot, in order. -/
def lanes : List (Lane Buffer) :=
  pool.kvCaches.zipIdx.flatMap (kvLanes nTokens) ++
    match pool.config.gdn with
    | some g => (List.range pool.gdnLayers).flatMap (gdnLanes g)
    | none => []

/-- How far apart the slots of an allocation are. -/
def stride : Buffer → Nat
  | .k li | .v li => ((pool.kvCaches[li]?).map fun kv => kv.depth * kv.bytesPerRow).getD 0
  | .state _ => (pool.config.gdn.map GdnDims.stateBytesPerSlot).getD 0
  | .convHistory _ => (pool.config.gdn.map GdnDims.histBytesPerSlot).getD 0

/-- The byte belongs to the slot. -/
def Owns (slot : Nat) (buffer : Buffer) (i : Nat) : Prop :=
  slot * pool.stride buffer ≤ i ∧ i < (slot + 1) * pool.stride buffer

variable {pool nTokens}

theorem lane_stride {lane : Lane Buffer} (h : lane ∈ pool.lanes nTokens) :
    lane.stride = pool.stride lane.buffer := by
  unfold lanes at h
  rcases List.mem_append.mp h with hkv | hgdn
  · obtain ⟨⟨kv, li⟩, hlayer, hlane⟩ := List.mem_flatMap.mp hkv
    have hget : pool.kvCaches[li]? = some kv := List.mem_zipIdx_iff_getElem?.mp hlayer
    unfold kvLanes at hlane
    dsimp only at hlane
    split at hlane
    · cases hlane
    · simp only [List.mem_cons, List.not_mem_nil, or_false] at hlane
      rcases hlane with rfl | rfl <;> simp [stride, hget]
  · cases hg : pool.config.gdn with
    | none => simp [hg] at hgdn
    | some g =>
      simp only [hg] at hgdn
      obtain ⟨li, -, hlane⟩ := List.mem_flatMap.mp hgdn
      unfold gdnLanes at hlane
      simp only [List.mem_cons, List.not_mem_nil, or_false] at hlane
      rcases hlane with rfl | rfl <;> simp [stride, hg]

theorem owns_lane {lane : Lane Buffer} {slot i : Nat} (h : lane ∈ pool.lanes nTokens) :
    lane.Owns slot i ↔ pool.Owns slot lane.buffer i := by
  unfold Lane.Owns Owns
  rw [lane_stride h]

theorem kvLanes_buffer {layer : KvCache × Nat} {buffer : Buffer}
    (h : buffer ∈ (kvLanes nTokens layer).map Lane.buffer) : buffer = .k layer.2 ∨ buffer = .v layer.2 := by
  unfold kvLanes at h
  split at h
  · cases h
  · simpa using h

/-- No allocation has two sections. -/
theorem buffers_nodup : ((pool.lanes nTokens).map Lane.buffer).Nodup := by
  unfold lanes
  rw [List.map_append, List.nodup_append']
  have hkv : ((pool.kvCaches.zipIdx.flatMap (kvLanes nTokens)).map Lane.buffer).Nodup := by
    rw [List.map_flatMap]
    refine flatMap_nodup Prod.snd Buffer.layer ?_ ?_ ?_
    · rw [List.zipIdx_map_snd]
      exact List.nodup_range'
    · intro layer _
      unfold kvLanes
      split
      · exact List.nodup_nil
      · simp
    · intro layer _ buffer hbuffer
      rcases kvLanes_buffer hbuffer with rfl | rfl <;> rfl
  refine ⟨hkv, ?_, ?_⟩
  · cases pool.config.gdn with
    | none => exact List.nodup_nil
    | some g =>
      dsimp only
      rw [List.map_flatMap]
      refine flatMap_nodup id Buffer.layer ?_ ?_ ?_
      · rw [List.map_id]
        exact List.nodup_range
      · intro li _
        simp [gdnLanes]
      · intro li _ buffer hbuffer
        simp only [gdnLanes, List.map_cons, List.map_nil, List.mem_cons, List.not_mem_nil, or_false]
          at hbuffer
        rcases hbuffer with rfl | rfl <;> rfl
  · intro buffer hbuffer hgdn
    rw [List.map_flatMap] at hbuffer
    obtain ⟨layer, -, hlayer⟩ := List.mem_flatMap.mp hbuffer
    cases hg : pool.config.gdn with
    | none => simp [hg] at hgdn
    | some g =>
      simp only [hg, List.map_flatMap, List.mem_flatMap] at hgdn
      obtain ⟨li, -, hli⟩ := hgdn
      simp only [gdnLanes, List.map_cons, List.map_nil, List.mem_cons, List.not_mem_nil, or_false] at hli
      rcases kvLanes_buffer hlayer with rfl | rfl <;> rcases hli with hli | hli <;> cases hli

theorem kv_payload (caches : List KvCache) : ∀ total start : Nat,
    caches.foldl (fun total kv =>
        if kv.empty then total else total + 2 * min nTokens kv.depth * kv.bytesPerRow) total =
      total + Lane.total ((caches.zipIdx start).flatMap (kvLanes nTokens)) := by
  induction caches with
  | nil => intro total start; rfl
  | cons kv caches ih =>
    intro total start
    rw [List.foldl_cons, ih _ (start + 1), List.zipIdx_cons, List.flatMap_cons, Lane.total_append]
    unfold kvLanes
    dsimp only
    split
    · simp [Lane.total]
    · simp only [Lane.total, List.map_cons, List.map_nil, List.sum_cons, List.sum_nil]
      rw [Nat.mul_assoc, Nat.two_mul]
      simp only [Nat.add_assoc, Nat.zero_add]

theorem gdn_payload (g : GdnDims) (layers : Nat) :
    Lane.total ((List.range layers).flatMap (gdnLanes g)) =
      layers * (g.stateBytesPerSlot + g.histBytesPerSlot) := by
  induction layers with
  | zero => rw [Nat.zero_mul]; rfl
  | succ n ih =>
    rw [List.range_succ, List.flatMap_append, Lane.total_append, ih, Nat.succ_mul]
    simp [gdnLanes, Lane.total]

/-- The payload is the sections' length. -/
theorem payload_total (h : pool.pagePools = []) :
    pool.slotSnapshotPayloadBytes nTokens = .ok (Lane.total (pool.lanes nTokens)) := by
  unfold slotSnapshotPayloadBytes lanes
  rw [h, Lane.total_append]
  simp only [List.isEmpty_nil, if_true, kv_payload _ 0 0, Nat.zero_add, Except.ok.injEq]
  cases pool.config.gdn with
  | none => rfl
  | some g =>
    dsimp only
    rw [gdn_payload]
    split
    · rename_i hzero
      rw [hzero, Nat.zero_mul, Nat.add_zero]
    · rfl

section Walks

variable (m : DeviceMemory) (slot : Nat)

theorem snapshotKv_lanes (walk : Nat × List UInt8) (layer : KvCache × Nat) :
    snapshotKv m slot nTokens walk layer =
      (kvLanes nTokens layer).foldl (fun walk lane =>
        m.copyOut lane.buffer (slot * lane.stride) lane.live walk) walk := by
  unfold snapshotKv kvLanes
  split
  · rfl
  · simp only [List.foldl_cons, List.foldl_nil, Nat.mul_assoc]

theorem restoreKv_lanes (bytes : List UInt8) (walk : Nat × DeviceMemory) (layer : KvCache × Nat) :
    restoreKv bytes slot nTokens walk layer =
      (kvLanes nTokens layer).foldl (fun walk lane =>
        Memory.copyIn bytes lane.buffer (slot * lane.stride) lane.live walk) walk := by
  unfold restoreKv kvLanes
  split
  · rfl
  · simp only [List.foldl_cons, List.foldl_nil, Nat.mul_assoc]

/-- The encoder's loops walk the sections. -/
theorem snapshotLayers_lanes (walk : Nat × List UInt8) :
    pool.snapshotLayers m slot nTokens walk =
      (pool.lanes nTokens).foldl (fun walk lane =>
        m.copyOut lane.buffer (slot * lane.stride) lane.live walk) walk := by
  have hkv : snapshotKv m slot nTokens = fun walk layer =>
      (kvLanes nTokens layer).foldl (fun walk lane =>
        m.copyOut lane.buffer (slot * lane.stride) lane.live walk) walk := by
    funext walk layer
    exact snapshotKv_lanes m slot walk layer
  unfold snapshotLayers lanes
  rw [List.foldl_append, List.foldl_flatMap, hkv]
  cases pool.config.gdn with
  | none => rfl
  | some g =>
    dsimp only
    rw [List.foldl_flatMap]
    rfl

/-- So do the decoder's. -/
theorem restoreLayers_lanes (bytes : List UInt8) (walk : Nat × DeviceMemory) :
    pool.restoreLayers bytes slot nTokens walk =
      (pool.lanes nTokens).foldl (fun walk lane =>
        Memory.copyIn bytes lane.buffer (slot * lane.stride) lane.live walk) walk := by
  have hkv : restoreKv bytes slot nTokens = fun walk layer =>
      (kvLanes nTokens layer).foldl (fun walk lane =>
        Memory.copyIn bytes lane.buffer (slot * lane.stride) lane.live walk) walk := by
    funext walk layer
    exact restoreKv_lanes slot bytes walk layer
  unfold restoreLayers lanes
  rw [List.foldl_append, List.foldl_flatMap, hkv]
  cases pool.config.gdn with
  | none => rfl
  | some g =>
    dsimp only
    rw [List.foldl_flatMap]
    rfl

end Walks

/-- Magic, version and token count. -/
def header (nTokens : UInt64) : List UInt8 :=
  toLeBytes 4 snapshotMagic ++ toLeBytes 4 1 ++ toLeBytes 8 nTokens.toNat

theorem header_length (nTokens : UInt64) : (header nTokens).length = 16 := by simp [header]

theorem header_splice (nTokens : UInt64) (payload : Nat) :
    splice (splice (splice (List.replicate (16 + payload) 0) 0 (toLeBytes 4 snapshotMagic)) 4
      (toLeBytes 4 1)) 8 (toLeBytes 8 nTokens.toNat) =
      header nTokens ++ List.replicate payload 0 := by
  have hmagic := splice_at [] (toLeBytes 4 snapshotMagic) (List.replicate (16 + payload) (0 : UInt8))
  have hversion := splice_at (toLeBytes 4 snapshotMagic) (toLeBytes 4 1)
    (List.replicate (12 + payload) (0 : UInt8))
  have htokens := splice_at (toLeBytes 4 snapshotMagic ++ toLeBytes 4 1) (toLeBytes 8 nTokens.toNat)
    (List.replicate (8 + payload) (0 : UInt8))
  simp only [toLeBytes_length, List.length_append, List.length_nil, List.nil_append,
    List.drop_replicate] at hmagic hversion htokens
  have hfirst : 16 + payload - 4 = 12 + payload := by omega
  have hsecond : 12 + payload - 4 = 8 + payload := by omega
  have hthird : 8 + payload - 8 = payload := by omega
  rw [hmagic, hfirst, hversion, hsecond, htokens, hthird]
  rfl

theorem header_fields (nTokens : UInt64) (rest : List UInt8) :
    fromLeBytes ((header nTokens ++ rest).take 4) = snapshotMagic ∧
      fromLeBytes (((header nTokens ++ rest).drop 4).take 4) = 1 ∧
      fromLeBytes (((header nTokens ++ rest).drop 8).take 8) = nTokens.toNat := by
  have hmagic : (toLeBytes 4 snapshotMagic).length = 4 := toLeBytes_length ..
  have hversion : (toLeBytes 4 1).length = 4 := toLeBytes_length ..
  have htokens : (toLeBytes 8 nTokens.toNat).length = 8 := toLeBytes_length ..
  unfold header
  refine ⟨?_, ?_, ?_⟩
  · rw [List.append_assoc, List.append_assoc, List.take_left' hmagic]
    exact fromLeBytes_toLeBytes (by decide)
  · rw [List.append_assoc, List.append_assoc, List.drop_left' hmagic, List.take_left' hversion]
    exact fromLeBytes_toLeBytes (by decide)
  · rw [List.append_assoc, List.drop_left' (by rw [List.length_append, hmagic, hversion]),
      List.take_left' htokens]
    exact fromLeBytes_toLeBytes nTokens.toNat_lt

theorem snapshot_eq (hpaged : pool.pagePools = []) (m : DeviceMemory) {slot : Nat} (nTokens : UInt64)
    (hslot : slot < pool.config.nSlots) :
    pool.snapshotSlotBytes m slot nTokens =
      .ok (header nTokens ++ Lane.collect m (pool.lanes nTokens.toNat) slot) := by
  have hwalk := Lane.copyOut_walk m (pool.lanes nTokens.toNat) slot (header nTokens)
    (List.replicate (Lane.total (pool.lanes nTokens.toNat)) 0)
  rw [header_length] at hwalk
  unfold snapshotSlotBytes
  rw [if_neg (Nat.not_le.mpr hslot), payload_total hpaged]
  dsimp only
  rw [header_splice, snapshotLayers_lanes, hwalk]
  simp [header_length]

theorem restore_eq (hpaged : pool.pagePools = []) (m : DeviceMemory) {slot : Nat} (nTokens : UInt64)
    (hslot : slot < pool.config.nSlots) {rest : List UInt8}
    (hrest : rest.length = Lane.total (pool.lanes nTokens.toNat)) :
    pool.restoreSlotBytes m slot nTokens (header nTokens ++ rest) =
      (.ok (), Lane.spread (pool.lanes nTokens.toNat) slot m rest) := by
  obtain ⟨hmagic, hversion, htokens⟩ := header_fields nTokens rest
  have hlen : (header nTokens ++ rest).length = 16 + Lane.total (pool.lanes nTokens.toNat) := by
    rw [List.length_append, header_length, hrest]
  have hwalk := Lane.copyIn_walk (header nTokens ++ rest) (pool.lanes nTokens.toNat) slot 16 m
  rw [List.drop_left' (header_length nTokens)] at hwalk
  unfold restoreSlotBytes
  rw [if_neg (Nat.not_le.mpr hslot), if_neg (by omega)]
  dsimp only
  rw [if_neg (by simp [hmagic, hversion]), if_neg (by simp [htokens]), payload_total hpaged]
  dsimp only
  rw [if_neg (by simp [hlen]), restoreLayers_lanes, hwalk]

/-- The bytes are a snapshot of `nTokens` tokens by a pool of this shape. -/
structure Fits (pool : ScratchPool) (nTokens : UInt64) (bytes : List UInt8) : Prop where
  long : 16 ≤ bytes.length
  magic : fromLeBytes (bytes.take 4) = snapshotMagic
  version : fromLeBytes ((bytes.drop 4).take 4) = 1
  tokens : fromLeBytes ((bytes.drop 8).take 8) = nTokens.toNat
  payload : pool.slotSnapshotPayloadBytes nTokens.toNat = .ok (bytes.length - 16)

/-- Other bytes are refused before anything is copied. -/
theorem restore_refuses {bytes : List UInt8} {nTokens : UInt64} (h : ¬ pool.Fits nTokens bytes)
    (m : DeviceMemory) (slot : Nat) :
    ∃ e, pool.restoreSlotBytes m slot nTokens bytes = (.error e, m) := by
  unfold restoreSlotBytes
  split
  · exact ⟨_, rfl⟩
  split
  · exact ⟨_, rfl⟩
  rename_i hlong
  dsimp only
  split
  · exact ⟨_, rfl⟩
  rename_i hheader
  split
  · exact ⟨_, rfl⟩
  rename_i htokens
  split
  · exact ⟨_, rfl⟩
  rename_i payload hpayload
  split
  · exact ⟨_, rfl⟩
  rename_i hlen
  rw [not_or, not_not, not_not] at hheader
  refine absurd ⟨by omega, hheader.1, hheader.2, by simpa using htokens, ?_⟩ h
  rw [hpayload]
  congr 1
  omega

/-- What a slot may read from position `nTokens` on is what another held. -/
structure Carried (pool : ScratchPool) (nTokens : Nat) (m m' : DeviceMemory) (s t : Nat) : Prop where
  rows : ∀ (li : Nat) (kv : KvCache), pool.kvCaches[li]? = some kv → 0 < kv.depth →
    ∀ position, position < nTokens → ∀ j, j < kv.bytesPerRow →
      m' (.k li) (kv.rowByte t position + j) = m (.k li) (kv.rowByte s position + j) ∧
        m' (.v li) (kv.rowByte t position + j) = m (.v li) (kv.rowByte s position + j)
  gdn : ∀ g, pool.config.gdn = some g → ∀ li, li < pool.gdnLayers →
    (∀ j, j < g.stateBytesPerSlot → m' (.state li) (t * g.stateBytesPerSlot + j) =
      m (.state li) (s * g.stateBytesPerSlot + j)) ∧
    ∀ j, j < g.histBytesPerSlot → m' (.convHistory li) (t * g.histBytesPerSlot + j) =
      m (.convHistory li) (s * g.histBytesPerSlot + j)

/-- No byte of another slot has changed. -/
def Kept (pool : ScratchPool) (t : Nat) (m m' : DeviceMemory) : Prop :=
  ∀ slot buffer i, slot ≠ t → pool.Owns slot buffer i → m' buffer i = m buffer i

theorem kvLanes_mem {li : Nat} {kv : KvCache} (hkv : pool.kvCaches[li]? = some kv)
    {lane : Lane Buffer} (h : lane ∈ kvLanes nTokens (kv, li)) : lane ∈ pool.lanes nTokens := by
  unfold lanes
  refine List.mem_append_left _ (List.mem_flatMap.mpr ⟨(kv, li), ?_, h⟩)
  exact List.mem_zipIdx_iff_getElem?.mpr hkv

theorem gdnLanes_mem {g : GdnDims} (hg : pool.config.gdn = some g) {li : Nat} (hli : li < pool.gdnLayers)
    {lane : Lane Buffer} (h : lane ∈ gdnLanes g li) : lane ∈ pool.lanes nTokens := by
  unfold lanes
  rw [hg]
  exact List.mem_append_right _ (List.mem_flatMap.mpr ⟨li, List.mem_range.mpr hli, h⟩)

/-- A row of an earlier position is live, in a ring too. -/
theorem row_live {kv : KvCache} {position nTokens j : Nat} (hdepth : 0 < kv.depth)
    (hposition : position < nTokens) (hj : j < kv.bytesPerRow) :
    position % kv.depth * kv.bytesPerRow + j < min nTokens kv.depth * kv.bytesPerRow := by
  have hmod := Nat.mod_lt position hdepth
  have hle := Nat.mod_le position kv.depth
  have hrow : position % kv.depth + 1 ≤ min nTokens kv.depth := by
    rw [Nat.le_min]
    omega
  have hmul := Nat.mul_le_mul_right kv.bytesPerRow hrow
  rw [Nat.add_mul, Nat.one_mul] at hmul
  omega

theorem carried {config : ScratchConfig} (hmade : ScratchPool.new config = some pool)
    (source m : DeviceMemory) (s t : Nat) :
    pool.Carried nTokens source
      (Lane.spread (pool.lanes nTokens) t m (Lane.collect source (pool.lanes nTokens) s)) s t := by
  have hcarry : ∀ lane ∈ pool.lanes nTokens, ∀ i, i < lane.live →
      Lane.spread (pool.lanes nTokens) t m (Lane.collect source (pool.lanes nTokens) s) lane.buffer
        (t * lane.stride + i) = source lane.buffer (s * lane.stride + i) := by
    intro lane hlane i hi
    have hspread := Lane.spread_collect buffers_nodup hlane hi source s t m []
    rw [List.append_nil] at hspread
    exact hspread
  refine ⟨?_, ?_⟩
  · intro li kv hkv hdepth position hposition j hj
    have hempty : kv.empty = false := by
      have hrow := new_bytesPerRow hmade hkv
      cases hwidth : kv.kvWidth with
      | zero =>
        rw [hwidth] at hrow
        cases hlayout : kv.layout <;> simp [hlayout, KvLayout.bytesPerRow] at hrow <;> omega
      | succ width =>
        have hpos : kv.bytesPerRow ≠ 0 := by omega
        simp [KvCache.empty, hwidth, hpos]
    have hlive := row_live hdepth hposition hj
    have hk := hcarry _ (kvLanes_mem hkv (by simp [kvLanes, hempty]; exact .inl rfl)) _ hlive
    have hv := hcarry _ (kvLanes_mem hkv (by simp [kvLanes, hempty]; exact .inr rfl)) _ hlive
    unfold KvCache.rowByte
    simp only [Nat.mul_assoc, Nat.add_assoc] at hk hv ⊢
    exact ⟨hk, hv⟩
  · intro g hg li hli
    refine ⟨?_, ?_⟩
    · intro j hj
      exact hcarry _ (gdnLanes_mem hg hli (List.mem_cons_self)) j hj
    · intro j hj
      exact hcarry _ (gdnLanes_mem hg hli (List.mem_cons_of_mem _ List.mem_cons_self)) j hj

theorem kept (m : DeviceMemory) (t : Nat) (xs : List UInt8) :
    pool.Kept t m (Lane.spread (pool.lanes nTokens) t m xs) := by
  intro slot buffer i hne howns
  refine Lane.spread_frame ?_ m xs
  intro lane hlane hbuffer hlive
  have hslot := (owns_lane hlane).mpr (hbuffer ▸ howns)
  exact hne (Lane.owns_unique hslot hlive)

end ScratchPool

namespace Session

theorem mapM_ok {f : α → Except ε β} {g : α → β} {xs : List α} (h : ∀ x ∈ xs, f x = .ok (g x)) :
    xs.mapM f = .ok (xs.map g) := by
  induction xs with
  | nil => rfl
  | cons x xs ih =>
    rw [List.mapM_cons, h x List.mem_cons_self, ih fun y hy => h y (List.mem_cons_of_mem _ hy)]
    rfl

theorem firstError_ok {replies : List (Except SlotError Unit)} (h : ∀ reply ∈ replies, reply = .ok ()) :
    firstError replies = .ok () := by
  induction replies with
  | nil => rfl
  | cons reply replies ih =>
    unfold firstError at ih ⊢
    rw [List.foldr_cons, h reply List.mem_cons_self, ih fun r hr => h r (List.mem_cons_of_mem _ hr)]

/-- The buffer that a rank's worker replies with. -/
def snapshotOf (s : Nat) (nTokens : UInt64) (rank : Rank) : List UInt8 :=
  ScratchPool.header nTokens ++ Lane.collect rank.memory (rank.pool.lanes nTokens.toNat) s

/-- A rank restores the buffer of a rank with its pool. -/
theorem restoreRank_eq {rank source : Rank} {snaps : List (List UInt8)} {i s t : Nat} {nTokens : UInt64}
    (hsnap : snaps[i]? = some (snapshotOf s nTokens source)) (hpool : source.pool = rank.pool)
    (hpaged : rank.pool.pagePools = []) (ht : t < rank.pool.config.nSlots) :
    restoreRank t nTokens snaps (rank, i) =
      (.ok (), { rank with
        memory := Lane.spread (rank.pool.lanes nTokens.toNat) t rank.memory
          (Lane.collect source.memory (rank.pool.lanes nTokens.toNat) s) }) := by
  unfold restoreRank
  rw [hsnap]
  unfold snapshotOf
  rw [hpool]
  dsimp only
  rw [ScratchPool.restore_eq hpaged _ _ ht (Lane.collect_length ..)]

/-- A restore leaves in slot `t` what slot `s` held at the snapshot and touches no other
slot, whatever forwards ran between; other bytes are refused before anything is copied. -/
theorem restore_snapshot {ranks later : List Rank} (hsame : later.map Rank.pool = ranks.map Rank.pool)
    (hpaged : ∀ rank ∈ ranks, rank.pool.pagePools = []) {s t : Nat}
    (hs : ∀ rank ∈ ranks, s < rank.pool.config.nSlots)
    (ht : ∀ rank ∈ ranks, t < rank.pool.config.nSlots) (nTokens : UInt64) :
    (∃ snaps after, snapshotKvSlot ranks s nTokens = .ok snaps ∧
      restoreKvSlot later t nTokens snaps = (.ok (), after) ∧ after.length = ranks.length ∧
      ∀ (i : Nat) (old new rank : Rank), ranks[i]? = some old → later[i]? = some new →
        after[i]? = some rank → rank.pool = old.pool ∧
          old.pool.Carried nTokens.toNat old.memory rank.memory s t ∧
          old.pool.Kept t new.memory rank.memory) ∧
    ∀ (pool : ScratchPool) (m : DeviceMemory) (slot : Nat) (bytes : List UInt8),
      ¬ pool.Fits nTokens bytes → ∃ e, pool.restoreSlotBytes m slot nTokens bytes = (.error e, m) := by
  refine ⟨?_, fun pool m slot bytes h => ScratchPool.restore_refuses h m slot⟩
  have hsnaps : snapshotKvSlot ranks s nTokens = .ok (ranks.map (snapshotOf s nTokens)) :=
    mapM_ok fun rank hrank => ScratchPool.snapshot_eq (hpaged rank hrank) _ _ (hs rank hrank)
  have hlength : later.length = ranks.length := by
    have := congrArg List.length hsame
    rwa [List.length_map, List.length_map] at this
  have hrank : ∀ (i : Nat) (new : Rank), later[i]? = some new →
      ∃ old, ranks[i]? = some old ∧ old.pool = new.pool ∧
        restoreRank t nTokens (ranks.map (snapshotOf s nTokens)) (new, i) =
          (.ok (), { new with
            memory := Lane.spread (new.pool.lanes nTokens.toNat) t new.memory
              (Lane.collect old.memory (new.pool.lanes nTokens.toNat) s) }) := by
    intro i new hnew
    have hpools := congrArg (·[i]?) hsame
    simp only [List.getElem?_map, hnew, Option.map_some] at hpools
    obtain ⟨old, hold, hpool⟩ := Option.map_eq_some_iff.mp hpools.symm
    have hmem := List.mem_of_getElem? hold
    refine ⟨old, hold, hpool, restoreRank_eq ?_ hpool (hpool ▸ hpaged old hmem) (hpool ▸ ht old hmem)⟩
    rw [List.getElem?_map, hold, Option.map_some]
  refine ⟨_, later.zipIdx.map fun r =>
    (restoreRank t nTokens (ranks.map (snapshotOf s nTokens)) r).2, hsnaps, ?_, ?_, ?_⟩
  · unfold restoreKvSlot
    rw [if_neg (by simp [hlength])]
    dsimp only
    rw [firstError_ok, List.map_map]
    · rfl
    · intro reply hreply
      obtain ⟨out, hout, rfl⟩ := List.mem_map.mp hreply
      obtain ⟨⟨new, i⟩, hnew, rfl⟩ := List.mem_map.mp hout
      obtain ⟨old, -, -, heq⟩ := hrank i new (List.mem_zipIdx_iff_getElem?.mp hnew)
      rw [heq]
  · rw [List.length_map, List.length_zipIdx, hlength]
  · intro i old new rank hold hnew hafter
    obtain ⟨old', hold', hpool, heq⟩ := hrank i new hnew
    obtain rfl : old = old' := Option.some.inj (hold.symm.trans hold')
    rw [List.getElem?_map, List.getElem?_zipIdx, hnew, Option.map_some, Option.map_some, Nat.zero_add,
      heq] at hafter
    obtain rfl := Option.some.inj hafter
    refine ⟨hpool.symm, ?_, ?_⟩
    · rw [hpool]
      exact ScratchPool.carried new.made old.memory new.memory s t
    · rw [hpool]
      exact ScratchPool.kept new.memory t _

/-- A ring layer of 4 rows, a layer without a slab and a GDN state, for two slots. -/
def smallConfig : ScratchConfig where
  hidden := 2
  intermediate := 2
  qWidth := 2
  kvWidth := 2
  vocab := 2
  maxSeqLen := 8
  numLayers := 2
  maxExperts := 0
  maxExpertsPerTok := 0
  gdn := some ⟨2, 1, 1, 1, 1, 2, 2⟩
  perLayerKvWidths := some [2, 0]
  attnQGated := false
  sharedIntermediate := 0
  maxPrefillTokens := 1
  maxSlots := 2
  perLayerEmbd := 0
  pagedKv := none
  kvLayout := .f16Contig
  perLayerKvLayouts := none
  perLayerKvDepths := some [4, 8]

def smallRank (byte : UInt8) : Rank where
  config := smallConfig
  pool := ⟨smallConfig, [⟨32, 2, 4, .f16Contig, 4⟩, ⟨0, 0, 0, .f16Contig, 8⟩], []⟩
  made := rfl
  memory _ i := byte + UInt8.ofNat i

theorem restore_snapshot_two_ranks : ∃ snaps after,
    snapshotKvSlot [smallRank 0, smallRank 100] 0 6 = .ok snaps ∧
      restoreKvSlot [smallRank 7, smallRank 8] 1 6 snaps = (.ok (), after) ∧ after.length = 2 := by
  have hmem : ∀ rank ∈ [smallRank 0, smallRank 100], rank = smallRank 0 ∨ rank = smallRank 100 := by
    intro rank hrank
    simpa using hrank
  obtain ⟨⟨snaps, after, hsnaps, hafter, hlength, -⟩, -⟩ :=
    @restore_snapshot [smallRank 0, smallRank 100] [smallRank 7, smallRank 8] rfl
      (fun rank hrank => by rcases hmem rank hrank with rfl | rfl <;> rfl) 0 1
      (fun rank hrank => by rcases hmem rank hrank with rfl | rfl <;> decide)
      (fun rank hrank => by rcases hmem rank hrank with rfl | rfl <;> decide) 6
  exact ⟨snaps, after, hsnaps, hafter, hlength⟩

end Session
end Flambeau.Forward
