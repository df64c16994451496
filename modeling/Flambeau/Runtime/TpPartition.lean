import Flambeau.Runtime.TpSlice
import Flambeau.Systems.Strides

namespace Flambeau
open Systems

namespace Quant

theorem umul_eq (h : a * b < 2 ^ 64) : umul a b = a * b := Nat.mod_eq_of_lt h

theorem uadd_eq (h : a + b < 2 ^ 64) : uadd a b = a + b := Nat.mod_eq_of_lt h

@[simp] theorem umul_zero (a : Nat) : umul a 0 = 0 := by
  unfold umul
  rw [Nat.mul_zero, Nat.zero_mod]

@[simp] theorem zero_umul (a : Nat) : umul 0 a = 0 := by
  unfold umul
  rw [Nat.zero_mul, Nat.zero_mod]

/-- The file from where a tensor starts. -/
def Parsed.tensorBytes (file : Parsed) (info : TensorInfo) : List UInt8 :=
  file.mmap.bytes.drop (file.tensorDataOffset + info.relOffset)

/-- A range that is read is no longer than asked for, and is the range of the tensor's bytes
when it does not wrap. -/
theorem Parsed.rawFor_ok {file : Parsed} {info : TensorInfo} (h : file.rawFor info s n = .ok xs) :
    xs.length ≤ n ∧ min (s + n) (2 ^ 64 - 1) ≤ info.sizeInBytes ∧
      (file.tensorDataOffset + info.relOffset + s + n < 2 ^ 64 →
        xs = ((file.tensorBytes info).drop s).take n) := by
  unfold rawFor at h
  dsimp only at h
  split at h
  · cases h
  rename_i htotal
  split at h
  · cases h
  split at h
  · cases h
  rename_i hend horder
  cases h
  refine ⟨?_, Nat.not_lt.mp htotal, fun hfits => ?_⟩
  · rw [List.length_take]
    refine Nat.le_trans (Nat.min_le_left _ _) ?_
    have hwrap := Nat.mod_le ((file.tensorDataOffset + info.relOffset + s) % 2 ^ 64 + n) (2 ^ 64)
    omega
  · have hstart : (file.tensorDataOffset + info.relOffset + s) % 2 ^ 64 =
        file.tensorDataOffset + info.relOffset + s := Nat.mod_eq_of_lt (by omega)
    rw [hstart, Nat.mod_eq_of_lt hfits, Nat.add_sub_cancel_left]
    unfold tensorBytes
    rw [List.drop_drop]

end Quant

namespace Runtime
open Quant

@[simp] theorem require_ok {p : Prop} [Decidable p] {e : TpError} : require p e = .ok u ↔ p := by
  unfold require
  split
  · rename_i hp
    exact ⟨fun _ => hp, fun _ => rfl⟩
  · rename_i hp
    exact ⟨nofun, fun h => absurd h hp⟩

theorem sliceRange_ok {raw : List UInt8} :
    sliceRange raw s e = .ok xs ↔ (s ≤ e ∧ e ≤ raw.length) ∧ (raw.drop s).take (e - s) = xs := by
  unfold sliceRange
  split
  · exact ⟨nofun, fun h => by omega⟩
  · rename_i hin
    exact ⟨fun h => by cases h; exact ⟨by omega, rfl⟩, fun h => by rw [h.2]⟩

theorem tensorInfo_ok {file : Parsed} : tensorInfo file name = .ok info ↔ file.info name = .ok info := by
  unfold tensorInfo
  cases file.info name with
  | ok info' => exact ⟨fun h => by cases h; rfl, fun h => by cases h; rfl⟩
  | error e => exact ⟨nofun, nofun⟩

/-- The payload of a tensor that is read. -/
theorem tensorRaw_ok {file : Parsed} {context : String} (hinfo : file.info name = .ok info)
    (h : tensorRaw file name context = .ok raw) :
    raw.length ≤ info.sizeInBytes ∧ (file.tensorDataOffset + info.relOffset + info.sizeInBytes < 2 ^ 64 →
      raw = (file.tensorBytes info).take info.sizeInBytes) := by
  have hread := Outcome.relabel_eq_ok.mp h
  unfold Parsed.tensorRaw at hread
  rw [hinfo] at hread
  obtain ⟨hlen, -, hbytes⟩ := Parsed.rawFor_ok hread
  exact ⟨hlen, fun hfits => by rw [hbytes (by omega)]; rfl⟩

/-- What the slice of a vector reads. -/
theorem sliceVector_ok {file : Parsed} {world rank : UInt32} (hinfo : file.info name = .ok info)
    (hdims : info.dims = [outer]) (h : sliceColParallelDim0 file name world rank = .ok bytes) :
    rank < world ∧ outer % world.toNat = 0 ∧ ∃ context raw, tensorRaw file name context = .ok raw ∧
      let start := umul (umul rank.toNat (outer / world.toNat)) info.dtype.typeSize
      let finish := uadd start (umul (outer / world.toNat) info.dtype.typeSize)
      (start ≤ finish ∧ finish ≤ raw.length) ∧ (raw.drop start).take (finish - start) = bytes := by
  unfold sliceColParallelDim0 at h
  obtain ⟨_, hrank, h⟩ := Outcome.bind_eq_ok.mp h
  obtain ⟨info', hinfo', h⟩ := Outcome.bind_eq_ok.mp h
  rw [tensorInfo_ok, hinfo] at hinfo'
  cases hinfo'
  rw [hdims] at h
  obtain ⟨_, hdvd, h⟩ := Outcome.bind_eq_ok.mp h
  obtain ⟨raw, hraw, h⟩ := Outcome.bind_eq_ok.mp h
  obtain ⟨_, hfits, h⟩ := Outcome.bind_eq_ok.mp h
  exact ⟨require_ok.mp hrank, require_ok.mp hdvd, _, raw, hraw, sliceRange_ok.mp h⟩

/-- What the slice of rows reads. -/
theorem sliceRows_ok {file : Parsed} {world rank : UInt32} {outer inner : Nat} (hinfo : file.info name = .ok info)
    (hdims : info.dims = [outer, inner]) (h : sliceColParallelDim0 file name world rank = .ok bytes) :
    rank < world ∧ outer % world.toNat = 0 ∧ inner % info.dtype.blockSize = 0 ∧
      file.rawFor info
        (umul (umul rank.toNat (outer / world.toNat)) (umul (inner / info.dtype.blockSize) info.dtype.typeSize))
        (umul (outer / world.toNat) (umul (inner / info.dtype.blockSize) info.dtype.typeSize)) = .ok bytes := by
  unfold sliceColParallelDim0 at h
  obtain ⟨_, hrank, h⟩ := Outcome.bind_eq_ok.mp h
  obtain ⟨info', hinfo', h⟩ := Outcome.bind_eq_ok.mp h
  rw [tensorInfo_ok, hinfo] at hinfo'
  cases hinfo'
  rw [hdims] at h
  obtain ⟨_, hdvd, h⟩ := Outcome.bind_eq_ok.mp h
  replace h := Outcome.relabel_eq_ok.mp h
  unfold Parsed.tensorRowRangeRaw at h
  rw [hinfo] at h
  dsimp only at h
  rw [hdims] at h
  dsimp only at h
  split at h
  · cases h
  rename_i hblock
  split at h
  · cases h
  exact ⟨require_ok.mp hrank, require_ok.mp hdvd, Decidable.not_not.mp hblock, Outcome.relabel_eq_ok.mp h⟩

/-- What the slice of the rows of every expert reads. -/
theorem sliceExpertRows_ok {file : Parsed} {world rank : UInt32} (hinfo : file.info name = .ok info)
    (h : sliceColParallelDim13d file name world rank = .ok bytes) :
    ∃ nExperts dim1 dim2 raw, info.dims = [nExperts, dim1, dim2] ∧ rank < world ∧ dim1 % world.toNat = 0 ∧
      dim2 % info.dtype.blockSize = 0 ∧ tensorRaw file name (rawContext name) = .ok raw ∧
      let rowBytes := umul (dim2 / info.dtype.blockSize) info.dtype.typeSize
      let start e := uadd (umul e (umul dim1 rowBytes)) (umul (umul rank.toNat (dim1 / world.toNat)) rowBytes)
      let finish e := uadd (start e) (umul (dim1 / world.toNat) rowBytes)
      (∀ e < nExperts, start e ≤ finish e ∧ finish e ≤ raw.length) ∧
        bytes = (List.range nExperts).flatMap fun e => (raw.drop (start e)).take (finish e - start e) := by
  unfold sliceColParallelDim13d at h
  obtain ⟨_, hrank, h⟩ := Outcome.bind_eq_ok.mp h
  obtain ⟨info', hinfo', h⟩ := Outcome.bind_eq_ok.mp h
  rw [tensorInfo_ok, hinfo] at hinfo'
  cases hinfo'
  split at h
  · rename_i nExperts dim1 dim2 hdims
    obtain ⟨_, hdvd, h⟩ := Outcome.bind_eq_ok.mp h
    obtain ⟨_, hblock, h⟩ := Outcome.bind_eq_ok.mp h
    obtain ⟨raw, hraw, h⟩ := Outcome.bind_eq_ok.mp h
    obtain ⟨_, -, h⟩ := Outcome.bind_eq_ok.mp h
    obtain ⟨hparts, hout⟩ := Outcome.extendAll_ok h
    refine ⟨nExperts, dim1, dim2, raw, hdims, require_ok.mp hrank, require_ok.mp hdvd, require_ok.mp hblock,
      hraw, fun e he => ?_, hout _ fun e _ xs hxs => ?_⟩
    · obtain ⟨xs, hxs⟩ := hparts e (List.mem_range.mpr he)
      obtain ⟨_, -, hxs⟩ := Outcome.bind_eq_ok.mp hxs
      exact (sliceRange_ok.mp hxs).1
    · obtain ⟨_, -, hxs⟩ := Outcome.bind_eq_ok.mp hxs
      exact (sliceRange_ok.mp hxs).2.symm
  · cases h

/-- What the slice of the columns of every expert reads. -/
theorem sliceExpertColumns_ok {file : Parsed} {world rank : UInt32} (hinfo : file.info name = .ok info)
    (h : sliceRowParallelDim23d file name world rank = .ok bytes) :
    ∃ nExperts dim1 dim2 raw, info.dims = [nExperts, dim1, dim2] ∧ rank < world ∧ dim2 % world.toNat = 0 ∧
      dim2 / world.toNat % info.dtype.blockSize = 0 ∧ tensorRaw file name (rawContext name) = .ok raw ∧
      let fullRow := umul (dim2 / info.dtype.blockSize) info.dtype.typeSize
      let localRow := umul (dim2 / world.toNat / info.dtype.blockSize) info.dtype.typeSize
      let start e row := uadd (uadd (umul (umul e dim1) fullRow) (umul row fullRow)) (umul rank.toNat localRow)
      let finish e row := uadd (start e row) localRow
      (∀ e < nExperts, ∀ row < dim1, start e row ≤ finish e row ∧ finish e row ≤ raw.length) ∧
        bytes = (List.range nExperts).flatMap fun e => (List.range dim1).flatMap fun row =>
          (raw.drop (start e row)).take (finish e row - start e row) := by
  unfold sliceRowParallelDim23d at h
  obtain ⟨_, hrank, h⟩ := Outcome.bind_eq_ok.mp h
  obtain ⟨info', hinfo', h⟩ := Outcome.bind_eq_ok.mp h
  rw [tensorInfo_ok, hinfo] at hinfo'
  cases hinfo'
  split at h
  · rename_i nExperts dim1 dim2 hdims
    obtain ⟨_, hdvd, h⟩ := Outcome.bind_eq_ok.mp h
    obtain ⟨_, hblock, h⟩ := Outcome.bind_eq_ok.mp h
    obtain ⟨raw, hraw, h⟩ := Outcome.bind_eq_ok.mp h
    obtain ⟨_, -, h⟩ := Outcome.bind_eq_ok.mp h
    obtain ⟨hparts, hout⟩ := Outcome.extendAll_ok h
    refine ⟨nExperts, dim1, dim2, raw, hdims, require_ok.mp hrank, require_ok.mp hdvd, require_ok.mp hblock,
      hraw, fun e he row hrow => ?_, hout _ fun e _ xs hxs => ?_⟩
    · obtain ⟨xs, hxs⟩ := hparts e (List.mem_range.mpr he)
      obtain ⟨ys, hys⟩ := (Outcome.extendAll_ok hxs).1 row (List.mem_range.mpr hrow)
      obtain ⟨_, -, hys⟩ := Outcome.bind_eq_ok.mp hys
      exact (sliceRange_ok.mp hys).1
    · refine (Outcome.extendAll_ok hxs).2 _ fun row _ ys hys => ?_
      obtain ⟨_, -, hys⟩ := Outcome.bind_eq_ok.mp hys
      exact (sliceRange_ok.mp hys).2.symm
  · cases h

/-- What the slice of columns reads. -/
theorem sliceColumns_ok {file : Parsed} {world rank : UInt32} (hinfo : file.info name = .ok info)
    (h : sliceRowParallelDim1 file name world rank = .ok bytes) :
    ∃ outer inner raw, info.dims = [outer, inner] ∧ rank < world ∧ inner % world.toNat = 0 ∧
      inner / world.toNat % info.dtype.blockSize = 0 ∧ tensorRaw file name (rawContext name) = .ok raw ∧
      let fullRow := umul (inner / info.dtype.blockSize) info.dtype.typeSize
      let rowBlocks := inner / world.toNat / info.dtype.blockSize
      let start row := uadd (umul row fullRow) (umul (umul rank.toNat rowBlocks) info.dtype.typeSize)
      let finish row := uadd (start row) (umul rowBlocks info.dtype.typeSize)
      (∀ row < outer, start row ≤ finish row ∧ finish row ≤ raw.length) ∧
        bytes = (List.range outer).flatMap fun row => (raw.drop (start row)).take (finish row - start row) := by
  unfold sliceRowParallelDim1 at h
  obtain ⟨_, hrank, h⟩ := Outcome.bind_eq_ok.mp h
  obtain ⟨info', hinfo', h⟩ := Outcome.bind_eq_ok.mp h
  rw [tensorInfo_ok, hinfo] at hinfo'
  cases hinfo'
  split at h
  · rename_i outer inner hdims
    obtain ⟨_, hdvd, h⟩ := Outcome.bind_eq_ok.mp h
    obtain ⟨_, hblock, h⟩ := Outcome.bind_eq_ok.mp h
    obtain ⟨raw, hraw, h⟩ := Outcome.bind_eq_ok.mp h
    obtain ⟨_, -, h⟩ := Outcome.bind_eq_ok.mp h
    obtain ⟨_, -, h⟩ := Outcome.bind_eq_ok.mp h
    obtain ⟨hparts, hout⟩ := Outcome.extendAll_ok h
    refine ⟨outer, inner, raw, hdims, require_ok.mp hrank, require_ok.mp hdvd, require_ok.mp hblock,
      hraw, fun row hrow => ?_, hout _ fun row _ xs hxs => (sliceRange_ok.mp hxs).2.symm⟩
    obtain ⟨xs, hxs⟩ := hparts row (List.mem_range.mpr hrow)
    exact (sliceRange_ok.mp hxs).1
  · cases h

/-- The rows that a rank takes of `q`, `k` and `v`: where each part starts and how many rows. -/
def fusedParts (spec : FusedQkvSpec) (world rank : UInt32) : List (Nat × Nat) :=
  let vPart := umul spec.numVHeads.toNat spec.headVDim.toNat
  let kPart := umul spec.numKHeads.toNat spec.headKDim.toNat
  let kLocal := if spec.kqReplicated then kPart else kPart / world.toNat
  let qStart := if spec.kqReplicated then 0 else umul rank.toNat kLocal
  let kStart := if spec.kqReplicated then kPart else uadd kPart (umul rank.toNat kLocal)
  let vStart := uadd (umul 2 kPart) (umul rank.toNat (vPart / world.toNat))
  [(qStart, kLocal), (kStart, kLocal), (vStart, vPart / world.toNat)]

/-- What the slice of a fused tensor reads. -/
theorem sliceFused_ok {file : Parsed} {world rank : UInt32} {spec : FusedQkvSpec}
    (hinfo : file.info name = .ok info) (h : sliceFusedQkvParallel file name world rank spec = .ok bytes) :
    ∃ outer inner raw, info.dims = [outer, inner] ∧ rank < world ∧ spec.numVHeads.toNat % world.toNat = 0 ∧
      (spec.kqReplicated = true ∨ spec.numKHeads.toNat % world.toNat = 0) ∧
      outer = uadd (umul spec.numVHeads.toNat spec.headVDim.toNat)
        (umul 2 (umul spec.numKHeads.toNat spec.headKDim.toNat)) ∧
      inner % info.dtype.blockSize = 0 ∧ tensorRaw file name (rawContext name) = .ok raw ∧
      let rowBytes := umul (inner / info.dtype.blockSize) info.dtype.typeSize
      (∀ p ∈ fusedParts spec world rank,
        umul p.1 rowBytes ≤ umul (uadd p.1 p.2) rowBytes ∧ umul (uadd p.1 p.2) rowBytes ≤ raw.length) ∧
        bytes = (fusedParts spec world rank).flatMap fun p =>
          (raw.drop (umul p.1 rowBytes)).take (umul (uadd p.1 p.2) rowBytes - umul p.1 rowBytes) := by
  unfold sliceFusedQkvParallel at h
  obtain ⟨_, hrank, h⟩ := Outcome.bind_eq_ok.mp h
  obtain ⟨_, hv, h⟩ := Outcome.bind_eq_ok.mp h
  obtain ⟨_, hk, h⟩ := Outcome.bind_eq_ok.mp h
  obtain ⟨info', hinfo', h⟩ := Outcome.bind_eq_ok.mp h
  rw [tensorInfo_ok, hinfo] at hinfo'
  cases hinfo'
  split at h
  · rename_i outer inner hdims
    obtain ⟨_, houter, h⟩ := Outcome.bind_eq_ok.mp h
    obtain ⟨_, hblock, h⟩ := Outcome.bind_eq_ok.mp h
    obtain ⟨raw, hraw, h⟩ := Outcome.bind_eq_ok.mp h
    obtain ⟨_, -, h⟩ := Outcome.bind_eq_ok.mp h
    obtain ⟨_, -, h⟩ := Outcome.bind_eq_ok.mp h
    obtain ⟨q, hq, h⟩ := Outcome.bind_eq_ok.mp h
    obtain ⟨k, hk', h⟩ := Outcome.bind_eq_ok.mp h
    obtain ⟨v, hv', h⟩ := Outcome.bind_eq_ok.mp h
    obtain ⟨hqr, rfl⟩ := sliceRange_ok.mp hq
    obtain ⟨hkr, rfl⟩ := sliceRange_ok.mp hk'
    obtain ⟨hvr, rfl⟩ := sliceRange_ok.mp hv'
    refine ⟨outer, inner, raw, hdims, require_ok.mp hrank, require_ok.mp hv, require_ok.mp hk,
      require_ok.mp houter, require_ok.mp hblock, hraw, fun p hp => ?_, ?_⟩
    · rcases List.mem_cons.mp hp with rfl | hp
      · exact hqr
      · rcases List.mem_cons.mp hp with rfl | hp
        · exact hkr
        · rw [List.mem_singleton.mp hp]
          exact hvr
    · cases h
      unfold fusedParts
      simp only [List.flatMap_cons, List.flatMap_nil, List.append_nil, List.append_assoc]
  · cases h

end Runtime
end Flambeau

namespace Flambeau.Runtime
open Systems Quant

namespace WeightLayout

def world : WeightLayout → Option UInt32
  | replicated => none
  | colParallel w _ => some w
  | rowParallel w _ => some w
  | fusedQkvParallel w _ _ _ _ _ => some w

/-- A layout without a world may be asked for any rank. -/
def IsRank (layout : WeightLayout) (rank : UInt32) : Prop := ∀ w, layout.world = some w → rank < w

/-- The elements of a tensor of this layout. -/
def elements : WeightLayout → List Nat → Nat
  | fusedQkvParallel _ numVHeads numKHeads headVDim headKDim _, [_, inner] =>
    (numVHeads.toNat * headVDim.toNat + 2 * (numKHeads.toNat * headKDim.toNat)) * inner
  | _, dims => dims.prod

/-- The layout gives an element, by its place in the tensor, to a rank. -/
def gives : WeightLayout → List Nat → Nat → Nat → Bool
  | replicated, _, _, _ => true
  | colParallel w 0, [outer], rank, e => decide (Share outer w.toNat rank e)
  | colParallel w 0, [outer, inner], rank, e => decide (Share outer w.toNat rank (e / inner))
  | colParallel w 1, [_, dim1, dim2], rank, e => decide (Share dim1 w.toNat rank (e / dim2 % dim1))
  | rowParallel w 1, [_, inner], rank, e => decide (Share inner w.toNat rank (e % inner))
  | rowParallel w 2, [_, _, dim2], rank, e => decide (Share dim2 w.toNat rank (e % dim2))
  | fusedQkvParallel w numVHeads numKHeads headVDim headKDim kqReplicated, [_, inner], rank, e =>
    let row := e / inner
    let kRows := numKHeads.toNat * headKDim.toNat
    if row < 2 * kRows then
      kqReplicated || decide (Share numKHeads.toNat w.toNat rank (row % kRows / headKDim.toNat))
    else decide (Share numVHeads.toNat w.toNat rank ((row - 2 * kRows) / headVDim.toNat))
  | _, _, _, _ => false

/-- The element is in a part that every rank has. -/
def shares : WeightLayout → List Nat → Nat → Bool
  | replicated, _, _ => true
  | fusedQkvParallel _ _ numKHeads _ headKDim kqReplicated, [_, inner], e =>
    kqReplicated && decide (e / inner < 2 * (numKHeads.toNat * headKDim.toNat))
  | _, _, _ => false

/-- The blocks that the elements take. -/
def blockCount (layout : WeightLayout) (info : TensorInfo) : Nat :=
  Quant.divCeil (layout.elements info.dims) info.dtype.blockSize

/-- The elements in a block. -/
def members (layout : WeightLayout) (info : TensorInfo) (b : Nat) : List Nat :=
  span (b * info.dtype.blockSize) (min ((b + 1) * info.dtype.blockSize) (layout.elements info.dims))

/-- The blocks of the elements of a rank, in the order of the tensor. -/
def blocksOf (layout : WeightLayout) (info : TensorInfo) (rank : UInt32) : List Nat :=
  (List.range (layout.blockCount info)).filter fun b => (layout.members info b).any (layout.gives info.dims rank.toNat)

end WeightLayout

/-- The slices of all ranks. -/
def SlicesAll (file : Parsed) (name : String) (layout : WeightLayout) : Prop :=
  (∃ rank, layout.IsRank rank) ∧ ∀ rank, layout.IsRank rank → ∃ bytes, sliceForTp file name layout rank = .ok bytes

/-- A rank's slice is its blocks, all of which are in the file, and a block that not every
rank has is in the slice of one. -/
def Partitioned (file : Parsed) (name : String) (info : TensorInfo) (layout : WeightLayout) : Prop :=
  (∀ rank, layout.IsRank rank →
    (∀ b ∈ layout.blocksOf info rank,
      file.tensorDataOffset + info.relOffset + (b + 1) * info.dtype.typeSize ≤ file.mmap.bytes.length) ∧
    sliceForTp file name layout rank =
      .ok (pieces info.dtype.typeSize (file.tensorBytes info) (layout.blocksOf info rank))) ∧
  ∀ b < layout.blockCount info, (layout.members info b).any (layout.shares info.dims) = false →
    ∃! rank, layout.IsRank rank ∧ b ∈ layout.blocksOf info rank

/-- The file has the blocks of the tensor. -/
def Stored (file : Parsed) (info : TensorInfo) (layout : WeightLayout) : Prop :=
  layout.elements info.dims = 0 ∨
    file.tensorDataOffset + info.relOffset + layout.blockCount info * info.dtype.typeSize ≤ file.mmap.bytes.length

/-- The layout can cut the tensor: a copied tensor is whole blocks, and fewer elements than a
`u64` counts; a vector has blocks of one element. -/
def WeightLayout.Cuts (layout : WeightLayout) (info : TensorInfo) : Prop :=
  match layout, info.dims with
  | .replicated, dims => dims.prod < 2 ^ 64 ∧ dims.prod % info.dtype.blockSize = 0
  | .colParallel _ 0, [outer] => outer = 0 ∨ info.dtype.blockSize = 1
  | _, _ => True

namespace WeightLayout

theorem isRank_iff {layout : WeightLayout} (h : layout.world = some w) : layout.IsRank rank ↔ rank < w :=
  ⟨fun hrank => hrank w h, fun hlt w' h' => by rw [h] at h'; cases h'; exact hlt⟩

/-- A part that every rank has is given to every rank. -/
theorem gives_of_shares {layout : WeightLayout} (h : layout.shares dims e = true) : layout.gives dims r e = true := by
  unfold shares at h
  split at h
  · rfl
  · rename_i w nv nk hv hk repl outer inner e
    obtain ⟨hrepl, hrow⟩ := Bool.and_eq_true_iff.mp h
    unfold gives
    dsimp only
    rw [if_pos (of_decide_eq_true hrow), hrepl, Bool.true_or]
  · cases h

theorem mem_blocksOf {layout : WeightLayout} : b ∈ layout.blocksOf info rank ↔
    b < layout.blockCount info ∧ (layout.members info b).any (layout.gives info.dims rank.toNat) = true := by
  unfold blocksOf
  rw [List.mem_filter, List.mem_range]

/-- A block of which the first elements stand for all. -/
theorem members_any {layout : WeightLayout} {p : Nat → Bool} (htotal : layout.elements info.dims = q * info.dtype.blockSize)
    (hb : b < q) (hsame : ∀ j < info.dtype.blockSize, p (b * info.dtype.blockSize + j) = keep) :
    (layout.members info b).any p = keep := by
  have hpos := info.dtype.blockSize_pos
  have hend : min ((b + 1) * info.dtype.blockSize) (layout.elements info.dims) = (b + 1) * info.dtype.blockSize := by
    rw [htotal]
    exact Nat.min_eq_left (Nat.mul_le_mul_right _ hb)
  have hin : ∀ e ∈ layout.members info b, p e = keep := fun e he => by
    unfold members at he
    rw [hend, mem_span] at he
    obtain ⟨j, rfl⟩ := Nat.exists_eq_add_of_le he.1
    rw [Nat.succ_mul] at he
    exact hsame j (by omega)
  cases keep with
  | false => exact List.any_eq_false.mpr fun e he => by rw [hin e he]; decide
  | true =>
    refine List.any_eq_true.mpr ⟨b * info.dtype.blockSize, ?_, hin _ ?_⟩ <;>
    · unfold members
      rw [hend, mem_span, Nat.succ_mul]
      omega

theorem blockCount_eq {layout : WeightLayout} (htotal : layout.elements info.dims = q * info.dtype.blockSize) :
    layout.blockCount info = q := by
  have hpos := info.dtype.blockSize_pos
  unfold blockCount Quant.divCeil
  rw [htotal, Nat.add_sub_assoc hpos, Nat.add_comm, Nat.add_mul_div_right _ _ hpos, Nat.div_eq_of_lt (by omega),
    Nat.zero_add]

/-- The blocks of a rank, where the elements of a block go together. -/
theorem blocksOf_eq {layout : WeightLayout} {keep : Nat → Bool}
    (htotal : layout.elements info.dims = q * info.dtype.blockSize)
    (hsame : ∀ b < q, ∀ j < info.dtype.blockSize,
      layout.gives info.dims rank.toNat (b * info.dtype.blockSize + j) = keep b) :
    layout.blocksOf info rank = (List.range q).filter keep := by
  unfold blocksOf
  rw [blockCount_eq htotal]
  refine List.filter_congr fun b hb => ?_
  exact members_any htotal (List.mem_range.mp hb) (hsame b (List.mem_range.mp hb))

end WeightLayout

/-- The blocks of whole rows. -/
theorem block_row (b : Nat) {m size j : Nat} (hj : j < size) : (b * size + j) / (m * size) = b / m := by
  rw [Nat.mul_comm m, ← Nat.div_div_eq_div_mul, Nat.mul_comm b, Nat.mul_add_div (by omega), Nat.div_eq_of_lt hj,
    Nat.add_zero]

theorem block_column (b : Nat) {m size j : Nat} (hj : j < size) :
    (b * size + j) % (m * size) / size = b % m := by
  rw [Nat.mul_comm m, Nat.mod_mul_right_div_self, Nat.mul_comm b, Nat.mul_add_div (by omega), Nat.div_eq_of_lt hj,
    Nat.add_zero]

end Flambeau.Runtime
