import Flambeau.Quant.GgufRanges

namespace Flambeau
open Systems

namespace Runtime
open Quant

/-- How a weight is spread over the ranks. -/
inductive WeightLayout where
  | replicated
  | colParallel (world : UInt32) (dim : Nat)
  | rowParallel (world : UInt32) (dim : Nat)
  | fusedQkvParallel (world numVHeads numKHeads headVDim headKDim : UInt32) (kqReplicated : Bool)
deriving DecidableEq

inductive SliceError where
  | unsupportedAxis (layout : String) (dim : Nat)
  | outerIndivisible (name : String) (outer : Nat) (world : UInt32)
  | innerIndivisible (name : String) (inner : Nat) (world : UInt32)
  | innerBlockMisaligned (name : String) (perRankInner blockSize : Nat)
  | notTwoDimensional (name : String) (ndims : Nat)
  | rankOutOfRange (rank world : UInt32)
deriving DecidableEq

inductive TpError where
  | slice (e : SliceError)
  /-- An error of the file, with its context. -/
  | range (context : String) (e : RangeError)
  | message (text : String)
deriving DecidableEq

inductive TpPanic where
  | capacity (n : Nat)
  | sliceIndex
  | divideByZero
  | file (f : Fault)
deriving DecidableEq

abbrev SliceResult (α : Type) := Outcome TpError TpPanic α

def tensorInfo (file : Parsed) (name : String) : SliceResult TensorInfo :=
  match file.info name with
  | .ok info => .ok info
  | .error e => .err (.range ("info `" ++ name ++ "`") (.quant e))

def tensorRaw (file : Parsed) (name context : String) : SliceResult (List UInt8) :=
  (file.tensorRaw name).relabel (fun e => .range context (.quant e)) .file

def rawContext (name : String) : String := "tensor_raw `" ++ name ++ "`"

/-- `&raw[start..end]`. -/
def sliceRange (raw : List UInt8) (start finish : Nat) : SliceResult (List UInt8) :=
  if finish < start ∨ raw.length < finish then .fault .sliceIndex
  else .ok ((raw.drop start).take (finish - start))

/-- `Vec::with_capacity`. -/
def withCapacity (n : Nat) : SliceResult Unit := if 2 ^ 63 ≤ n then .fault (.capacity n) else .ok ()

def require (p : Prop) [Decidable p] (e : TpError) : SliceResult Unit := if p then .ok () else .err e

def mmapShort (name : String) (found expected : Nat) : String :=
  "tensor `" ++ name ++ "` mmap " ++ toString found ++ " < expected " ++ toString expected

def sliceColParallelDim0 (file : Parsed) (name : String) (world rank : UInt32) : SliceResult (List UInt8) := do
  require (rank < world) (.slice (.rankOutOfRange rank world))
  let info ← tensorInfo file name
  match info.dims with
  | [outer] => do
    require (outer % world.toNat = 0) (.slice (.outerIndivisible name outer world))
    let rowsPerRank := outer / world.toNat
    let rowStart := umul rank.toNat rowsPerRank
    let bytesPerElem := info.dtype.typeSize
    let byteStart := umul rowStart bytesPerElem
    let byteLen := umul rowsPerRank bytesPerElem
    let full ← tensorRaw file name (rawContext name ++ " (1-D) rank=" ++ toString rank)
    require (uadd byteStart byteLen ≤ full.length) (.slice (.outerIndivisible name outer world))
    sliceRange full byteStart (uadd byteStart byteLen)
  | [outer, _] => do
    require (outer % world.toNat = 0) (.slice (.outerIndivisible name outer world))
    let rowsPerRank := outer / world.toNat
    let rowStart := umul rank.toNat rowsPerRank
    (file.tensorRowRangeRaw name rowStart rowsPerRank).relabel
      (.range ("tensor_row_range_raw `" ++ name ++ "` rank=" ++ toString rank)) .file
  | dims => .err (.slice (.notTwoDimensional name dims.length))

def sliceColParallelDim13d (file : Parsed) (name : String) (world rank : UInt32) : SliceResult (List UInt8) := do
  require (rank < world) (.slice (.rankOutOfRange rank world))
  let info ← tensorInfo file name
  match info.dims with
  | [nExperts, dim1, dim2] => do
    require (dim1 % world.toNat = 0) (.slice (.outerIndivisible name dim1 world))
    let blockSize := info.dtype.blockSize
    require (dim2 % blockSize = 0) (.slice (.innerBlockMisaligned name dim2 blockSize))
    let rowBytes := umul (dim2 / blockSize) info.dtype.typeSize
    let raw ← tensorRaw file name (rawContext name)
    let dim1Local := dim1 / world.toNat
    let rankRowStart := umul rank.toNat dim1Local
    let expertSlabBytes := umul dim1 rowBytes
    withCapacity (umul (umul nExperts dim1Local) rowBytes)
    Outcome.extendAll (fun e => do
      let expertOffset := umul e expertSlabBytes
      let rankOffset := uadd expertOffset (umul rankRowStart rowBytes)
      let rankEnd := uadd rankOffset (umul dim1Local rowBytes)
      require (rankEnd ≤ raw.length)
        (.message (mmapShort name raw.length rankEnd ++ " (expert " ++ toString e ++ ")"))
      sliceRange raw rankOffset rankEnd) (List.range nExperts)
  | dims => .err (.slice (.notTwoDimensional name dims.length))

def sliceRowParallelDim23d (file : Parsed) (name : String) (world rank : UInt32) : SliceResult (List UInt8) := do
  require (rank < world) (.slice (.rankOutOfRange rank world))
  let info ← tensorInfo file name
  match info.dims with
  | [nExperts, dim1, dim2] => do
    require (dim2 % world.toNat = 0) (.slice (.innerIndivisible name dim2 world))
    let blockSize := info.dtype.blockSize
    let dim2Local := dim2 / world.toNat
    require (dim2Local % blockSize = 0) (.slice (.innerBlockMisaligned name dim2Local blockSize))
    let fullRowBytes := umul (dim2 / blockSize) info.dtype.typeSize
    let localRowBytes := umul (dim2Local / blockSize) info.dtype.typeSize
    let colByteOffset := umul rank.toNat localRowBytes
    let raw ← tensorRaw file name (rawContext name)
    withCapacity (umul (umul nExperts dim1) localRowBytes)
    Outcome.extendAll (fun e =>
      let expertOffset := umul (umul e dim1) fullRowBytes
      Outcome.extendAll (fun row => do
        let rowFullStart := uadd (uadd expertOffset (umul row fullRowBytes)) colByteOffset
        let rowFullEnd := uadd rowFullStart localRowBytes
        require (rowFullEnd ≤ raw.length) (.message (mmapShort name raw.length rowFullEnd ++
          " (expert " ++ toString e ++ " row " ++ toString row ++ ")"))
        sliceRange raw rowFullStart rowFullEnd) (List.range dim1)) (List.range nExperts)
  | dims => .err (.slice (.notTwoDimensional name dims.length))

structure FusedQkvSpec where
  numVHeads : UInt32
  numKHeads : UInt32
  headVDim : UInt32
  headKDim : UInt32
  kqReplicated : Bool

def indivisibleHeads (label : String) (heads world : UInt32) : String :=
  "FusedQkvParallel: " ++ label ++ " " ++ toString heads ++ " not divisible by world " ++ toString world

def sliceFusedQkvParallel (file : Parsed) (name : String) (world rank : UInt32) (spec : FusedQkvSpec) :
    SliceResult (List UInt8) := do
  require (rank < world) (.slice (.rankOutOfRange rank world))
  require (spec.numVHeads.toNat % world.toNat = 0)
    (.message (indivisibleHeads "num_v_heads" spec.numVHeads world))
  require (spec.kqReplicated = true ∨ spec.numKHeads.toNat % world.toNat = 0)
    (.message (indivisibleHeads "num_k_heads" spec.numKHeads world))
  let info ← tensorInfo file name
  match info.dims with
  | [outerFull, inner] => do
    let vPartFull := umul spec.numVHeads.toNat spec.headVDim.toNat
    let kPartFull := umul spec.numKHeads.toNat spec.headKDim.toNat
    let expectOuter := uadd vPartFull (umul 2 kPartFull)
    require (outerFull = expectOuter) (.message ("FusedQkvParallel: tensor `" ++ name ++ "` outer dim " ++
      toString outerFull ++ " != V_part(" ++ toString vPartFull ++ ") + 2·K_part(" ++ toString kPartFull ++
      ") = " ++ toString expectOuter))
    let blockSize := info.dtype.blockSize
    require (inner % blockSize = 0) (.slice (.innerBlockMisaligned name inner blockSize))
    let rowBytes := umul (inner / blockSize) info.dtype.typeSize
    let raw ← tensorRaw file name (rawContext name)
    require (umul outerFull rowBytes ≤ raw.length)
      (.message (mmapShort name raw.length (umul outerFull rowBytes)))
    let r := rank.toNat
    let vLocalRows := vPartFull / world.toNat
    let kLocalRows := if spec.kqReplicated then kPartFull else kPartFull / world.toNat
    let qOffsetRows := if spec.kqReplicated then 0 else umul r kLocalRows
    let kOffsetRows := if spec.kqReplicated then kPartFull else uadd kPartFull (umul r kLocalRows)
    let vOffsetRows := uadd (umul 2 kPartFull) (umul r vLocalRows)
    let qBytes := umul kLocalRows rowBytes
    let kBytes := umul kLocalRows rowBytes
    let vBytes := umul vLocalRows rowBytes
    withCapacity (uadd (uadd qBytes kBytes) vBytes)
    let q ← sliceRange raw (umul qOffsetRows rowBytes) (umul (uadd qOffsetRows kLocalRows) rowBytes)
    let k ← sliceRange raw (umul kOffsetRows rowBytes) (umul (uadd kOffsetRows kLocalRows) rowBytes)
    let v ← sliceRange raw (umul vOffsetRows rowBytes) (umul (uadd vOffsetRows vLocalRows) rowBytes)
    return q ++ k ++ v
  | dims => .err (.slice (.notTwoDimensional name dims.length))

def sliceRowParallelDim1 (file : Parsed) (name : String) (world rank : UInt32) : SliceResult (List UInt8) := do
  require (rank < world) (.slice (.rankOutOfRange rank world))
  let info ← tensorInfo file name
  match info.dims with
  | [outer, inner] => do
    require (inner % world.toNat = 0) (.slice (.innerIndivisible name inner world))
    let blockSize := info.dtype.blockSize
    let perRankInner := inner / world.toNat
    require (perRankInner % blockSize = 0) (.slice (.innerBlockMisaligned name perRankInner blockSize))
    let typeSize := info.dtype.typeSize
    let fullRowBytes := umul (inner / blockSize) typeSize
    let perRankRowBlocks := perRankInner / blockSize
    let perRankRowBytes := umul perRankRowBlocks typeSize
    let colByteOffset := umul (umul rank.toNat perRankRowBlocks) typeSize
    let raw ← tensorRaw file name (rawContext name)
    require (umul outer fullRowBytes ≤ raw.length)
      (.message (mmapShort name raw.length (umul outer fullRowBytes)))
    withCapacity (umul outer perRankRowBytes)
    Outcome.extendAll (fun row =>
      let rowStart := uadd (umul row fullRowBytes) colByteOffset
      let rowEnd := uadd rowStart perRankRowBytes
      sliceRange raw rowStart rowEnd) (List.range outer)
  | dims => .err (.slice (.notTwoDimensional name dims.length))

def sliceForTp (file : Parsed) (name : String) (layout : WeightLayout) (rank : UInt32) : SliceResult (List UInt8) :=
  match layout with
  | .replicated => tensorRaw file name (rawContext name)
  | .colParallel world 0 => sliceColParallelDim0 file name world rank
  | .rowParallel world 1 => sliceRowParallelDim1 file name world rank
  | .colParallel world 1 => sliceColParallelDim13d file name world rank
  | .rowParallel world 2 => sliceRowParallelDim23d file name world rank
  | .fusedQkvParallel world numVHeads numKHeads headVDim headKDim kqReplicated =>
    sliceFusedQkvParallel file name world rank ⟨numVHeads, numKHeads, headVDim, headKDim, kqReplicated⟩
  | .colParallel _ dim => .err (.slice (.unsupportedAxis "ColParallel" dim))
  | .rowParallel _ dim => .err (.slice (.unsupportedAxis "RowParallel" dim))

/-- An equal part of the bytes for each rank. -/
def bytesPerRank (name : String) (total : Nat) (world : UInt32) : SliceResult Nat :=
  if world = 0 then .fault .divideByZero
  else if total % world.toNat ≠ 0 then
    .err (.message ("tensor `" ++ name ++ "` total bytes " ++ toString total ++ " not divisible by world " ++
      toString world))
  else .ok (total / world.toNat)

/-- `slice_bytes_for_tp`. -/
def sliceBytesForTp (file : Parsed) (name : String) (layout : WeightLayout) : SliceResult Nat := do
  let info ← tensorInfo file name
  let total := info.sizeInBytes
  match layout with
  | .replicated => .ok total
  | .colParallel world _ => bytesPerRank name total world
  | .rowParallel world _ => bytesPerRank name total world
  | .fusedQkvParallel world _ _ _ _ false => bytesPerRank name total world
  | .fusedQkvParallel world numVHeads numKHeads headVDim headKDim true =>
    let vPartRows := umul numVHeads.toNat headVDim.toNat
    let kPartRows := umul numKHeads.toNat headKDim.toNat
    if world = 0 then .fault .divideByZero
    else do
      require (vPartRows % world.toNat = 0) (.message ("tensor `" ++ name ++ "` V_part rows " ++
        toString vPartRows ++ " not divisible by world " ++ toString world))
      let outerFull := uadd vPartRows (umul 2 kPartRows)
      require (outerFull ≠ 0) (.message ("tensor `" ++ name ++ "` outer_full=0"))
      let rowBytes := total / outerFull
      require (total = umul outerFull rowBytes) (.message ("tensor `" ++ name ++ "` total bytes " ++
        toString total ++ " not a multiple of outer_full " ++ toString outerFull ++
        " (row_bytes derivation failed)"))
      let vLocalRows := vPartRows / world.toNat
      .ok (umul (uadd vLocalRows (umul 2 kPartRows)) rowBytes)

end Runtime
end Flambeau
