import Flambeau.Runtime.TpSlice
import Flambeau.Forward.Scratch

namespace Flambeau.Forward
open Systems Quant Flambeau.Runtime

/-- The weight types of a matmul kernel. -/
inductive QDtype where
  | q4_0
  | q4_1
  | q5_0
  | q5_1
  | q8_0
  | q2_K
  | q3_K
  | q4_K
  | q5_K
  | q6_K
  | q8_K
  | iq1_S
  | iq1_M
  | iq2_XXS
  | iq2_XS
  | iq2_S
  | iq3_XXS
  | iq3_S
  | iq4_NL
  | iq4_XS
deriving DecidableEq

/-- `{:?}` of a type. -/
def debugDType : GgmlDType → String
  | .f32 => "F32"
  | .f16 => "F16"
  | .bf16 => "BF16"
  | .q4_0 => "Q4_0"
  | .q4_1 => "Q4_1"
  | .q5_0 => "Q5_0"
  | .q5_1 => "Q5_1"
  | .q8_0 => "Q8_0"
  | .q8_1 => "Q8_1"
  | .q2k => "Q2K"
  | .q3k => "Q3K"
  | .q4k => "Q4K"
  | .q5k => "Q5K"
  | .q6k => "Q6K"
  | .q8k => "Q8K"
  | .mxfp4 => "Mxfp4"
  | .iq4Xs => "Iq4Xs"
  | .iq3Xxs => "Iq3Xxs"
  | .iq4Nl => "Iq4Nl"
  | .iq3S => "Iq3S"
  | .iq2Xxs => "Iq2Xxs"
  | .iq2Xs => "Iq2Xs"
  | .iq2S => "Iq2S"
  | .iq1S => "Iq1S"
  | .iq1M => "Iq1M"

inductive DequantError where
  | quant (e : QuantError)
  | elemCountNotDivisible (elemCount blockSize : Nat) (dtype : GgmlDType)
  | byteLenMismatch (got expected : Nat) (dtype : GgmlDType)
deriving DecidableEq

inductive LoadError where
  /-- An error of the file, with its context. -/
  | file (context : String) (e : DequantError)
  | message (text : String)
deriving DecidableEq

abbrev LoadResult (α : Type) := Outcome LoadError TpPanic α

/-- `bail!` where `p` does not hold. -/
def ensure (p : Prop) [Decidable p] (text : String) : LoadResult Unit := if p then .ok () else .err (.message text)

def ggmlToQdtype : GgmlDType → LoadResult QDtype
  | .q4_0 => .ok .q4_0
  | .q4_1 => .ok .q4_1
  | .q5_0 => .ok .q5_0
  | .q5_1 => .ok .q5_1
  | .q8_0 => .ok .q8_0
  | .q2k => .ok .q2_K
  | .q3k => .ok .q3_K
  | .q4k => .ok .q4_K
  | .q5k => .ok .q5_K
  | .q6k => .ok .q6_K
  | .q8k => .ok .q8_K
  | .iq1S => .ok .iq1_S
  | .iq1M => .ok .iq1_M
  | .iq2Xxs => .ok .iq2_XXS
  | .iq2Xs => .ok .iq2_XS
  | .iq2S => .ok .iq2_S
  | .iq3Xxs => .ok .iq3_XXS
  | .iq3S => .ok .iq3_S
  | .iq4Nl => .ok .iq4_NL
  | .iq4Xs => .ok .iq4_XS
  | other => .err (.message ("ggml_to_qdtype: " ++ debugDType other ++ " has no qmatmul kernel; use dequant fallback"))

def dtypeQmatmulNative (dtype : GgmlDType) : Bool :=
  match ggmlToQdtype dtype with
  | .ok _ => true
  | _ => false

/-- The `f32` operations of the quantiser. -/
structure F32Ops (F : Type) where
  zero : F
  abs : F → F
  max : F → F → F
  /-- `absmax / 127.0` -/
  div127 : F → F
  isZero : F → Bool
  /-- `1.0 / d` -/
  recip : F → F
  mul : F → F → F
  toF16Bits : F → UInt16
  /-- `round_ties_even` as `i32` -/
  round : F → Int

/-- A scale and 32 quants. -/
def packBlockQ80 (ops : F32Ops F) (block : List F) : List UInt8 :=
  let absmax := (block.map ops.abs).foldl ops.max ops.zero
  let d := ops.div127 absmax
  let id := if ops.isZero d then ops.zero else ops.recip d
  let bits := ops.toF16Bits d
  bits.toUInt8 :: (bits >>> 8).toUInt8 :: block.map fun v =>
    (Int8.ofInt (max (-127) (min 127 (ops.round (ops.mul v id))))).toUInt8

def quantizeRowQ80 (ops : F32Ops F) (x : List F) : List UInt8 :=
  (List.range (x.length / 32)).flatMap fun b => packBlockQ80 ops ((x.drop (b * 32)).take 32)

/-- The blocks of a buffer, one call of the quantiser for each. -/
def q80Bytes (ops : F32Ops F) (buf : List F) : List UInt8 :=
  (List.range (buf.length / 32)).flatMap fun c => quantizeRowQ80 ops ((buf.drop (c * 32)).take 32)

/-- `f32_to_q8_0_bytes`; its text has the two percent signs. -/
def f32ToQ80Bytes (ops : F32Ops F) (name : String) (buf : List F) : LoadResult (List UInt8) := do
  ensure (buf.length % 32 = 0) (name ++ ": Q8_0 fallback needs len %% 32 == 0 (got " ++ toString buf.length ++ ")")
  return q80Bytes ops buf

/-- The value at a place of a block. -/
abbrev BlockDecoder (F : Type) := GgmlDType → List UInt8 → Nat → F

def dequantizeToVec (decode : BlockDecoder F) (dtype : GgmlDType) (raw : List UInt8) (elemCount : Nat) :
    Outcome DequantError Fault (List F) :=
  if 2 ^ 63 ≤ elemCount * 4 then .fault (.allocation .bytes (elemCount * 4))
  else if elemCount % dtype.blockSize ≠ 0 then .err (.elemCountNotDivisible elemCount dtype.blockSize dtype)
  else if raw.length ≠ umul (elemCount / dtype.blockSize) dtype.typeSize then
    .err (.byteLenMismatch raw.length (umul (elemCount / dtype.blockSize) dtype.typeSize) dtype)
  else .ok ((List.range elemCount).map fun e =>
    decode dtype ((raw.drop (e / dtype.blockSize * dtype.typeSize)).take dtype.typeSize) (e % dtype.blockSize))

/-- `GgufFile::dequantize_tensor`. -/
def dequantizeTensor (decode : BlockDecoder F) (file : Parsed) (name : String) : Outcome DequantError Fault (List F) :=
  match file.info name with
  | .error e => .err (.quant e)
  | .ok info => do
    let raw ← (file.tensorRaw name).relabel .quant id
    dequantizeToVec decode info.dtype raw info.elemCount

namespace Loader

/-- A weight in a buffer, from `offset` on. -/
structure QuantWeight where
  offset : Nat
  dtype : QDtype
  nElems : Nat
deriving DecidableEq

/-- A buffer on the device, and the weights in it. -/
structure Upload where
  bytes : List UInt8
  weights : List QuantWeight
deriving DecidableEq

/-- A buffer that is one weight. -/
def wrapQuant (bytes : List UInt8) (nElems : Nat) (dtype : GgmlDType) : LoadResult Upload := do
  let qd ← ggmlToQdtype dtype
  return ⟨bytes, [⟨0, qd, nElems⟩]⟩

/-- A buffer with a weight for each expert. -/
def wrapExperts (bytes : List UInt8) (nExperts perExpert nElems : Nat) (dtype : GgmlDType) : LoadResult Upload := do
  let qd ← ggmlToQdtype dtype
  return ⟨bytes, (List.range nExperts).map fun e => ⟨umul e perExpert, qd, nElems⟩⟩

/-- `if n % d != 0 { bail!(..) }` -/
def requireMultiple (n d : Nat) (text : String) : LoadResult Unit :=
  if d = 0 then .fault .divideByZero else ensure (n % d = 0) text

def indivisible (name label : String) (n : Nat) (label' : String) (d : Nat) : String :=
  name ++ ": " ++ label ++ " " ++ toString n ++ " not divisible by " ++ label' ++ " " ++ toString d

/-- `&xs[start..end]`. -/
def sliceOf (xs : List α) (start finish : Nat) : LoadResult (List α) :=
  if finish < start ∨ xs.length < finish then .fault .sliceIndex
  else .ok ((xs.drop start).take (finish - start))

def fileInfo (file : Parsed) (name : String) : LoadResult TensorInfo :=
  match file.info name with
  | .ok info => .ok info
  | .error e => .err (.file ("info " ++ name) (.quant e))

def rawTensor (file : Parsed) (name : String) : LoadResult (List UInt8) :=
  (file.tensorRaw name).relabel (fun e => .file ("tensor_raw " ++ name) (.quant e)) .file

/-- `Vec::with_capacity`. -/
def reserve (n : Nat) : LoadResult Unit := if 2 ^ 63 ≤ n then .fault (.capacity n) else .ok ()

/-- The values of a tensor of `n` elements. -/
def valuesOf (decode : BlockDecoder F) (file : Parsed) (name : String) (n : Nat) : LoadResult (List F) := do
  let values ← (dequantizeTensor decode file name).relabel (.file ("dequantize " ++ name)) .file
  ensure (values.length = n) (name ++ ": dequant produced " ++ toString values.length ++
    " elems, expected " ++ toString n)
  return values

structure ShardSpec where
  nRows : Nat
  nCols : Nat
  rank : Nat
  nRanks : Nat

section Matrices
variable (decode : BlockDecoder F) (ops : F32Ops F) (file : Parsed) (name : String) (spec : ShardSpec)

def uploadColShardedQuant : LoadResult Upload := do
  requireMultiple spec.nRows spec.nRanks (indivisible name "n_rows" spec.nRows "n_ranks" spec.nRanks)
  let info ← fileInfo file name
  let rowsPerRank := spec.nRows / spec.nRanks
  if dtypeQmatmulNative info.dtype then do
    let blockSize := info.dtype.blockSize
    requireMultiple spec.nCols blockSize (indivisible name "n_cols" spec.nCols "block_size" blockSize)
    let rowBytes := umul (spec.nCols / blockSize) info.dtype.typeSize
    let raw ← rawTensor file name
    let expectedTotal := umul spec.nRows rowBytes
    ensure (expectedTotal ≤ raw.length) (name ++ ": raw bytes " ++ toString raw.length ++ " < expected " ++
      toString expectedTotal ++ " (n_rows=" ++ toString spec.nRows ++ ", row_bytes=" ++ toString rowBytes ++ ")")
    let start := umul (umul spec.rank rowsPerRank) rowBytes
    let finish := uadd start (umul rowsPerRank rowBytes)
    let bytes ← sliceOf raw start finish
    wrapQuant bytes (umul rowsPerRank spec.nCols) info.dtype
  else do
    let values ← valuesOf decode file name (umul spec.nRows spec.nCols)
    let start := umul (umul spec.rank rowsPerRank) spec.nCols
    let finish := uadd start (umul rowsPerRank spec.nCols)
    let shard ← sliceOf values start finish
    let bytes ← f32ToQ80Bytes ops name shard
    wrapQuant bytes (umul rowsPerRank spec.nCols) .q8_0

def uploadRowShardedQuant : LoadResult Upload := do
  requireMultiple spec.nCols spec.nRanks (indivisible name "n_cols" spec.nCols "n_ranks" spec.nRanks)
  let info ← fileInfo file name
  let colsPerRank := spec.nCols / spec.nRanks
  if dtypeQmatmulNative info.dtype then do
    let blockSize := info.dtype.blockSize
    requireMultiple colsPerRank blockSize (indivisible name "cols_per_rank" colsPerRank "block_size" blockSize)
    let rowBytes := umul (spec.nCols / blockSize) info.dtype.typeSize
    let halfRowBytes := umul (colsPerRank / blockSize) info.dtype.typeSize
    let raw ← rawTensor file name
    reserve (umul spec.nRows halfRowBytes)
    let shard ← Outcome.extendAll (fun r =>
      let rowStart := umul r rowBytes
      let colOffset := umul spec.rank halfRowBytes
      sliceOf raw (uadd rowStart colOffset) (uadd (uadd rowStart colOffset) halfRowBytes)) (List.range spec.nRows)
    wrapQuant shard (umul spec.nRows colsPerRank) info.dtype
  else do
    let values ← valuesOf decode file name (umul spec.nRows spec.nCols)
    let colOffset := umul spec.rank colsPerRank
    reserve (umul spec.nRows colsPerRank * 4)
    let shard ← Outcome.extendAll (fun r =>
      let rowStart := umul r spec.nCols
      sliceOf values (uadd rowStart colOffset) (uadd (uadd rowStart colOffset) colsPerRank)) (List.range spec.nRows)
    let bytes ← f32ToQ80Bytes ops name shard
    wrapQuant bytes (umul spec.nRows colsPerRank) .q8_0

end Matrices

structure MoeStackedShape where
  nExperts : Nat
  dimA : Nat
  dimB : Nat

end Loader

def ShardMode.rank : ShardMode → Nat
  | .replicated => 0
  | .tp rank _ => rank

namespace Loader

section Experts
variable (file : Parsed) (name : String) (shape : MoeStackedShape) (shard : ShardMode)

def notNative (name kind : String) (dtype : GgmlDType) : String :=
  name ++ ": dtype " ++ debugDType dtype ++ " not native — " ++ kind ++ " dequant fallback not implemented"

def rawShort (name : String) (found expected : Nat) (detail : String) : String :=
  name ++ ": raw bytes " ++ toString found ++ " < expected " ++ toString expected ++ " (" ++ detail ++ ")"

def expertDetail (nExperts perExpert : Nat) : String :=
  toString nExperts ++ " experts × " ++ toString perExpert ++ " B"

def uploadMoeExpertsStackedColSharded : LoadResult Upload := do
  requireMultiple shape.dimA shard.nRanks (indivisible name "dim_a" shape.dimA "n_ranks" shard.nRanks)
  let info ← fileInfo file name
  ensure (dtypeQmatmulNative info.dtype = true) (notNative name "MoE sharded-stacked" info.dtype)
  let blockSize := info.dtype.blockSize
  requireMultiple shape.dimB blockSize (indivisible name "dim_b" shape.dimB "block_size" blockSize ++
    " — col-shard requires clean inner-dim alignment")
  let localDimA := shape.dimA / shard.nRanks
  let rowBytes := umul (shape.dimB / blockSize) info.dtype.typeSize
  let fullPerExpert := umul shape.dimA rowBytes
  let localPerExpert := umul localDimA rowBytes
  let raw ← rawTensor file name
  let expected := umul shape.nExperts fullPerExpert
  ensure (expected ≤ raw.length) (rawShort name raw.length expected (expertDetail shape.nExperts fullPerExpert))
  reserve (umul shape.nExperts localPerExpert)
  let host ← Outcome.extendAll (fun e =>
    let off := uadd (umul e fullPerExpert) (umul shard.rank localPerExpert)
    sliceOf raw off (uadd off localPerExpert)) (List.range shape.nExperts)
  wrapExperts host shape.nExperts localPerExpert (umul localDimA shape.dimB) info.dtype

def uploadMoeExpertsStackedRowSharded : LoadResult Upload := do
  requireMultiple shape.dimB shard.nRanks (indivisible name "dim_b" shape.dimB "n_ranks" shard.nRanks)
  let info ← fileInfo file name
  ensure (dtypeQmatmulNative info.dtype = true) (notNative name "MoE sharded-stacked" info.dtype)
  let blockSize := info.dtype.blockSize
  let localDimB := shape.dimB / shard.nRanks
  requireMultiple localDimB blockSize (name ++ ": local_dim_b " ++ toString localDimB ++ " (= " ++
    toString shape.dimB ++ "/" ++ toString shard.nRanks ++ ") not divisible by block_size " ++ toString blockSize)
  let fullRowBytes := umul (shape.dimB / blockSize) info.dtype.typeSize
  let localRowBytes := umul (localDimB / blockSize) info.dtype.typeSize
  let fullPerExpert := umul shape.dimA fullRowBytes
  let localPerExpert := umul shape.dimA localRowBytes
  let raw ← rawTensor file name
  let expected := umul shape.nExperts fullPerExpert
  ensure (expected ≤ raw.length) (rawShort name raw.length expected (expertDetail shape.nExperts fullPerExpert))
  reserve (umul shape.nExperts localPerExpert)
  let host ← Outcome.extendAll (fun e => Outcome.extendAll (fun r =>
    let src := uadd (uadd (umul e fullPerExpert) (umul r fullRowBytes)) (umul shard.rank localRowBytes)
    sliceOf raw src (uadd src localRowBytes)) (List.range shape.dimA)) (List.range shape.nExperts)
  wrapExperts host shape.nExperts localPerExpert (umul shape.dimA localDimB) info.dtype

/-- Two buffers that a loop fills side by side. -/
def extendBoth (gate up : Nat → LoadResult (List UInt8)) : List Nat → LoadResult (List UInt8 × List UInt8)
  | [] => .ok ([], [])
  | e :: es => do
    let gateRows ← gate e
    let upRows ← up e
    let (gateBuf, upBuf) ← extendBoth gate up es
    return (gateRows ++ gateBuf, upRows ++ upBuf)

/-- `upload_moe_experts_fused_gate_up_stacked`; of the shape, `dim_a` is `inter` and `dim_b` is
`hidden`. -/
def uploadMoeExpertsFusedGateUpStacked : LoadResult (Upload × Upload) := do
  requireMultiple shape.dimA shard.nRanks (indivisible name "inter" shape.dimA "n_ranks" shard.nRanks)
  let localInter := shape.dimA / shard.nRanks
  let info ← fileInfo file name
  ensure (dtypeQmatmulNative info.dtype = true) (notNative name "fused gate+up" info.dtype)
  let blockSize := info.dtype.blockSize
  requireMultiple shape.dimB blockSize (indivisible name "hidden" shape.dimB "block_size" blockSize)
  let rowBytes := umul (shape.dimB / blockSize) info.dtype.typeSize
  let fullHalfPerExpert := umul shape.dimA rowBytes
  let fullPerExpert := umul 2 fullHalfPerExpert
  let localHalfPerExpert := umul localInter rowBytes
  let raw ← rawTensor file name
  let expected := umul shape.nExperts fullPerExpert
  ensure (expected ≤ raw.length) (rawShort name raw.length expected (toString shape.nExperts ++ " × 2 × " ++
    toString shape.dimA ++ " × " ++ toString rowBytes))
  reserve (umul shape.nExperts localHalfPerExpert)
  let rankRowOffset := umul (umul shard.rank localInter) rowBytes
  let (gateBuf, upBuf) ← extendBoth
    (fun e =>
      let gateLo := uadd (umul e fullPerExpert) rankRowOffset
      sliceOf raw gateLo (uadd gateLo localHalfPerExpert))
    (fun e =>
      let upLo := uadd (uadd (umul e fullPerExpert) fullHalfPerExpert) rankRowOffset
      sliceOf raw upLo (uadd upLo localHalfPerExpert)) (List.range shape.nExperts)
  let gate ← wrapExperts gateBuf shape.nExperts localHalfPerExpert (umul localInter shape.dimB) info.dtype
  let up ← wrapExperts upBuf shape.nExperts localHalfPerExpert (umul localInter shape.dimB) info.dtype
  return (gate, up)

end Experts

/-- The loaders that shard a weight, each with the shape it is asked for. -/
inductive ShardLoad where
  | colSharded (nRows nCols : Nat)
  | rowSharded (nRows nCols : Nat)
  | stackedColSharded (shape : MoeStackedShape)
  | stackedRowSharded (shape : MoeStackedShape)
  | fusedGateUp (shape : MoeStackedShape)

/-- The buffers that a loader uploads; of a fused tensor the gate and then the up rows. -/
def ShardLoad.uploads (decode : BlockDecoder F) (ops : F32Ops F) (file : Parsed) (name : String) (shard : ShardMode) :
    ShardLoad → LoadResult (List Upload)
  | colSharded nRows nCols => do
    return [← uploadColShardedQuant decode ops file name ⟨nRows, nCols, shard.rank, shard.nRanks⟩]
  | rowSharded nRows nCols => do
    return [← uploadRowShardedQuant decode ops file name ⟨nRows, nCols, shard.rank, shard.nRanks⟩]
  | stackedColSharded shape => do
    return [← uploadMoeExpertsStackedColSharded file name shape shard]
  | stackedRowSharded shape => do
    return [← uploadMoeExpertsStackedRowSharded file name shape shard]
  | fusedGateUp shape => do
    let (gate, up) ← uploadMoeExpertsFusedGateUpStacked file name shape shard
    return [gate, up]

end Loader
end Flambeau.Forward
