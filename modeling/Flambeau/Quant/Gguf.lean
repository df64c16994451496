import Mathlib.Data.List.DropRight
import Flambeau.Systems.Layouts
import Flambeau.Systems.Lanes
import Flambeau.Quant.DType

namespace Flambeau.Quant
open Systems

/-- What the parser allocates for. -/
inductive Buffer where
  | bytes
  | dims
  | values
  | metadata
  | tensors
  | tensorOrder
deriving DecidableEq

/-- The machine under the parser: its allocator and its stack. -/
structure Machine where
  /-- Room for that many entries. -/
  grants : Buffer → Nat → Bool
  /-- `isize::MAX` bytes bound any allocation. -/
  bounded : ∀ b n, 2 ^ 63 ≤ n → grants b n = false
  /-- Nested calls of `read_value`. -/
  stack : Nat

/-- What ends the program. -/
inductive Fault where
  | allocation (b : Buffer) (n : Nat)
  | stackOverflow
  | divisionByZero
  | arithmeticOverflow
  | sliceIndex
deriving DecidableEq

inductive QuantError where
  /-- `io::ErrorKind::UnexpectedEof`. -/
  | unexpectedEof
  | dtype (e : DTypeError)
  | badMagic (magic : Nat)
  | unsupportedVersion (version : Nat)
  | invalidValueType (tag : Nat)
  | unknownTensor (name : String)
  | rangeOutOfBounds (name : String) (start len total : Nat)
deriving DecidableEq

inductive GgufVersion where
  | v2
  | v3
deriving DecidableEq

inductive ValueType where
  | u8
  | i8
  | u16
  | i16
  | u32
  | i32
  | f32
  | bool
  | string
  | array
  | u64
  | i64
  | f64
deriving DecidableEq

namespace ValueType

def fromWire : Nat → Except QuantError ValueType
  | 0 => .ok u8
  | 1 => .ok i8
  | 2 => .ok u16
  | 3 => .ok i16
  | 4 => .ok u32
  | 5 => .ok i32
  | 6 => .ok f32
  | 7 => .ok bool
  | 8 => .ok string
  | 9 => .ok array
  | 10 => .ok u64
  | 11 => .ok i64
  | 12 => .ok f64
  | u => .error (.invalidValueType u)

end ValueType

/-- A metadata value, the floats by their bits. -/
inductive Value where
  | u8 (v : UInt8)
  | i8 (v : Int8)
  | u16 (v : UInt16)
  | i16 (v : Int16)
  | u32 (v : UInt32)
  | i32 (v : Int32)
  | u64 (v : UInt64)
  | i64 (v : Int64)
  | f32 (bits : UInt32)
  | f64 (bits : UInt64)
  | bool (b : Bool)
  | string (s : String)
  | array (vs : List Value)

/-- `Value::as_u64`. -/
def Value.asU64 : Value → Option Nat
  | .u64 v => some v.toNat
  | .u32 v => some v.toNat
  | .u16 v => some v.toNat
  | .u8 v => some v.toNat
  | .i64 v => if 0 ≤ v.toInt then some v.toInt.toNat else none
  | .i32 v => if 0 ≤ v.toInt then some v.toInt.toNat else none
  | _ => none

/-- A map from names, by what it finds. -/
abbrev HashMap (V : Type) := String → Option V

namespace HashMap

def empty : HashMap V := fun _ => none

def insert (m : HashMap V) (k : String) (v : V) : HashMap V := fun k' => if k' = k then some v else m k'

end HashMap

structure TensorInfo where
  name : String
  dtype : GgmlDType
  /-- The slowest axis first. -/
  dims : List Nat
  relOffset : Nat
  splitIdx : Nat

namespace TensorInfo

/-- A `u64` product. -/
def elemCount (info : TensorInfo) : Nat := info.dims.foldl (fun n d => n * d % 2 ^ 64) 1

def sizeInBytes (info : TensorInfo) : Nat :=
  info.elemCount / info.dtype.blockSize * info.dtype.typeSize % 2 ^ 64

end TensorInfo

/-- A mapped file. -/
structure Mmap where
  bytes : List UInt8
  fits : bytes.length < 2 ^ 63

abbrev GgufReader (α : Type) := Reader UInt8 QuantError Fault α

/-- An unsigned integer of `width` bytes. -/
def readUint (width : Nat) : GgufReader Nat := do
  let bytes ← Reader.take .unexpectedEof width
  return fromLeBytes bytes

def reserve (m : Machine) (b : Buffer) (n : Nat) : GgufReader Unit :=
  if m.grants b n then pure () else Reader.crash (.allocation b n)

/-- The second byte of a character, as its first one allows. -/
def secondOk (lead b : UInt8) : Bool :=
  if lead = 0xE0 then 0xA0 ≤ b && b ≤ 0xBF
  else if lead = 0xED then 0x80 ≤ b && b ≤ 0x9F
  else if lead = 0xF0 then 0x90 ≤ b && b ≤ 0xBF
  else if lead = 0xF4 then 0x80 ≤ b && b ≤ 0x8F
  else 0x80 ≤ b && b ≤ 0xBF

/-- The bytes that one replacement character stands for. -/
def invalidLen : List UInt8 → Nat
  | lead :: b :: rest =>
    if 0xE0 ≤ lead && lead ≤ 0xEF && secondOk lead b then 2
    else if 0xF0 ≤ lead && lead ≤ 0xF4 && secondOk lead b then
      match rest with
      | b' :: _ => if 0x80 ≤ b' && b' ≤ 0xBF then 3 else 2
      | [] => 2
    else 1
  | _ => 1

def lossyChars : Nat → List UInt8 → List Char
  | 0, _ => []
  | _, [] => []
  | n + 1, bytes =>
    match bytes.toByteArray.utf8DecodeChar? 0 with
    | some c => c :: lossyChars n (bytes.drop c.utf8Size)
    | none => Char.ofNat 0xFFFD :: lossyChars n (bytes.drop (invalidLen bytes))

/-- `String::from_utf8_lossy`. -/
def fromUtf8Lossy (bytes : List UInt8) : String := String.ofList (lossyChars bytes.length bytes)

/-- The text of a string field. -/
def fieldText (buf : List UInt8) : String := fromUtf8Lossy (buf.rdropWhile (· == 0))

def readString (m : Machine) : GgufReader String := do
  let len ← readUint 8
  reserve m .bytes len
  let buf ← Reader.take .unexpectedEof len
  return fieldText buf

/-- `read_value`, with the calls that still fit the stack. -/
def readValue (m : Machine) : Nat → ValueType → GgufReader Value
  | 0, _ => Reader.crash .stackOverflow
  | _ + 1, .u8 => do return .u8 (.ofNat (← readUint 1))
  | _ + 1, .i8 => do return .i8 (UInt8.ofNat (← readUint 1)).toInt8
  | _ + 1, .u16 => do return .u16 (.ofNat (← readUint 2))
  | _ + 1, .i16 => do return .i16 (UInt16.ofNat (← readUint 2)).toInt16
  | _ + 1, .u32 => do return .u32 (.ofNat (← readUint 4))
  | _ + 1, .i32 => do return .i32 (UInt32.ofNat (← readUint 4)).toInt32
  | _ + 1, .f32 => do return .f32 (.ofNat (← readUint 4))
  | _ + 1, .bool => do return .bool ((← readUint 1) != 0)
  | _ + 1, .string => do return .string (← readString m)
  | _ + 1, .u64 => do return .u64 (.ofNat (← readUint 8))
  | _ + 1, .i64 => do return .i64 (UInt64.ofNat (← readUint 8)).toInt64
  | _ + 1, .f64 => do return .f64 (.ofNat (← readUint 8))
  | depth + 1, .array => do
    let innerTag ← readUint 4
    let inner ← Reader.ofExcept (ValueType.fromWire innerTag)
    let len ← readUint 8
    reserve m .values len
    let vs ← (readValue m depth inner).times len
    return .array vs

def magicGguf : Nat := 0x46554747

def defaultAlignment : Nat := 32

/-- One metadata pair. -/
def readEntry (m : Machine) : GgufReader (String × Value) := do
  let key ← readString m
  let tag ← readUint 4
  let vt ← Reader.ofExcept (ValueType.fromWire tag)
  let value ← readValue m m.stack vt
  return (key, value)

/-- One entry of the tensor index. -/
def readTensor (m : Machine) : GgufReader TensorInfo := do
  let name ← readString m
  let nDims ← readUint 4
  reserve m .dims nDims
  let dims ← (readUint 8).times nDims
  let dtypeWire ← readUint 4
  let dtype ← Reader.ofExcept ((GgmlDType.fromWire dtypeWire).mapError .dtype)
  let relOffset ← readUint 8
  return ⟨name, dtype, dims.reverse, relOffset, 0⟩

structure Header where
  version : GgufVersion
  entries : List (String × Value)
  infos : List TensorInfo

/-- The metadata and the tensor index. -/
def readBody (m : Machine) (version : GgufVersion) (tensorCount kvCount : Nat) : GgufReader Header := do
  reserve m .metadata kvCount
  let entries ← (readEntry m).times kvCount
  reserve m .tensors tensorCount
  reserve m .tensorOrder tensorCount
  let infos ← (readTensor m).times tensorCount
  return ⟨version, entries, infos⟩

def versionOf : Nat → Except QuantError GgufVersion
  | 2 => .ok .v2
  | 3 => .ok .v3
  | v => .error (.unsupportedVersion v)

/-- The header up to where the padding starts. -/
def readHeader (m : Machine) : GgufReader Header := do
  let magic ← readUint 4
  if magic ≠ magicGguf then Reader.throw (.badMagic magic)
  else
    let versionRaw ← readUint 4
    let version ← Reader.ofExcept (versionOf versionRaw)
    let tensorCount ← readUint 8
    let kvCount ← readUint 8
    readBody m version tensorCount kvCount

/-- `ParsedSplitTuple`. -/
structure Parsed where
  version : GgufVersion
  mmap : Mmap
  metadata : HashMap Value
  tensors : HashMap TensorInfo
  tensorOrder : List String
  tensorDataOffset : Nat

def Header.metadata (h : Header) : HashMap Value :=
  h.entries.foldl (fun map entry => map.insert entry.1 entry.2) .empty

def Header.tensors (h : Header) : HashMap TensorInfo :=
  h.infos.foldl (fun map info => map.insert info.name info) .empty

def Header.alignment (h : Header) : Nat :=
  ((h.metadata "general.alignment").bind Value.asU64).getD defaultAlignment

/-- `u64::div_ceil`. -/
def divCeil (a b : Nat) : Nat := (a + b - 1) / b

/-- `parse_gguf_header`. -/
def parseGgufHeader (m : Machine) (mmap : Mmap) : Outcome QuantError Fault Parsed :=
  match readHeader m mmap.bytes with
  | .err e => .err e
  | .fault f => .fault f
  | .ok (header, rest) =>
    let headerEnd := mmap.bytes.length - rest.length
    let alignment := header.alignment
    if alignment = 0 then .fault .divisionByZero
    else
      let tensorDataOffset := divCeil headerEnd alignment * alignment
      if 2 ^ 64 ≤ tensorDataOffset then .fault .arithmeticOverflow
      else
        .ok ⟨header.version, mmap, header.metadata, header.tensors, header.infos.map (·.name),
          tensorDataOffset⟩

namespace Parsed

/-- `GgufFile::info`. -/
def info (file : Parsed) (name : String) : Except QuantError TensorInfo :=
  match file.tensors name with
  | some info => .ok info
  | none => .error (.unknownTensor name)

/-- `GgufFile::raw_for`; the sums are `u64` sums. -/
def rawFor (file : Parsed) (info : TensorInfo) (byteStart byteLen : Nat) :
    Outcome QuantError Fault (List UInt8) :=
  let total := info.sizeInBytes
  let finish := min (byteStart + byteLen) (2 ^ 64 - 1)
  if total < finish then .err (.rangeOutOfBounds info.name byteStart byteLen total)
  else
    let absStart := (file.tensorDataOffset + info.relOffset + byteStart) % 2 ^ 64
    let absEnd := (absStart + byteLen) % 2 ^ 64
    if file.mmap.bytes.length < absEnd then
      .err (.rangeOutOfBounds info.name byteStart byteLen
        (file.mmap.bytes.length - (file.tensorDataOffset + info.relOffset) % 2 ^ 64))
    else if absEnd < absStart then .fault .sliceIndex
    else .ok ((file.mmap.bytes.drop absStart).take (absEnd - absStart))

/-- `GgufFile::tensor_raw`. -/
def tensorRaw (file : Parsed) (name : String) : Outcome QuantError Fault (List UInt8) :=
  match file.info name with
  | .error e => .err e
  | .ok info => file.rawFor info 0 info.sizeInBytes

end Parsed
end Flambeau.Quant
