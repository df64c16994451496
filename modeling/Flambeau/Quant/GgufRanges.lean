import Flambeau.Systems.Words
import Flambeau.Quant.Gguf

namespace Flambeau.Quant
open Systems

/-- `RangeUnaligned` beside the other errors of the reader. -/
inductive RangeError where
  | quant (e : QuantError)
  | rangeUnaligned (name : String) (dtype : GgmlDType) (typeSize start len : Nat)
deriving DecidableEq

/-- A `u64` product. -/
def umul (a b : Nat) : Nat := a * b % 2 ^ 64

/-- A `u64` sum. -/
def uadd (a b : Nat) : Nat := (a + b) % 2 ^ 64

/-- `GgufFile::tensor_row_range_raw`. -/
def Parsed.tensorRowRangeRaw (file : Parsed) (name : String) (rowStart rowCount : Nat) :
    Outcome RangeError Fault (List UInt8) :=
  match file.info name with
  | .error e => .err (.quant e)
  | .ok info =>
    match info.dims with
    | [rows, cols] =>
      if cols % info.dtype.blockSize ≠ 0 then
        .err (.rangeUnaligned name info.dtype info.dtype.typeSize rowStart rowCount)
      else if rows < uadd rowStart rowCount then .err (.quant (.rangeOutOfBounds name rowStart rowCount rows))
      else
        let bytesPerRow := umul (cols / info.dtype.blockSize) info.dtype.typeSize
        (file.rawFor info (umul rowStart bytesPerRow) (umul rowCount bytesPerRow)).relabel .quant id
    | dims => .err (.quant (.rangeOutOfBounds name rowStart rowCount dims.length))

/-- `u64` arithmetic in a build with overflow checks, or without. -/
abbrev Checked (α : Type) := Outcome RangeError Fault α

def word (o : Overflow) (n : Nat) : Checked Nat := o.word .arithmeticOverflow n

/-- `TensorInfo::size_in_bytes`. -/
def TensorInfo.byteSize (o : Overflow) (info : TensorInfo) : Checked Nat := do
  let elems ← o.product .arithmeticOverflow 1 info.dims
  word o (elems / info.dtype.blockSize * info.dtype.typeSize)

theorem TensorInfo.byteSize_wraps (info : TensorInfo) : info.byteSize .wraps = .ok info.sizeInBytes := by
  unfold TensorInfo.byteSize
  rw [Overflow.product_wraps]
  exact Overflow.word_wraps Fault.arithmeticOverflow _

namespace Parsed

def lookup (file : Parsed) (name : String) : Checked TensorInfo :=
  match file.info name with
  | .ok info => .ok info
  | .error e => .err (.quant e)

/-- `GgufFile::raw_for`, build by build. -/
def rangeFor (o : Overflow) (file : Parsed) (info : TensorInfo) (byteStart byteLen : Nat) :
    Checked (List UInt8) := do
  let total ← info.byteSize o
  let stop := min (byteStart + byteLen) (2 ^ 64 - 1)
  if total < stop then .err (.quant (.rangeOutOfBounds info.name byteStart byteLen total))
  else
    let base ← word o (file.tensorDataOffset + info.relOffset)
    let absStart ← word o (base + byteStart)
    let absEnd ← word o (absStart + byteLen)
    if file.mmap.bytes.length < absEnd then
      .err (.quant (.rangeOutOfBounds info.name byteStart byteLen (file.mmap.bytes.length - base)))
    else if absEnd < absStart then .fault .sliceIndex
    else .ok ((file.mmap.bytes.drop absStart).take (absEnd - absStart))

/-- `GgufFile::raw_range`. -/
def rawRange (o : Overflow) (file : Parsed) (name : String) (byteStart byteLen : Nat) :
    Checked (List UInt8) := do
  let info ← file.lookup name
  file.rangeFor o info byteStart byteLen

/-- `GgufFile::tensor_raw`, build by build. -/
def wholeTensor (o : Overflow) (file : Parsed) (name : String) : Checked (List UInt8) := do
  let info ← file.lookup name
  let size ← info.byteSize o
  file.rangeFor o info 0 size

/-- A range of a tensor's `units`, each of `perUnit` elements: its rows or its
experts. -/
def unitRange (o : Overflow) (file : Parsed) (name : String) (info : TensorInfo)
    (units perUnit start count : Nat) : Checked (List UInt8) :=
  if perUnit % info.dtype.blockSize ≠ 0 then
    .err (.rangeUnaligned name info.dtype info.dtype.typeSize start count)
  else do
    let stop ← word o (start + count)
    if units < stop then .err (.quant (.rangeOutOfBounds name start count units))
    else
      let bytesPerUnit ← word o (perUnit / info.dtype.blockSize * info.dtype.typeSize)
      let byteStart ← word o (start * bytesPerUnit)
      let byteLen ← word o (count * bytesPerUnit)
      file.rawRange o name byteStart byteLen

/-- `GgufFile::tensor_row_range_raw`, build by build. -/
def rowRange (o : Overflow) (file : Parsed) (name : String) (rowStart rowCount : Nat) :
    Checked (List UInt8) := do
  let info ← file.lookup name
  match info.dims with
  | [rows, cols] => file.unitRange o name info rows cols rowStart rowCount
  | dims => .err (.quant (.rangeOutOfBounds name rowStart rowCount dims.length))

/-- `GgufFile::tensor_expert_range_raw`, build by build. -/
def expertRange (o : Overflow) (file : Parsed) (name : String) (eStart eCount : Nat) :
    Checked (List UInt8) := do
  let info ← file.lookup name
  match info.dims with
  | [eTotal, d1, d2] => do
    let perExpertElems ← word o (d1 * d2)
    file.unitRange o name info eTotal perExpertElems eStart eCount
  | dims => .err (.quant (.rangeOutOfBounds name eStart eCount dims.length))

/-- Without overflow checks this is the model of one build. -/
theorem rangeFor_wraps (file : Parsed) (info : TensorInfo) (byteStart byteLen : Nat) :
    file.rangeFor .wraps info byteStart byteLen =
      (file.rawFor info byteStart byteLen).relabel .quant id := by
  have hstart : ((file.tensorDataOffset + info.relOffset) % 2 ^ 64 + byteStart) % 2 ^ 64 =
      (file.tensorDataOffset + info.relOffset + byteStart) % 2 ^ 64 := Nat.mod_add_mod _ _ _
  unfold rangeFor rawFor
  rw [info.byteSize_wraps]
  change (if _ then _ else _) = _
  simp only [word, Overflow.word_wraps]
  split
  · rfl
  · change (if _ then _ else if _ then _ else _) = _
    rw [hstart]
    split
    · rfl
    · split <;> rfl

theorem wholeTensor_wraps (file : Parsed) (name : String) :
    file.wholeTensor .wraps name = (file.tensorRaw name).relabel .quant id := by
  unfold wholeTensor tensorRaw lookup
  cases file.info name with
  | error e => rfl
  | ok info =>
    change (info.byteSize .wraps >>= fun size => file.rangeFor .wraps info 0 size) = _
    rw [info.byteSize_wraps]
    exact rangeFor_wraps file info 0 info.sizeInBytes

theorem rowRange_wraps (file : Parsed) (name : String) (rowStart rowCount : Nat) :
    file.rowRange .wraps name rowStart rowCount = file.tensorRowRangeRaw name rowStart rowCount := by
  unfold rowRange tensorRowRangeRaw lookup
  cases hinfo : file.info name with
  | error e => rfl
  | ok info =>
    change (match info.dims with
      | [rows, cols] => file.unitRange .wraps name info rows cols rowStart rowCount
      | dims => .err (.quant (.rangeOutOfBounds name rowStart rowCount dims.length))) = _
    dsimp only
    rcases hdims : info.dims with _ | ⟨rows, _ | ⟨cols, _ | ⟨d, ds⟩⟩⟩
    · rfl
    · rfl
    · dsimp only
      unfold unitRange rawRange lookup
      rw [hinfo]
      split
      · rfl
      · simp only [word, Overflow.word_wraps]
        change (if _ then _ else _) = _
        split
        · rename_i hlt
          exact (if_pos hlt).symm
        · rename_i hlt
          exact (rangeFor_wraps file info _ _).trans (if_neg hlt).symm
    · rfl

end Parsed
end Flambeau.Quant
