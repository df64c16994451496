import Flambeau.Quant.GgufFile

namespace Flambeau.Quant
open Systems

/-- The errors of `QuantError` that the header parser does not raise. -/
inductive FileError where
  | io
  | parse (e : QuantError)
  | duplicateTensor (name : String)
deriving DecidableEq

/-- A path by its directory and its file name, where that is text. -/
structure GgufPath where
  dir : String
  fileName : Option (List Char)
deriving DecidableEq

/-- What `File::open` and `Mmap::map` give. -/
abbrev FileSystem := GgufPath → Option Mmap

/-- `str::rsplit_once`. -/
def rsplitOnce (pat : List Char) : List Char → Option (List Char × List Char)
  | [] => none
  | c :: s =>
    match rsplitOnce pat s with
    | some (before, after) => some (c :: before, after)
    | none => if pat.isPrefixOf (c :: s) then some ([], (c :: s).drop pat.length) else none

/-- `str::strip_suffix`. -/
def stripSuffix (suffix s : List Char) : Option (List Char) :=
  if suffix.isSuffixOf s then some (s.take (s.length - suffix.length)) else none

/-- `parse::<usize>`. -/
def parseUsize (s : List Char) : Option Nat :=
  let digits := if s.head? = some '+' then s.tail else s
  if digits.isEmpty || !digits.all Char.isDigit then none
  else
    let n := digits.foldl (fun n c => 10 * n + (c.toNat - '0'.toNat)) 0
    if n < 2 ^ 64 then some n else none

/-- `{i:0width$}`. -/
def padded (width i : Nat) : List Char :=
  let digits := Nat.toDigits 10 i
  List.replicate (width - digits.length) '0' ++ digits

/-- `split_sibling_paths`. -/
def splitSiblingPaths (path : GgufPath) (splitCount : Nat) : Option (List GgufPath) := do
  let fileName ← path.fileName
  let stem ← stripSuffix ".gguf".toList fileName
  let (front, totalStr) ← rsplitOnce "-of-".toList stem
  let (head, partStr) ← rsplitOnce ['-'] front
  let partNum ← parseUsize partStr
  let total ← parseUsize totalStr
  if partNum ≠ 1 ∨ total ≠ splitCount then none
  else
    let width := (partStr.map Char.utf8Size).sum
    some ((List.range' 1 total).map fun i =>
      ⟨path.dir, some (head ++ ['-'] ++ padded width i ++ "-of-".toList ++ totalStr ++ ".gguf".toList)⟩)

namespace HashMap

/-- `values_mut`. -/
def update (m : HashMap V) (f : V → V) : HashMap V := fun k => (m k).map f

def remove (m : HashMap V) (k : String) : HashMap V := fun k' => if k' = k then none else m k'

end HashMap

structure SplitMmap where
  mmap : Mmap
  tensorDataOffset : Nat

structure GgufFile where
  version : GgufVersion
  metadata : HashMap Value
  tensors : HashMap TensorInfo
  tensorOrder : List String
  tensorDataOffset : Nat
  splits : List SplitMmap

namespace TensorInfo

/-- `info.split_idx = i as u16`. -/
def inSplit (i : Nat) (info : TensorInfo) : TensorInfo := { info with splitIdx := i % 2 ^ 16 }

end TensorInfo

/-- `open_one_split`. -/
def openOneSplit (m : Machine) (fs : FileSystem) (path : GgufPath) (i : Nat) :
    Outcome FileError Fault Parsed :=
  match fs path with
  | none => .err .io
  | some mmap =>
    match parseGgufHeader m mmap with
    | .ok parsed => .ok { parsed with tensors := parsed.tensors.update (.inSplit i) }
    | .err e => .err (.parse e)
    | .fault f => .fault f

/-- The merge of a sibling's tensors, in its order. -/
def mergeTensors (i : Nat) (sib : HashMap TensorInfo) (tensors : HashMap TensorInfo)
    (order : List String) : List String → Outcome FileError Fault (HashMap TensorInfo × List String)
  | [] => .ok (tensors, order)
  | name :: names =>
    match sib name with
    | none => mergeTensors i sib tensors order names
    | some info =>
      if (tensors name).isSome then .err (.duplicateTensor name)
      else mergeTensors i (sib.remove name) (tensors.insert name (info.inSplit i)) (order ++ [name]) names

/-- The siblings behind part 0. -/
def mergeSplits (m : Machine) (fs : FileSystem) (file : GgufFile) :
    Nat → List GgufPath → Outcome FileError Fault GgufFile
  | _, [] => .ok file
  | i, sibling :: siblings =>
    (openOneSplit m fs sibling i).bind fun parsed =>
      (mergeTensors i parsed.tensors file.tensors file.tensorOrder parsed.tensorOrder).bind fun merged =>
        mergeSplits m fs
          { file with
            tensors := merged.1
            tensorOrder := merged.2
            splits := file.splits ++ [⟨parsed.mmap, parsed.tensorDataOffset⟩] }
          (i + 1) siblings

/-- `split.count`, where the file is one of many. -/
def siblingPaths (metadata : HashMap Value) (path : GgufPath) : Option (List GgufPath) :=
  let splitCount := ((metadata "split.count").bind Value.asU64).getD 0
  if 1 < splitCount then splitSiblingPaths path splitCount else none

/-- `GgufFile::open`. -/
def GgufFile.open (m : Machine) (fs : FileSystem) (path : GgufPath) : Outcome FileError Fault GgufFile :=
  (openOneSplit m fs path 0).bind fun part0 =>
    let file : GgufFile :=
      ⟨part0.version, part0.metadata, part0.tensors, part0.tensorOrder, part0.tensorDataOffset,
        [⟨part0.mmap, part0.tensorDataOffset⟩]⟩
    match siblingPaths part0.metadata path with
    | none => .ok file
    | some siblings => mergeSplits m fs file 1 (siblings.drop 1)

end Flambeau.Quant
