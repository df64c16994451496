import Mathlib.Algebra.BigOperators.Group.List.Basic
import Flambeau.Quant.GgufTotal

namespace Flambeau.Quant
open Systems

/-- A metadata value as a writer has it: an array carries the type of its items. -/
inductive Datum where
  | u8 (v : UInt8)
  | i8 (v : Int8)
  | u16 (v : UInt16)
  | i16 (v : Int16)
  | u32 (v : UInt32)
  | i32 (v : Int32)
  | u64 (v : UInt64)
  | i64 (v : Int64)
  | f32 (bits : UInt32)
  | f64 (bits : UInt64)
  | bool (b : Bool)
  | string (s : String)
  | array (inner : ValueType) (items : List Datum)

def utf8 (s : String) : List UInt8 := s.toList.flatMap String.utf8EncodeChar

/-- A length, then the text. -/
def stringBytes (s : String) : List UInt8 := toLeBytes 8 (utf8 s).length ++ utf8 s

/-- The text does not end in a NUL. -/
def PlainEnd (s : String) : Prop := s.toList.getLast? ≠ some (Char.ofNat 0)

instance (s : String) : Decidable (PlainEnd s) := inferInstanceAs (Decidable (_ ≠ _))

namespace Datum

def kind : Datum → ValueType
  | u8 _ => .u8
  | i8 _ => .i8
  | u16 _ => .u16
  | i16 _ => .i16
  | u32 _ => .u32
  | i32 _ => .i32
  | u64 _ => .u64
  | i64 _ => .i64
  | f32 _ => .f32
  | f64 _ => .f64
  | bool _ => .bool
  | string _ => .string
  | array _ _ => .array

mutual

def value : Datum → Value
  | u8 v => .u8 v
  | i8 v => .i8 v
  | u16 v => .u16 v
  | i16 v => .i16 v
  | u32 v => .u32 v
  | i32 v => .i32 v
  | u64 v => .u64 v
  | i64 v => .i64 v
  | f32 bits => .f32 bits
  | f64 bits => .f64 bits
  | bool b => .bool b
  | string s => .string s
  | array _ items => .array (values items)

def values : List Datum → List Value
  | [] => []
  | d :: ds => d.value :: values ds

end

mutual

def bytes : Datum → List UInt8
  | u8 v => toLeBytes 1 v.toNat
  | i8 v => toLeBytes 1 v.toUInt8.toNat
  | u16 v => toLeBytes 2 v.toNat
  | i16 v => toLeBytes 2 v.toUInt16.toNat
  | u32 v => toLeBytes 4 v.toNat
  | i32 v => toLeBytes 4 v.toUInt32.toNat
  | u64 v => toLeBytes 8 v.toNat
  | i64 v => toLeBytes 8 v.toUInt64.toNat
  | f32 bits => toLeBytes 4 bits.toNat
  | f64 bits => toLeBytes 8 bits.toNat
  | bool b => toLeBytes 1 b.toNat
  | string s => stringBytes s
  | array inner items => toLeBytes 4 inner.toWire ++ toLeBytes 8 items.length ++ allBytes items

def allBytes : List Datum → List UInt8
  | [] => []
  | d :: ds => d.bytes ++ allBytes ds

end

mutual

/-- The nested calls that reading it takes. -/
def depth : Datum → Nat
  | array _ items => allDepth items + 1
  | _ => 1

def allDepth : List Datum → Nat
  | [] => 0
  | d :: ds => max d.depth (allDepth ds)

end

mutual

/-- Texts end plainly and the items of an array are of its type. -/
def WellTyped : Datum → Prop
  | string s => PlainEnd s
  | array inner items => AllTyped inner items
  | _ => True

def AllTyped (inner : ValueType) : List Datum → Prop
  | [] => True
  | d :: ds => d.kind = inner ∧ d.WellTyped ∧ AllTyped inner ds

end

/-- The number an integer stands for, where it is not negative. -/
def natural : Datum → Option Nat
  | u8 v => some v.toNat
  | u16 v => some v.toNat
  | u32 v => some v.toNat
  | u64 v => some v.toNat
  | i8 v => if 0 ≤ v.toInt then some v.toInt.toNat else none
  | i16 v => if 0 ≤ v.toInt then some v.toInt.toNat else none
  | i32 v => if 0 ≤ v.toInt then some v.toInt.toNat else none
  | i64 v => if 0 ≤ v.toInt then some v.toInt.toNat else none
  | _ => none

/-- An integer type that the alignment is not read from. -/
def narrow : Datum → Bool
  | i8 _ | i16 _ => true
  | _ => false

end Datum

theorem utf8_cons (c : Char) (cs : List Char) :
    (c :: cs).flatMap String.utf8EncodeChar = String.utf8EncodeChar c ++ cs.flatMap String.utf8EncodeChar :=
  List.flatMap_cons

theorem lossyChars_utf8 (cs : List Char) {n : Nat} (h : cs.length ≤ n) :
    lossyChars n (cs.flatMap String.utf8EncodeChar) = cs := by
  induction cs generalizing n with
  | nil => cases n <;> rfl
  | cons c cs ih =>
    cases n with
    | zero => cases h
    | succ n =>
      have hdecode : ((c :: cs).flatMap String.utf8EncodeChar).toByteArray.utf8DecodeChar? 0 = some c := by
        rw [utf8_cons, List.toByteArray_append]
        exact ByteArray.utf8DecodeChar?_utf8EncodeChar_append
      have hdrop : ((c :: cs).flatMap String.utf8EncodeChar).drop c.utf8Size =
          cs.flatMap String.utf8EncodeChar := by
        rw [utf8_cons, ← String.length_utf8EncodeChar c, List.drop_left]
      cases hbytes : (c :: cs).flatMap String.utf8EncodeChar with
      | nil =>
        have hlen := congrArg List.length hbytes
        rw [utf8_cons, List.length_append, String.length_utf8EncodeChar] at hlen
        have hpos := c.utf8Size_pos
        simp at hlen
        omega
      | cons b bs =>
        rw [hbytes] at hdecode hdrop
        rw [lossyChars, hdecode]
        · dsimp only
          rw [hdrop, ih (Nat.le_of_succ_le_succ h)]
        · exact List.cons_ne_nil b bs

theorem length_le_utf8 (cs : List Char) : cs.length ≤ (cs.flatMap String.utf8EncodeChar).length := by
  induction cs with
  | nil => exact Nat.le_refl 0
  | cons c cs ih =>
    have hpos := c.utf8Size_pos
    rw [utf8_cons, List.length_append, String.length_utf8EncodeChar, List.length_cons]
    omega

/-- Only a NUL's encoding ends in a zero byte. -/
theorem utf8EncodeChar_last {c : Char} (h : (String.utf8EncodeChar c).getLast? = some 0) : c = Char.ofNat 0 := by
  have hcontinued : ∀ v : Nat, UInt8.ofNat (v % 64 + 128) ≠ 0 := by
    intro v hzero
    have hval := congrArg UInt8.toNat hzero
    rw [UInt8.toNat_ofNat'] at hval
    change (v % 64 + 128) % 256 = 0 at hval
    omega
  unfold String.utf8EncodeChar at h
  dsimp only at h
  split at h
  · rename_i hascii
    have hval : (UInt8.ofNat c.val.toNat).toNat = 0 := congrArg UInt8.toNat (Option.some.inj h)
    rw [UInt8.toNat_ofNat'] at hval
    apply Char.ext
    apply UInt32.toNat_inj.mp
    change c.val.toNat = 0
    omega
  · split at h
    · exact absurd (Option.some.inj h) (hcontinued _)
    · split at h
      · exact absurd (Option.some.inj h) (hcontinued _)
      · exact absurd (Option.some.inj h) (hcontinued _)

theorem fieldText_utf8 {s : String} (h : PlainEnd s) : fieldText (utf8 s) = s := by
  have hkeep : (utf8 s).rdropWhile (· == 0) = utf8 s := by
    rw [List.rdropWhile_eq_self_iff]
    intro hne hzero
    have hlast : (utf8 s).getLast? = some 0 := by
      rw [List.getLast?_eq_some_getLast hne]
      exact congrArg some (beq_iff_eq.mp hzero)
    rcases List.eq_nil_or_concat s.toList with hnil | ⟨cs, c, hcs⟩
    · exact hne (by rw [utf8, hnil]; rfl)
    · rw [utf8, hcs, List.concat_eq_append, List.flatMap_append, List.flatMap_singleton] at hlast
      have hchar : String.utf8EncodeChar c ≠ [] := fun hnil => by
        have hlen := congrArg List.length hnil
        rw [String.length_utf8EncodeChar] at hlen
        exact absurd hlen (Nat.ne_of_gt c.utf8Size_pos)
      rw [List.getLast?_append_of_ne_nil _ hchar] at hlast
      apply h
      rw [hcs, List.concat_eq_append, List.getLast?_concat, utf8EncodeChar_last hlast]
  unfold fieldText fromUtf8Lossy
  rw [hkeep, utf8, lossyChars_utf8 _ (length_le_utf8 _)]
  exact String.ofList_toList

/-- Memory for anything that a mapped file can announce truthfully. -/
def Machine.Roomy (m : Machine) : Prop := ∀ b n, n < 2 ^ 63 → m.grants b n = true

theorem string_layout {m : Machine} (hroom : m.Roomy) {s : String} (h : PlainEnd s)
    (hlen : (stringBytes s).length < 2 ^ 63) : stringLayout m s (stringBytes s) := by
  unfold stringBytes at hlen
  rw [List.length_append, toLeBytes_length] at hlen
  exact ⟨utf8 s, Nat.lt_trans (show (utf8 s).length < 2 ^ 63 by omega) (by decide), hroom _ _ (by omega),
    (fieldText_utf8 h).symm, rfl⟩

namespace Datum

theorem bytes_pos (d : Datum) : 0 < d.bytes.length := by
  cases d <;> simp only [bytes, stringBytes, List.length_append, toLeBytes_length] <;> omega

theorem length_values (ds : List Datum) : (values ds).length = ds.length := by
  induction ds with
  | nil => simp [values]
  | cons d ds ih => simp [values, ih]

theorem length_le_allBytes (ds : List Datum) : ds.length ≤ (allBytes ds).length := by
  induction ds with
  | nil => simp
  | cons d ds ih =>
    have hpos := d.bytes_pos
    simp only [allBytes, List.length_append, List.length_cons]
    omega

theorem scalar_layout (m : Machine) (depth : Nat) {d : Datum} {n : Nat} (hn : n < 256 ^ d.kind.width)
    (hvalue : d.value = d.kind.ofBits n) (hbytes : d.bytes = toLeBytes d.kind.width n)
    (hstring : d.kind ≠ .string) (harray : d.kind ≠ .array) :
    valueLayout m (depth + 1) d.kind d.value d.bytes := by
  rw [hvalue, hbytes]
  cases d with
  | string s => exact absurd rfl hstring
  | array inner items => exact absurd rfl harray
  | _ => exact ⟨n, hn, rfl, rfl⟩

mutual

/-- What a writer writes for a value is laid out as the value. -/
theorem layout {m : Machine} (hroom : m.Roomy) (depth : Nat) (d : Datum) (htyped : d.WellTyped)
    (hlen : d.bytes.length < 2 ^ 63) (hdepth : d.depth ≤ depth) :
    valueLayout m depth d.kind d.value d.bytes := by
  cases depth with
  | zero => cases d <;> simp [Datum.depth] at hdepth
  | succ depth =>
    match d with
    | .u8 v => exact scalar_layout m depth v.toNat_lt (by simp [value, kind, ValueType.ofBits]) rfl nofun nofun
    | .i8 v =>
      exact scalar_layout m depth v.toUInt8.toNat_lt (by simp [value, kind, ValueType.ofBits]) rfl nofun nofun
    | .u16 v => exact scalar_layout m depth v.toNat_lt (by simp [value, kind, ValueType.ofBits]) rfl nofun nofun
    | .i16 v =>
      exact scalar_layout m depth v.toUInt16.toNat_lt (by simp [value, kind, ValueType.ofBits]) rfl nofun nofun
    | .u32 v => exact scalar_layout m depth v.toNat_lt (by simp [value, kind, ValueType.ofBits]) rfl nofun nofun
    | .i32 v =>
      exact scalar_layout m depth v.toUInt32.toNat_lt (by simp [value, kind, ValueType.ofBits]) rfl nofun nofun
    | .u64 v => exact scalar_layout m depth v.toNat_lt (by simp [value, kind, ValueType.ofBits]) rfl nofun nofun
    | .i64 v =>
      exact scalar_layout m depth v.toUInt64.toNat_lt (by simp [value, kind, ValueType.ofBits]) rfl nofun nofun
    | .f32 bits =>
      exact scalar_layout m depth bits.toNat_lt (by simp [value, kind, ValueType.ofBits]) rfl nofun nofun
    | .f64 bits =>
      exact scalar_layout m depth bits.toNat_lt (by simp [value, kind, ValueType.ofBits]) rfl nofun nofun
    | .bool b =>
      exact scalar_layout m depth (n := b.toNat) (by cases b <;> decide)
        (by cases b <;> rfl) rfl nofun nofun
    | .string s => exact ⟨s, rfl, string_layout hroom htyped hlen⟩
    | .array inner items =>
      simp only [WellTyped] at htyped
      simp only [bytes, List.length_append, toLeBytes_length] at hlen
      simp only [Datum.depth] at hdepth
      have hcount := length_le_allBytes items
      obtain ⟨parts, hparts, hflatten⟩ := allLayout hroom depth inner items htyped (by omega) (by omega)
      refine ⟨inner, values items, allBytes items, by simp [value], ?_, ?_, ⟨rfl, parts, hparts, hflatten⟩, ?_⟩
      · rw [length_values]
        exact Nat.lt_trans (show items.length < 2 ^ 63 by omega) (by decide)
      · rw [length_values]
        exact hroom _ _ (by omega)
      · rw [length_values]
        simp [bytes]

theorem allLayout {m : Machine} (hroom : m.Roomy) (depth : Nat) (inner : ValueType) (ds : List Datum)
    (htyped : AllTyped inner ds) (hlen : (allBytes ds).length < 2 ^ 63) (hdepth : allDepth ds ≤ depth) :
    ∃ parts, List.Forall₂ (valueLayout m depth inner) (values ds) parts ∧ allBytes ds = parts.flatten := by
  match ds with
  | [] =>
    refine ⟨[], ?_, by simp [allBytes]⟩
    simp only [values]
    exact .nil
  | d :: ds =>
    simp only [AllTyped] at htyped
    simp only [allBytes, List.length_append] at hlen
    simp only [allDepth] at hdepth
    obtain ⟨hkind, hd, hds⟩ := htyped
    have hhead := layout hroom depth d hd (by omega) (by omega)
    obtain ⟨parts, hparts, hflatten⟩ := allLayout hroom depth inner ds hds (by omega) (by omega)
    rw [hkind] at hhead
    refine ⟨d.bytes :: parts, ?_, by simp [allBytes, hflatten]⟩
    simp only [values]
    exact .cons hhead hparts

end

end Datum

/-- A tensor of the index: a name, and sizes whose product is a `u64`. -/
structure TensorSpec where
  name : String
  dtype : GgmlDType
  /-- The slowest axis first. -/
  dims : List Nat
  relOffset : Nat
  plainName : PlainEnd name
  rank : dims.length < 256 ^ 4
  sizes : ∀ n ∈ dims, n < 256 ^ 8
  count : dims.prod < 2 ^ 64
  offset : relOffset < 256 ^ 8

namespace TensorSpec

def info (t : TensorSpec) : TensorInfo := ⟨t.name, t.dtype, t.dims, t.relOffset, 0⟩

/-- The bytes of its blocks. -/
def size (t : TensorSpec) : Nat := t.dims.prod / t.dtype.blockSize * t.dtype.typeSize

def sizesBytes (t : TensorSpec) : List UInt8 := (t.dims.reverse.map (toLeBytes 8)).flatten

/-- Its entry of the index, the fastest axis first. -/
def bytes (t : TensorSpec) : List UInt8 :=
  stringBytes t.name ++ toLeBytes 4 t.dims.length ++ t.sizesBytes ++ toLeBytes 4 t.dtype.toWire ++
    toLeBytes 8 t.relOffset

/-- Its bytes in the data section. -/
def payload (t : TensorSpec) (data : List UInt8) : List UInt8 := (data.drop t.relOffset).take t.size

end TensorSpec

def entryBytes (e : String × Datum) : List UInt8 :=
  stringBytes e.1 ++ toLeBytes 4 e.2.kind.toWire ++ e.2.bytes

def findEntry (entries : List (String × Datum)) (key : String) : Option Datum :=
  (entries.find? (·.1 == key)).map (·.2)

/-- The alignment that the metadata declares. -/
def declaredAlignment (entries : List (String × Datum)) : Nat :=
  ((findEntry entries "general.alignment").bind Datum.natural).getD defaultAlignment

/-- What a file is to hold: the metadata and the tensor index. -/
structure GgufSpec where
  version : GgufVersion
  metadata : List (String × Datum)
  tensors : List TensorSpec
  distinctKeys : (metadata.map (·.1)).Nodup
  wellTyped : ∀ e ∈ metadata, PlainEnd e.1 ∧ e.2.WellTyped
  distinctNames : (tensors.map (·.name)).Nodup
  /-- A declared alignment is a power of two. -/
  alignmentPower : ∀ d, findEntry metadata "general.alignment" = some d → ∃ k, d.natural = some (2 ^ k)
  aligned : ∀ t ∈ tensors, declaredAlignment metadata ∣ t.relOffset

namespace GgufSpec

def alignment (spec : GgufSpec) : Nat := declaredAlignment spec.metadata

/-- Preamble, metadata, tensor index. -/
def head (spec : GgufSpec) : List UInt8 :=
  preamble spec.version spec.tensors.length spec.metadata.length ++
    ((spec.metadata.map entryBytes).flatten ++ (spec.tensors.map TensorSpec.bytes).flatten)

/-- The data section starts at the next multiple of the alignment. -/
def dataStart (spec : GgufSpec) : Nat := divCeil spec.head.length spec.alignment * spec.alignment

def fileBytes (spec : GgufSpec) (data : List UInt8) : List UInt8 :=
  spec.head ++ (List.replicate (spec.dataStart - spec.head.length) 0 ++ data)

/-- The data section holds every payload. -/
def HasRoom (spec : GgufSpec) (data : List UInt8) : Prop :=
  ∀ t ∈ spec.tensors, t.relOffset + t.size ≤ data.length

instance (spec : GgufSpec) (data : List UInt8) : Decidable (spec.HasRoom data) :=
  inferInstanceAs (Decidable (∀ t ∈ spec.tensors, _))

/-- The nested calls that reading the metadata takes. -/
def depth (spec : GgufSpec) : Nat := Datum.allDepth (spec.metadata.map (·.2))

/-- The header that the bytes stand for. -/
def header (spec : GgufSpec) : Header :=
  ⟨spec.version, spec.metadata.map fun e => (e.1, e.2.value), spec.tensors.map TensorSpec.info⟩

/-- The alignment that the parser sees in the metadata. -/
def readAlignment (spec : GgufSpec) : Nat :=
  ((findEntry spec.metadata "general.alignment").bind fun d => d.value.asU64).getD defaultAlignment

/-- The alignment is there in an integer type that it is not read from. -/
def NarrowAlignment (spec : GgufSpec) : Prop :=
  ∃ d, findEntry spec.metadata "general.alignment" = some d ∧ d.narrow = true

/-- Where the data section would start for a file that declares no alignment. -/
def defaultStart (spec : GgufSpec) : Nat := divCeil spec.head.length defaultAlignment * defaultAlignment

/-- The parser finds this metadata and these tensors in a file, and each payload. -/
def RoundTrips (m : Machine) (spec : GgufSpec) (data : List UInt8) (mmap : Mmap) : Prop :=
  ∃ file, parseGgufHeader m mmap = .ok file ∧ file.version = spec.version ∧
    (∀ key, file.metadata key = (findEntry spec.metadata key).map Datum.value) ∧
    (∀ name, file.tensors name = (spec.tensors.find? (·.name == name)).map TensorSpec.info) ∧
    file.tensorOrder = spec.tensors.map (·.name) ∧
    ∀ t ∈ spec.tensors, file.tensorRaw t.name = .ok (t.payload data)

end GgufSpec

theorem prod_fold (dims : List Nat) (n : Nat) :
    dims.foldl (fun n d => n * d % 2 ^ 64) (n % 2 ^ 64) = n * dims.prod % 2 ^ 64 := by
  induction dims generalizing n with
  | nil => simp
  | cons d dims ih =>
    rw [List.foldl_cons, List.prod_cons, Nat.mod_mul_mod, ih, Nat.mul_assoc]

namespace TensorSpec

theorem elemCount_eq (t : TensorSpec) : t.info.elemCount = t.dims.prod := by
  have hfold := prod_fold t.dims 1
  rw [Nat.one_mul, Nat.mod_eq_of_lt t.count] at hfold
  exact hfold

theorem sizeInBytes_eq (t : TensorSpec) (h : t.size < 2 ^ 64) : t.info.sizeInBytes = t.size := by
  unfold TensorInfo.sizeInBytes
  rw [elemCount_eq]
  exact Nat.mod_eq_of_lt h

theorem layout {m : Machine} (hroom : m.Roomy) (t : TensorSpec) (hlen : t.bytes.length < 2 ^ 63) :
    tensorLayout m t.info t.bytes := by
  have hname : (stringBytes t.name).length < 2 ^ 63 := by
    unfold bytes at hlen
    simp only [List.length_append] at hlen
    omega
  have hrank : t.dims.length < 2 ^ 63 := Nat.lt_trans t.rank (by decide)
  have hsizes : (wordLayout 8).many t.dims.length t.dims.reverse t.sizesBytes := by
    have hmany : (wordLayout 8).many t.dims.reverse.length (t.dims.reverse.map id)
        (t.dims.reverse.map (toLeBytes 8)).flatten :=
      Layout.many_map id (toLeBytes 8) fun n hn => ⟨t.sizes n (List.mem_reverse.mp hn), rfl⟩
    rwa [List.length_reverse, List.map_id] at hmany
  exact ⟨stringBytes t.name, t.sizesBytes, string_layout hroom t.plainName hname, t.rank, hroom _ _ hrank,
    hsizes, t.offset, rfl, rfl⟩

end TensorSpec

theorem length_le_flatten {parts : List (List UInt8)} (h : ∀ p ∈ parts, 0 < p.length) :
    parts.length ≤ parts.flatten.length := by
  induction parts with
  | nil => exact Nat.le_refl 0
  | cons p parts ih =>
    have hhead := h p List.mem_cons_self
    have htail := ih fun p hp => h p (List.mem_cons_of_mem _ hp)
    rw [List.flatten_cons, List.length_append, List.length_cons]
    omega

theorem length_of_mem_flatten {parts : List (List UInt8)} {p : List UInt8} (h : p ∈ parts) :
    p.length ≤ parts.flatten.length :=
  (List.sublist_flatten_of_mem h).length_le

theorem entry_layout {m : Machine} (hroom : m.Roomy) {e : String × Datum} (hkey : PlainEnd e.1)
    (htyped : e.2.WellTyped) (hlen : (entryBytes e).length < 2 ^ 63) (hdepth : e.2.depth ≤ m.stack) :
    entryLayout m (e.1, e.2.value) (entryBytes e) := by
  unfold entryBytes at hlen
  simp only [List.length_append] at hlen
  have hkeyLen : (stringBytes e.1).length < 2 ^ 63 := by omega
  exact ⟨e.2.kind, stringBytes e.1, e.2.bytes, string_layout hroom hkey hkeyLen,
    Datum.layout hroom m.stack e.2 htyped (by omega) hdepth, rfl⟩

theorem depth_le_all {ds : List Datum} {d : Datum} (h : d ∈ ds) : d.depth ≤ Datum.allDepth ds := by
  induction ds with
  | nil => cases h
  | cons d' ds ih =>
    rw [Datum.allDepth]
    rcases List.mem_cons.mp h with rfl | h
    · exact Nat.le_max_left _ _
    · exact Nat.le_trans (ih h) (Nat.le_max_right _ _)

namespace GgufSpec

theorem header_layout {m : Machine} (hroom : m.Roomy) (spec : GgufSpec) (hstack : spec.depth ≤ m.stack)
    (hlen : spec.head.length < 2 ^ 63) : headerLayout m spec.header spec.head := by
  have hparts := hlen
  unfold head at hparts
  simp only [List.length_append] at hparts
  have hentries : spec.metadata.length ≤ (spec.metadata.map entryBytes).flatten.length := by
    have hle := length_le_flatten fun p (hp : p ∈ spec.metadata.map entryBytes) => by
      obtain ⟨e, -, rfl⟩ := List.mem_map.mp hp
      simp only [entryBytes, stringBytes, List.length_append, toLeBytes_length]
      omega
    rwa [List.length_map] at hle
  have htensors : spec.tensors.length ≤ (spec.tensors.map TensorSpec.bytes).flatten.length := by
    have hle := length_le_flatten fun p (hp : p ∈ spec.tensors.map TensorSpec.bytes) => by
      obtain ⟨t, -, rfl⟩ := List.mem_map.mp hp
      simp only [TensorSpec.bytes, stringBytes, List.length_append, toLeBytes_length]
      omega
    rwa [List.length_map] at hle
  have hentryLayouts : (entryLayout m).many spec.metadata.length
      (spec.metadata.map fun e => (e.1, e.2.value)) (spec.metadata.map entryBytes).flatten := by
    refine Layout.many_map _ _ fun e he => ?_
    have hle := length_of_mem_flatten (List.mem_map_of_mem (f := entryBytes) he)
    have hdepth := depth_le_all (List.mem_map_of_mem (f := fun e : String × Datum => e.2) he)
    exact entry_layout hroom (spec.wellTyped e he).1 (spec.wellTyped e he).2 (by omega)
      (Nat.le_trans hdepth hstack)
  have htensorLayouts : (tensorLayout m).many spec.tensors.length (spec.tensors.map TensorSpec.info)
      (spec.tensors.map TensorSpec.bytes).flatten := by
    refine Layout.many_map _ _ fun t ht => ?_
    have hle := length_of_mem_flatten (List.mem_map_of_mem (f := TensorSpec.bytes) ht)
    exact t.layout hroom (by omega)
  have hsmall : (2 : Nat) ^ 63 < 256 ^ 8 := by decide
  have hsame : spec.header.entries.length = spec.metadata.length := List.length_map _
  have hsame' : spec.header.infos.length = spec.tensors.length := List.length_map _
  refine ⟨(spec.metadata.map entryBytes).flatten ++ (spec.tensors.map TensorSpec.bytes).flatten, ?_, ?_, ?_, ?_⟩
  · omega
  · omega
  · rw [hsame, hsame']
    exact ⟨_, _, rfl, hroom _ _ (by omega), hentryLayouts, hroom _ _ (by omega), hroom _ _ (by omega),
      htensorLayouts, rfl⟩
  · rw [hsame, hsame']
    rfl

end GgufSpec

/-- A map filled from a list with distinct names finds the entry of a name. -/
theorem foldl_insert {xs : List γ} (name : γ → String) (f : γ → V) (hdistinct : (xs.map name).Nodup)
    (map : HashMap V) (key : String) :
    (xs.foldl (fun map x => map.insert (name x) (f x)) map) key =
      ((xs.find? (name · == key)).map f).or (map key) := by
  induction xs generalizing map with
  | nil => rfl
  | cons x xs ih =>
    obtain ⟨hnot, htail⟩ := List.nodup_cons.mp hdistinct
    rw [List.foldl_cons, ih htail]
    by_cases hkey : name x = key
    · subst hkey
      have hnone : xs.find? (name · == name x) = none := List.find?_eq_none.mpr fun y hy hsame =>
        hnot (List.mem_map.mpr ⟨y, hy, beq_iff_eq.mp hsame⟩)
      rw [hnone, List.find?_cons_of_pos (by simp)]
      simp [HashMap.insert]
    · rw [List.find?_cons_of_neg (by simpa using hkey)]
      have hother : ¬ key = name x := fun h => hkey h.symm
      simp [HashMap.insert, hother]

/-- The whole of a tensor is its range of the file, when the range does not wrap. -/
theorem Parsed.rawFor_whole {file : Parsed} {info : TensorInfo}
    (h : file.tensorDataOffset + info.relOffset + info.sizeInBytes < 2 ^ 64) :
    file.rawFor info 0 info.sizeInBytes =
      if file.mmap.bytes.length < file.tensorDataOffset + info.relOffset + info.sizeInBytes then
        .err (.rangeOutOfBounds info.name 0 info.sizeInBytes
          (file.mmap.bytes.length - (file.tensorDataOffset + info.relOffset)))
      else .ok ((file.mmap.bytes.drop (file.tensorDataOffset + info.relOffset)).take info.sizeInBytes) := by
  have hmin : min info.sizeInBytes (2 ^ 64 - 1) = info.sizeInBytes := by omega
  have habs : (file.tensorDataOffset + info.relOffset) % 2 ^ 64 = file.tensorDataOffset + info.relOffset :=
    Nat.mod_eq_of_lt (by omega)
  have hend : (file.tensorDataOffset + info.relOffset + info.sizeInBytes) % 2 ^ 64 =
      file.tensorDataOffset + info.relOffset + info.sizeInBytes := Nat.mod_eq_of_lt h
  unfold rawFor
  simp only [Nat.zero_add, Nat.add_zero, hmin, habs, hend, Nat.lt_irrefl, if_false, Nat.add_sub_cancel_left,
    Nat.not_lt.mpr (Nat.le_add_right _ _)]

namespace GgufSpec

theorem header_metadata (spec : GgufSpec) (key : String) :
    spec.header.metadata key = (findEntry spec.metadata key).map Datum.value := by
  unfold Header.metadata header findEntry
  rw [List.foldl_map, foldl_insert (fun e : String × Datum => e.1) (fun e => e.2.value) spec.distinctKeys]
  simp [HashMap.empty, Option.map_map, Function.comp_def]

theorem header_tensors (spec : GgufSpec) (name : String) :
    spec.header.tensors name = (spec.tensors.find? (·.name == name)).map TensorSpec.info := by
  unfold Header.tensors header
  rw [List.foldl_map]
  refine (foldl_insert TensorSpec.name TensorSpec.info spec.distinctNames HashMap.empty name).trans ?_
  simp [HashMap.empty]

theorem header_alignment (spec : GgufSpec) : spec.header.alignment = spec.readAlignment := by
  unfold Header.alignment readAlignment
  rw [header_metadata]
  cases findEntry spec.metadata "general.alignment" <;> rfl

theorem find_tensor (spec : GgufSpec) (ht : t ∈ spec.tensors) : spec.tensors.find? (·.name == t.name) = some t := by
  have hdistinct := spec.distinctNames
  generalize spec.tensors = ts at ht hdistinct
  induction ts with
  | nil => cases ht
  | cons x ts ih =>
    obtain ⟨hnot, htail⟩ := List.nodup_cons.mp hdistinct
    rcases List.mem_cons.mp ht with rfl | hin
    · exact List.find?_cons_of_pos (by simp)
    · rw [List.find?_cons_of_neg, ih hin htail]
      intro hsame
      exact hnot (List.mem_map.mpr ⟨t, hin, (beq_iff_eq.mp hsame).symm⟩)

/-- Where the parser takes the data section to start. -/
def readStart (spec : GgufSpec) : Nat := divCeil spec.head.length spec.readAlignment * spec.readAlignment

/-- The file that the parser finds. -/
def parsed (spec : GgufSpec) (mmap : Mmap) : Parsed :=
  ⟨spec.version, mmap, spec.header.metadata, spec.header.tensors, spec.tensors.map (·.name), spec.readStart⟩

theorem asU64_of_natural {d : Datum} (h : d.natural = some n) : d.value.asU64 = some n ∨ d.value.asU64 = none := by
  cases d <;> simp_all [Datum.natural, Datum.value, Value.asU64]

theorem readAlignment_pos (spec : GgufSpec) : 0 < spec.readAlignment := by
  unfold readAlignment
  cases hfind : findEntry spec.metadata "general.alignment" with
  | none => decide
  | some d =>
    obtain ⟨k, hk⟩ := spec.alignmentPower d hfind
    rcases asU64_of_natural hk with hsome | hnone
    · change 0 < d.value.asU64.getD defaultAlignment
      rw [hsome]
      exact Nat.two_pow_pos k
    · change 0 < d.value.asU64.getD defaultAlignment
      rw [hnone]
      decide

theorem parse_file {m : Machine} (hroom : m.Roomy) (spec : GgufSpec) (hstack : spec.depth ≤ m.stack)
    {data : List UInt8} {mmap : Mmap} (hbytes : mmap.bytes = spec.fileBytes data) :
    parseGgufHeader m mmap = .ok (spec.parsed mmap) := by
  have hfits := mmap.fits
  have hlen : spec.head.length < 2 ^ 63 := by
    rw [hbytes] at hfits
    unfold fileBytes at hfits
    rw [List.length_append] at hfits
    omega
  have hread := ((readHeader_reads m).ok mmap.bytes spec.header _).mpr
    ⟨spec.head, spec.header_layout hroom hstack hlen, hbytes⟩
  have hend : mmap.bytes.length -
      (List.replicate (spec.dataStart - spec.head.length) 0 ++ data).length = spec.head.length := by
    rw [hbytes]
    unfold fileBytes
    rw [List.length_append, Nat.add_sub_cancel]
  have halign : spec.readAlignment < 2 ^ 64 := by
    rw [← header_alignment]
    exact spec.header.alignment_lt
  have hstart : divCeil spec.head.length spec.readAlignment * spec.readAlignment < 2 ^ 64 :=
    divCeil_mul_lt (by omega) halign spec.readAlignment_pos
  unfold parseGgufHeader
  rw [hread]
  dsimp only
  rw [hend, header_alignment, if_neg (Nat.ne_of_gt spec.readAlignment_pos), if_neg (Nat.not_le.mpr hstart)]
  unfold parsed header readStart
  rw [List.map_map]
  rfl

theorem alignment_pos (spec : GgufSpec) : 0 < spec.alignment := by
  unfold alignment declaredAlignment
  cases hfind : findEntry spec.metadata "general.alignment" with
  | none => decide
  | some d =>
    obtain ⟨k, hk⟩ := spec.alignmentPower d hfind
    change 0 < d.natural.getD defaultAlignment
    rw [hk]
    exact Nat.two_pow_pos k

theorem head_le_start (spec : GgufSpec) : spec.head.length ≤ spec.dataStart := by
  have hpos := spec.alignment_pos
  have hdiv := Nat.div_add_mod (spec.head.length + spec.alignment - 1) spec.alignment
  have hmod := Nat.mod_lt (spec.head.length + spec.alignment - 1) hpos
  unfold dataStart divCeil
  rw [Nat.mul_comm]
  omega

theorem fileBytes_length (spec : GgufSpec) (data : List UInt8) :
    (spec.fileBytes data).length = spec.dataStart + data.length := by
  have hle := spec.head_le_start
  unfold fileBytes
  simp only [List.length_append, List.length_replicate]
  omega

/-- The padding is zero, the data section follows. -/
theorem fileBytes_get (spec : GgufSpec) (data : List UInt8) {i : Nat} (h : spec.head.length ≤ i) :
    (spec.fileBytes data)[i]? = if i < spec.dataStart then some 0 else data[i - spec.dataStart]? := by
  have hle := spec.head_le_start
  unfold fileBytes
  rw [List.getElem?_append_right h]
  split
  · rename_i hpad
    rw [List.getElem?_append_left (by rw [List.length_replicate]; omega), List.getElem?_replicate,
      if_pos (by omega)]
  · rename_i hdata
    rw [List.getElem?_append_right (by rw [List.length_replicate]; omega), List.length_replicate]
    congr 1
    omega

/-- What the parser reads for a tensor, from where it takes the data section to start. -/
theorem tensorRaw_parsed (spec : GgufSpec) {mmap : Mmap} (ht : t ∈ spec.tensors)
    (hstart : spec.readStart + t.relOffset + t.size < 2 ^ 64) :
    (spec.parsed mmap).tensorRaw t.name =
      if mmap.bytes.length < spec.readStart + t.relOffset + t.size then
        .err (.rangeOutOfBounds t.name 0 t.size (mmap.bytes.length - (spec.readStart + t.relOffset)))
      else .ok ((mmap.bytes.drop (spec.readStart + t.relOffset)).take t.size) := by
  have hinfo : (spec.parsed mmap).info t.name = .ok t.info := by
    unfold Parsed.info parsed
    dsimp only
    rw [header_tensors, find_tensor spec ht]
    rfl
  have hbytes : t.info.sizeInBytes = t.size := t.sizeInBytes_eq (by omega)
  have hraw := @Parsed.rawFor_whole (spec.parsed mmap) t.info (by
    rw [hbytes]
    exact hstart)
  unfold Parsed.tensorRaw
  rw [hinfo]
  dsimp only
  rw [hraw, hbytes]
  rfl

/-- How far the payloads reach. -/
def dataEnd (spec : GgufSpec) : Nat := (spec.tensors.map fun t => t.relOffset + t.size).foldr max 0

theorem le_dataEnd (spec : GgufSpec) (ht : t ∈ spec.tensors) : t.relOffset + t.size ≤ spec.dataEnd := by
  unfold dataEnd
  generalize spec.tensors = ts at ht
  induction ts with
  | nil => cases ht
  | cons x ts ih =>
    rw [List.map_cons, List.foldr_cons]
    rcases List.mem_cons.mp ht with rfl | hin
    · exact Nat.le_max_left _ _
    · exact Nat.le_trans (ih hin) (Nat.le_max_right _ _)

theorem exists_dataEnd (spec : GgufSpec) (h : spec.tensors ≠ []) :
    ∃ t ∈ spec.tensors, spec.dataEnd = t.relOffset + t.size := by
  unfold dataEnd
  generalize spec.tensors = ts at h
  induction ts with
  | nil => exact absurd rfl h
  | cons x ts ih =>
    rw [List.map_cons, List.foldr_cons]
    by_cases hnil : ts = []
    · subst hnil
      exact ⟨x, List.mem_cons_self, Nat.max_eq_left (Nat.zero_le _)⟩
    · obtain ⟨t, ht, heq⟩ := ih hnil
      rw [heq]
      rcases Nat.le_total (x.relOffset + x.size) (t.relOffset + t.size) with hle | hle
      · exact ⟨t, List.mem_cons_of_mem _ ht, Nat.max_eq_right hle⟩
      · exact ⟨x, List.mem_cons_self, Nat.max_eq_left hle⟩

theorem hasRoom_replicate (spec : GgufSpec) : spec.HasRoom (List.replicate spec.dataEnd 0) := fun t ht => by
  rw [List.length_replicate]
  exact spec.le_dataEnd ht

theorem natural_narrow {d : Datum} (h : d.narrow = true) : d.value.asU64 = none := by
  cases d <;> first | rfl | cases h

theorem natural_wide {d : Datum} (h : d.narrow = false) : d.value.asU64 = d.natural := by
  cases d <;> first | rfl | cases h

/-- A narrow alignment goes unread. -/
theorem readStart_narrow (spec : GgufSpec) (h : spec.NarrowAlignment) : spec.readStart = spec.defaultStart := by
  obtain ⟨d, hfind, hnarrow⟩ := h
  have halign : spec.readAlignment = defaultAlignment := by
    unfold readAlignment
    rw [hfind]
    change d.value.asU64.getD defaultAlignment = defaultAlignment
    rw [natural_narrow hnarrow]
    rfl
  unfold readStart defaultStart
  rw [halign]

theorem readStart_wide (spec : GgufSpec) (h : ¬ spec.NarrowAlignment) : spec.readStart = spec.dataStart := by
  have halign : spec.readAlignment = spec.alignment := by
    unfold readAlignment alignment declaredAlignment
    cases hfind : findEntry spec.metadata "general.alignment" with
    | none => rfl
    | some d =>
      have hwide : d.narrow = false := Bool.eq_false_iff.mpr fun hnarrow => h ⟨d, hfind, hnarrow⟩
      change d.value.asU64.getD defaultAlignment = d.natural.getD defaultAlignment
      rw [natural_wide hwide]
  unfold readStart dataStart
  rw [halign]

/-- The parser takes the data section to start close behind the index. -/
theorem readStart_le (spec : GgufSpec) : spec.readStart ≤ spec.dataStart + defaultAlignment := by
  by_cases hnarrow : spec.NarrowAlignment
  · have hdiv := Nat.div_mul_le_self (spec.head.length + defaultAlignment - 1) defaultAlignment
    have hle := spec.head_le_start
    rw [spec.readStart_narrow hnarrow]
    unfold defaultStart divCeil
    omega
  · rw [spec.readStart_wide hnarrow]
    exact Nat.le_add_right _ _

theorem head_le_readStart (spec : GgufSpec) : spec.head.length ≤ spec.readStart := by
  have hpos := spec.readAlignment_pos
  have hdiv := Nat.div_add_mod (spec.head.length + spec.readAlignment - 1) spec.readAlignment
  have hmod := Nat.mod_lt (spec.head.length + spec.readAlignment - 1) hpos
  unfold readStart divCeil
  rw [Nat.mul_comm]
  omega

theorem drop_fileBytes (spec : GgufSpec) (data : List UInt8) (n : Nat) :
    (spec.fileBytes data).drop (spec.dataStart + n) = data.drop n := by
  have hle := spec.head_le_start
  have hpad : (spec.head ++ List.replicate (spec.dataStart - spec.head.length) 0).length = spec.dataStart := by
    rw [List.length_append, List.length_replicate]
    omega
  unfold fileBytes
  rw [← List.append_assoc, ← List.drop_drop]
  congr 1
  exact List.drop_left' hpad

/-- The range of a tensor in a mapped file does not wrap. -/
theorem range_lt (spec : GgufSpec) {data : List UInt8} {mmap : Mmap} (hbytes : mmap.bytes = spec.fileBytes data)
    (hhas : spec.HasRoom data) (ht : t ∈ spec.tensors) : spec.readStart + t.relOffset + t.size < 2 ^ 64 := by
  have hfits := mmap.fits
  have hroom := hhas t ht
  have hle := spec.readStart_le
  have hsmall : defaultAlignment = 32 := rfl
  rw [hbytes, fileBytes_length] at hfits
  omega

theorem roundTrips_iff {m : Machine} (hroom : m.Roomy) (spec : GgufSpec) (hstack : spec.depth ≤ m.stack)
    {data : List UInt8} {mmap : Mmap} (hbytes : mmap.bytes = spec.fileBytes data) :
    spec.RoundTrips m data mmap ↔
      ∀ t ∈ spec.tensors, (spec.parsed mmap).tensorRaw t.name = .ok (t.payload data) := by
  have hparse := spec.parse_file hroom hstack hbytes
  constructor
  · rintro ⟨file, hfile, -, -, -, -, hraw⟩
    rw [hparse] at hfile
    cases hfile
    exact hraw
  · exact fun hraw => ⟨_, hparse, rfl, spec.header_metadata, spec.header_tensors, rfl, hraw⟩

/-- A payload is read where the parser takes the data section to start where it does, or
where there are no bytes to read. -/
theorem payload_read (spec : GgufSpec) {data : List UInt8} {mmap : Mmap} (hbytes : mmap.bytes = spec.fileBytes data)
    (hhas : spec.HasRoom data) (ht : t ∈ spec.tensors)
    (h : spec.readStart = spec.dataStart ∨ t.size = 0 ∧ spec.readStart ≤ spec.dataStart) :
    (spec.parsed mmap).tensorRaw t.name = .ok (t.payload data) := by
  have hroom := hhas t ht
  have hlen : mmap.bytes.length = spec.dataStart + data.length := by
    rw [hbytes, fileBytes_length]
  rw [spec.tensorRaw_parsed ht (spec.range_lt hbytes hhas ht), if_neg (by omega), hbytes]
  rcases h with hsame | ⟨hzero, -⟩
  · rw [hsame, drop_fileBytes]
    rfl
  · unfold TensorSpec.payload
    rw [hzero, List.take_zero, List.take_zero]

/-- A payload with bytes tells where the data section starts. -/
theorem start_of_payload (spec : GgufSpec) {mmap : Mmap} (ht : t ∈ spec.tensors) (hsize : 0 < t.size)
    (hbytes : mmap.bytes = spec.fileBytes ((List.replicate spec.dataEnd 0).set t.relOffset 1))
    (hraw : (spec.parsed mmap).tensorRaw t.name =
      .ok (t.payload ((List.replicate spec.dataEnd 0).set t.relOffset 1))) :
    spec.readStart = spec.dataStart := by
  have hend := spec.le_dataEnd ht
  have hhas : spec.HasRoom ((List.replicate spec.dataEnd 0).set t.relOffset 1) := fun t' ht' => by
    rw [List.length_set, List.length_replicate]
    exact spec.le_dataEnd ht'
  have hone : (t.payload ((List.replicate spec.dataEnd 0).set t.relOffset 1))[0]? = some 1 := by
    unfold TensorSpec.payload
    rw [List.getElem?_take_of_lt hsize, List.getElem?_drop, Nat.add_zero, List.getElem?_set_self
      (by rw [List.length_replicate]; omega)]
  rw [spec.tensorRaw_parsed ht (spec.range_lt hbytes hhas ht)] at hraw
  split at hraw
  · cases hraw
  · injection hraw with hread
    rw [← hread, hbytes, List.getElem?_take_of_lt hsize, List.getElem?_drop, Nat.add_zero,
      spec.fileBytes_get _ (Nat.le_trans spec.head_le_readStart (Nat.le_add_right _ _))] at hone
    split at hone
    · exact absurd (Option.some.inj hone) (by decide)
    · rename_i hle
      by_cases heq : t.relOffset = spec.readStart + t.relOffset - spec.dataStart
      · omega
      · rw [List.getElem?_set_ne heq, List.getElem?_replicate] at hone
        split at hone
        · exact absurd (Option.some.inj hone) (by decide)
        · cases hone

end GgufSpec

/-- A file of the format is parsed back, whatever its payloads, unless its alignment is in a
type that is not read and the data section starts elsewhere than it would without one. -/
theorem round_trip_iff (m : Machine) (hroom : m.Roomy) (spec : GgufSpec) (hstack : spec.depth ≤ m.stack)
    (hfits : spec.dataStart + spec.dataEnd < 2 ^ 63) :
    (∀ data (mmap : Mmap), mmap.bytes = spec.fileBytes data → spec.HasRoom data → spec.RoundTrips m data mmap) ↔
      (spec.NarrowAlignment → spec.defaultStart = spec.dataStart ∨
        ∀ t ∈ spec.tensors, t.size = 0 ∧ spec.defaultStart ≤ spec.dataStart) := by
  constructor
  · intro hall hnarrow
    have hstart := spec.readStart_narrow hnarrow
    rw [← hstart]
    by_cases hsame : spec.readStart = spec.dataStart
    · exact .inl hsame
    refine .inr fun t ht => ⟨?_, ?_⟩
    · by_contra hsize
      have hlen : (spec.fileBytes ((List.replicate spec.dataEnd 0).set t.relOffset 1)).length < 2 ^ 63 := by
        rwa [spec.fileBytes_length, List.length_set, List.length_replicate]
      have hhas : spec.HasRoom ((List.replicate spec.dataEnd 0).set t.relOffset 1) := fun t' ht' => by
        rw [List.length_set, List.length_replicate]
        exact spec.le_dataEnd ht'
      have hraw := (spec.roundTrips_iff hroom hstack rfl).mp (hall _ ⟨_, hlen⟩ rfl hhas) t ht
      exact hsame (spec.start_of_payload ht (Nat.pos_of_ne_zero hsize) rfl hraw)
    · by_contra hlt
      obtain ⟨t', ht', hend⟩ := spec.exists_dataEnd (List.ne_nil_of_mem ht)
      have hlen : (spec.fileBytes (List.replicate spec.dataEnd 0)).length < 2 ^ 63 := by
        rwa [spec.fileBytes_length, List.length_replicate]
      have hhas := spec.hasRoom_replicate
      have hraw := (spec.roundTrips_iff hroom hstack rfl).mp (hall _ ⟨_, hlen⟩ rfl hhas) t' ht'
      have hrange := spec.range_lt (rfl : (Mmap.mk _ hlen).bytes = _) hhas ht'
      rw [spec.tensorRaw_parsed ht' hrange, if_pos] at hraw
      · cases hraw
      · change (spec.fileBytes (List.replicate spec.dataEnd 0)).length < _
        rw [spec.fileBytes_length, List.length_replicate]
        omega
  · intro hcond data mmap hbytes hhas
    refine (spec.roundTrips_iff hroom hstack hbytes).mpr fun t ht => spec.payload_read hbytes hhas ht ?_
    by_cases hnarrow : spec.NarrowAlignment
    · rw [spec.readStart_narrow hnarrow]
      exact (hcond hnarrow).imp_right fun h => h t ht
    · exact .inl (spec.readStart_wide hnarrow)

theorem hosted_roomy (stack : Nat) : (hosted stack).Roomy := fun _ _ h => decide_eq_true h

theorem plainEnd_alignment : PlainEnd "general.alignment" := by decide

/-- One `f32` of the name `w`. -/
def oneWeight : TensorSpec where
  name := "w"
  dtype := .f32
  dims := [1]
  relOffset := 0
  plainName := by decide
  rank := by decide
  sizes := by decide
  count := by decide
  offset := by decide

/-- A file of one tensor that declares its alignment. -/
def alignedFile (d : Datum) (typed : d.WellTyped) (power : ∃ k, d.natural = some (2 ^ k)) : GgufSpec where
  version := .v3
  metadata := [("general.alignment", d)]
  tensors := [oneWeight]
  distinctKeys := List.pairwise_singleton _ _
  wellTyped := fun e he => by
    rw [List.mem_singleton.mp he]
    exact ⟨plainEnd_alignment, typed⟩
  distinctNames := List.pairwise_singleton _ _
  alignmentPower := fun e he => by
    cases he
    exact power
  aligned := fun t ht => by
    rw [List.mem_singleton.mp ht]
    exact Nat.dvd_zero _

def wideFile : GgufSpec := alignedFile (.u32 64) trivial ⟨6, rfl⟩

def narrowFile : GgufSpec := alignedFile (.i8 64) trivial ⟨6, rfl⟩

theorem round_trip_wide :
    wideFile.RoundTrips (hosted 4) [0, 0, 128, 63] ⟨wideFile.fileBytes [0, 0, 128, 63], by decide +kernel⟩ :=
  (round_trip_iff (hosted 4) (hosted_roomy 4) wideFile (by decide) (by decide)).mpr
    (fun ⟨_, hfind, hnarrow⟩ => by cases hfind; cases hnarrow) _ _ rfl (by decide)

/-- An alignment of 64 in one signed byte: the tensor is read from the padding. -/
theorem narrow_alignment_misread : ∃ mmap : Mmap, mmap.bytes = narrowFile.fileBytes [0, 0, 128, 63] ∧
    narrowFile.HasRoom [0, 0, 128, 63] ∧ ¬ narrowFile.RoundTrips (hosted 4) [0, 0, 128, 63] mmap := by
  refine ⟨⟨narrowFile.fileBytes [0, 0, 128, 63], by decide +kernel⟩, rfl, by decide, fun htrip => ?_⟩
  have hraw := (narrowFile.roundTrips_iff (hosted_roomy 4) (by decide) rfl).mp htrip oneWeight (List.mem_singleton.mpr rfl)
  rw [narrowFile.tensorRaw_parsed (List.mem_singleton.mpr rfl) (by decide), if_neg (by decide +kernel)] at hraw
  injection hraw with hread
  exact absurd hread (by decide +kernel)

end Flambeau.Quant
