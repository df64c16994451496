import Flambeau.Quant.Gguf

namespace Flambeau.Quant
open Systems

theorem fromLeBytes_lt (bytes : List UInt8) : fromLeBytes bytes < 256 ^ bytes.length := by
  induction bytes with
  | nil => exact Nat.one_pos
  | cons byte bytes ih =>
    have hbyte := byte.toNat_lt
    rw [fromLeBytes, List.length_cons, Nat.pow_succ]
    omega

theorem toLeBytes_fromLeBytes (bytes : List UInt8) :
    toLeBytes bytes.length (fromLeBytes bytes) = bytes := by
  induction bytes with
  | nil => rfl
  | cons byte bytes ih =>
    have hbyte := byte.toNat_lt
    have hlow : UInt8.ofNat (byte.toNat + 256 * fromLeBytes bytes) = byte := by
      apply UInt8.toNat_inj.mp
      rw [UInt8.toNat_ofNat']
      omega
    have hhigh : (byte.toNat + 256 * fromLeBytes bytes) / 256 = fromLeBytes bytes := by omega
    rw [fromLeBytes, List.length_cons, toLeBytes, hlow, hhigh, ih]

namespace ValueType

def toWire : ValueType → Nat
  | u8 => 0
  | i8 => 1
  | u16 => 2
  | i16 => 3
  | u32 => 4
  | i32 => 5
  | f32 => 6
  | bool => 7
  | string => 8
  | array => 9
  | u64 => 10
  | i64 => 11
  | f64 => 12

theorem fromWire_iff (u : Nat) (vt : ValueType) : fromWire u = .ok vt ↔ u = vt.toWire := by
  constructor
  · intro h
    unfold fromWire at h
    split at h <;> cases h <;> rfl
  · rintro rfl
    cases vt <;> rfl

theorem toWire_lt (vt : ValueType) : vt.toWire < 256 ^ 4 := by
  cases vt <;> decide

/-- The bytes of a value that has no length field. -/
def width : ValueType → Nat
  | u8 | i8 | bool => 1
  | u16 | i16 => 2
  | u32 | i32 | f32 => 4
  | _ => 8

/-- A value that has no length field, by its bits. -/
def ofBits : ValueType → Nat → Value
  | u8, n => .u8 (.ofNat n)
  | i8, n => .i8 (UInt8.ofNat n).toInt8
  | u16, n => .u16 (.ofNat n)
  | i16, n => .i16 (UInt16.ofNat n).toInt16
  | u32, n => .u32 (.ofNat n)
  | i32, n => .i32 (UInt32.ofNat n).toInt32
  | f32, n => .f32 (.ofNat n)
  | bool, n => .bool (n != 0)
  | i64, n => .i64 (UInt64.ofNat n).toInt64
  | f64, n => .f64 (.ofNat n)
  | _, n => .u64 (.ofNat n)

end ValueType

/-- An unsigned integer of `width` bytes. -/
def wordLayout (width : Nat) : Layout UInt8 Nat := fun n front =>
  n < 256 ^ width ∧ front = toLeBytes width n

def grantedLayout (m : Machine) (b : Buffer) (n : Nat) : Layout UInt8 Unit := fun _ front =>
  m.grants b n = true ∧ front = []

def refused (m : Machine) (b : Buffer) (n : Nat) : Trips UInt8 := fun _ => m.grants b n = false

/-- A length, then as many bytes. -/
def stringLayout (m : Machine) : Layout UInt8 String := fun s front =>
  ∃ raw : List UInt8, raw.length < 256 ^ 8 ∧ m.grants .bytes raw.length = true ∧ s = fieldText raw ∧
    front = toLeBytes 8 raw.length ++ raw

/-- A length that the machine has no room for. -/
def stringTrips (m : Machine) : Trips UInt8 := fun input =>
  ∃ len rest, len < 256 ^ 8 ∧ input = toLeBytes 8 len ++ rest ∧ m.grants .bytes len = false

/-- A value within the calls that the stack holds. -/
def valueLayout (m : Machine) : Nat → ValueType → Layout UInt8 Value
  | 0, _ => Layout.none
  | _ + 1, .string => fun v front => ∃ s, v = .string s ∧ stringLayout m s front
  | depth + 1, .array => fun v front =>
    ∃ inner vs items, v = .array vs ∧ vs.length < 256 ^ 8 ∧ m.grants .values vs.length = true ∧
      (valueLayout m depth inner).many vs.length vs items ∧
      front = toLeBytes 4 (ValueType.toWire inner) ++ toLeBytes 8 vs.length ++ items
  | _ + 1, vt => fun v front => ∃ n, n < 256 ^ vt.width ∧ v = vt.ofBits n ∧ front = toLeBytes vt.width n

/-- Arrays nested deeper than the stack, or a length that the machine has no room for. -/
def valueTrips (m : Machine) : Nat → ValueType → Trips UInt8
  | 0, _ => Trips.always
  | _ + 1, .string => stringTrips m
  | depth + 1, .array => fun input =>
    ∃ inner len rest, len < 256 ^ 8 ∧ input = toLeBytes 4 (ValueType.toWire inner) ++ toLeBytes 8 len ++ rest ∧
      (m.grants .values len = false ∨ m.grants .values len = true ∧
        (valueTrips m depth inner).many (valueLayout m depth inner) len rest)
  | _ + 1, _ => Trips.never

/-- A key, the tag of a type, a value of it. -/
def entryLayout (m : Machine) : Layout UInt8 (String × Value) := fun entry front =>
  ∃ vt key value, stringLayout m entry.1 key ∧ valueLayout m m.stack vt entry.2 value ∧
    front = key ++ toLeBytes 4 vt.toWire ++ value

def entryTrips (m : Machine) : Trips UInt8 := fun input =>
  stringTrips m input ∨ ∃ key vt front rest, stringLayout m key front ∧
    input = front ++ toLeBytes 4 (ValueType.toWire vt) ++ rest ∧ valueTrips m m.stack vt rest

/-- A name, the sizes of the axes from the fastest on, a type, an offset. -/
def tensorLayout (m : Machine) : Layout UInt8 TensorInfo := fun info front =>
  ∃ name sizes, stringLayout m info.name name ∧ info.dims.length < 256 ^ 4 ∧
    m.grants .dims info.dims.length = true ∧ (wordLayout 8).many info.dims.length info.dims.reverse sizes ∧
    info.relOffset < 256 ^ 8 ∧ info.splitIdx = 0 ∧
    front = name ++ toLeBytes 4 info.dims.length ++ sizes ++ toLeBytes 4 info.dtype.toWire ++
      toLeBytes 8 info.relOffset

def tensorTrips (m : Machine) : Trips UInt8 := fun input =>
  stringTrips m input ∨ ∃ name nDims front rest, stringLayout m name front ∧ nDims < 256 ^ 4 ∧
    input = front ++ toLeBytes 4 nDims ++ rest ∧ m.grants .dims nDims = false

/-- The metadata pairs, then the tensor index. -/
def bodyLayout (m : Machine) (version : GgufVersion) (tensorCount kvCount : Nat) : Layout UInt8 Header :=
  fun header front => ∃ entries infos, header.version = version ∧ m.grants .metadata kvCount = true ∧
    (entryLayout m).many kvCount header.entries entries ∧ m.grants .tensors tensorCount = true ∧
    m.grants .tensorOrder tensorCount = true ∧ (tensorLayout m).many tensorCount header.infos infos ∧
    front = entries ++ infos

/-- No room for the counts, or a trip in one of the pairs or index entries behind those
before it. -/
def bodyTrips (m : Machine) (tensorCount kvCount : Nat) : Trips UInt8 := fun input =>
  m.grants .metadata kvCount = false ∨ m.grants .metadata kvCount = true ∧
    ((entryTrips m).many (entryLayout m) kvCount input ∨
      ∃ entries front rest, (entryLayout m).many kvCount entries front ∧ input = front ++ rest ∧
        (m.grants .tensors tensorCount = false ∨ m.grants .tensorOrder tensorCount = false ∨
          m.grants .tensors tensorCount = true ∧ m.grants .tensorOrder tensorCount = true ∧
            (tensorTrips m).many (tensorLayout m) tensorCount rest))

def versionWire : GgufVersion → Nat
  | .v2 => 2
  | .v3 => 3

theorem versionOf_iff (u : Nat) (version : GgufVersion) : versionOf u = .ok version ↔ u = versionWire version := by
  constructor
  · intro h
    unfold versionOf at h
    split at h <;> cases h <;> rfl
  · rintro rfl
    cases version <;> rfl

/-- Magic, version, counts. -/
def preamble (version : GgufVersion) (tensorCount kvCount : Nat) : List UInt8 :=
  toLeBytes 4 magicGguf ++ toLeBytes 4 (versionWire version) ++ toLeBytes 8 tensorCount ++ toLeBytes 8 kvCount

def headerLayout (m : Machine) : Layout UInt8 Header := fun header front =>
  ∃ body, header.infos.length < 256 ^ 8 ∧ header.entries.length < 256 ^ 8 ∧
    bodyLayout m header.version header.infos.length header.entries.length header body ∧
    front = preamble header.version header.infos.length header.entries.length ++ body

def headerTrips (m : Machine) : Trips UInt8 := fun input =>
  ∃ version tensorCount kvCount rest, tensorCount < 256 ^ 8 ∧ kvCount < 256 ^ 8 ∧
    input = preamble version tensorCount kvCount ++ rest ∧ bodyTrips m tensorCount kvCount rest

theorem readUint_reads (width : Nat) : Reads (readUint width) (wordLayout width) Trips.never := by
  have hbind := (Reads.take (φ := Fault) QuantError.unexpectedEof width).bind fun bytes : List UInt8 =>
    Reads.pure (β := UInt8) (ε := QuantError) (φ := Fault) (fromLeBytes bytes)
  refine hbind.congr (fun n front => ?_) fun input => ?_
  · constructor
    · rintro ⟨bytes, x, y, ⟨rfl, hlen⟩, ⟨rfl, rfl⟩, rfl⟩
      subst hlen
      exact ⟨fromLeBytes_lt _, by rw [toLeBytes_fromLeBytes, List.append_nil]⟩
    · rintro ⟨hlt, rfl⟩
      exact ⟨toLeBytes width n, toLeBytes width n, [], ⟨rfl, toLeBytes_length width n⟩,
        ⟨(fromLeBytes_toLeBytes hlt).symm, rfl⟩, (List.append_nil _).symm⟩
  · exact Trips.seq_nowhere

theorem reserve_reads (m : Machine) (b : Buffer) (n : Nat) :
    Reads (reserve m b n) (grantedLayout m b n) (refused m b n) := by
  unfold reserve grantedLayout refused
  cases m.grants b n with
  | true =>
    refine (Reads.pure ()).congr (fun a front => ?_) fun input => ⟨False.elim, fun h => by cases h⟩
    exact ⟨fun h => ⟨rfl, h.2⟩, fun h => ⟨rfl, h.2⟩⟩
  | false =>
    refine (Reads.crash (Fault.allocation b n)).congr (fun a front => ?_) fun input => ⟨fun _ => rfl, fun _ => trivial⟩
    exact ⟨False.elim, fun h => by cases h.1⟩

/-- A number read and turned into a value. -/
theorem scalar_reads (width : Nat) (g : Nat → Value) :
    Reads (do return g (← readUint width) : GgufReader Value)
      (fun v front => ∃ n, n < 256 ^ width ∧ v = g n ∧ front = toLeBytes width n) Trips.never := by
  refine ((readUint_reads width).bind fun n => Reads.pure (g n)).congr (fun v front => ?_) fun input => ?_
  · constructor
    · rintro ⟨n, x, y, ⟨hlt, rfl⟩, ⟨rfl, rfl⟩, rfl⟩
      exact ⟨n, hlt, rfl, List.append_nil _⟩
    · rintro ⟨n, hlt, rfl, rfl⟩
      exact ⟨n, _, [], ⟨hlt, rfl⟩, ⟨rfl, rfl⟩, (List.append_nil _).symm⟩
  · exact Trips.seq_nowhere

theorem readString_reads (m : Machine) : Reads (readString m) (stringLayout m) (stringTrips m) := by
  have hbind := (readUint_reads 8).bind fun len => (reserve_reads m .bytes len).bind fun _ =>
    (Reads.take (φ := Fault) QuantError.unexpectedEof len).bind fun buf =>
      Reads.pure (β := UInt8) (ε := QuantError) (φ := Fault) (fieldText buf)
  refine hbind.congr (fun s front => ?_) fun input => ?_
  · constructor
    · rintro ⟨len, _, _, ⟨hlt, rfl⟩, ⟨_, _, _, ⟨hgrant, rfl⟩, ⟨_, raw, _, ⟨rfl, rfl⟩, ⟨rfl, rfl⟩, rfl⟩, rfl⟩, rfl⟩
      exact ⟨raw, hlt, hgrant, rfl, by simp⟩
    · rintro ⟨raw, hlt, hgrant, rfl, rfl⟩
      exact ⟨raw.length, _, raw, ⟨hlt, rfl⟩, ⟨(), [], raw, ⟨hgrant, rfl⟩,
        ⟨raw, raw, [], ⟨rfl, rfl⟩, ⟨rfl, rfl⟩, (List.append_nil raw).symm⟩, rfl⟩, rfl⟩
  · constructor
    · intro h
      obtain ⟨len, _, rest, ⟨hlt, rfl⟩, rfl, hrest⟩ := Trips.never_seq.mp h
      rcases hrest with hrefused | ⟨_, _, _, _, _, hfalse⟩
      · exact ⟨len, rest, hlt, rfl, hrefused⟩
      · exact (Trips.seq_nowhere.mp hfalse).elim
    · rintro ⟨len, rest, hlt, rfl, hrefused⟩
      exact .inr ⟨len, _, rest, ⟨hlt, rfl⟩, rfl, .inl hrefused⟩

/-- A value of one level more, its items read as the level below says. -/
theorem readArray_reads (m : Machine) (depth : Nat)
    (ih : ∀ vt, Reads (readValue m depth vt) (valueLayout m depth vt) (valueTrips m depth vt)) :
    Reads (readValue m (depth + 1) .array) (valueLayout m (depth + 1) .array)
      (valueTrips m (depth + 1) .array) := by
  have hbind := (readUint_reads 4).bind fun tag =>
    (Reads.ofExcept (φ := Fault) (β := UInt8) (ValueType.fromWire tag)).bind fun inner =>
      (readUint_reads 8).bind fun len => (reserve_reads m .values len).bind fun _ =>
        ((ih inner).times len).bind fun vs => Reads.pure (Value.array vs)
  refine hbind.congr (fun v front => ?_) fun input => ?_
  · constructor
    · rintro ⟨tag, _, _, ⟨-, rfl⟩, ⟨inner, _, _, ⟨hinner, rfl⟩, ⟨len, _, _, ⟨hlt, rfl⟩,
        ⟨_, _, _, ⟨hgrant, rfl⟩, ⟨vs, items, _, hitems, ⟨rfl, rfl⟩, rfl⟩, rfl⟩, rfl⟩, rfl⟩, rfl⟩
      obtain rfl := (ValueType.fromWire_iff tag inner).mp hinner
      obtain rfl := hitems.1
      exact ⟨inner, vs, items, rfl, hlt, hgrant, hitems, by simp⟩
    · rintro ⟨inner, vs, items, rfl, hlt, hgrant, hitems, rfl⟩
      exact ⟨inner.toWire, _, _, ⟨inner.toWire_lt, rfl⟩, ⟨inner, [], _,
        ⟨(ValueType.fromWire_iff _ inner).mpr rfl, rfl⟩, ⟨vs.length, _, items, ⟨hlt, rfl⟩,
          ⟨(), [], items, ⟨hgrant, rfl⟩, ⟨vs, items, [], hitems, ⟨rfl, rfl⟩,
            (List.append_nil items).symm⟩, rfl⟩, rfl⟩, rfl⟩, List.append_assoc ..⟩
  · constructor
    · intro h
      obtain ⟨tag, _, _, ⟨-, rfl⟩, rfl, h₁⟩ := Trips.never_seq.mp h
      obtain ⟨inner, _, _, ⟨hinner, rfl⟩, rfl, h₂⟩ := Trips.never_seq.mp h₁
      obtain ⟨len, _, rest, ⟨hlt, rfl⟩, rfl, h₃⟩ := Trips.never_seq.mp h₂
      obtain rfl := (ValueType.fromWire_iff tag inner).mp hinner
      refine ⟨inner, len, rest, hlt, by simp, ?_⟩
      rcases h₃ with hrefused | ⟨_, _, _, ⟨hgrant, rfl⟩, rfl, h₄⟩
      · exact .inl hrefused
      · refine .inr ⟨hgrant, h₄.resolve_right ?_⟩
        rintro ⟨_, _, _, _, _, hfalse⟩
        exact hfalse
    · rintro ⟨inner, len, rest, hlt, rfl, h⟩
      refine .inr ⟨inner.toWire, _, _, ⟨inner.toWire_lt, rfl⟩, List.append_assoc .., ?_⟩
      refine .inr ⟨inner, [], _, ⟨(ValueType.fromWire_iff _ inner).mpr rfl, rfl⟩, rfl, ?_⟩
      refine .inr ⟨len, _, rest, ⟨hlt, rfl⟩, rfl, ?_⟩
      rcases h with hrefused | ⟨hgrant, h⟩
      · exact .inl hrefused
      · exact .inr ⟨(), [], rest, ⟨hgrant, rfl⟩, rfl, .inl h⟩

theorem readValue_reads (m : Machine) (depth : Nat) (vt : ValueType) :
    Reads (readValue m depth vt) (valueLayout m depth vt) (valueTrips m depth vt) := by
  induction depth generalizing vt with
  | zero => exact Reads.crash _
  | succ depth ih =>
    cases vt with
    | u8 => exact scalar_reads 1 fun n => .u8 (.ofNat n)
    | i8 => exact scalar_reads 1 fun n => .i8 (UInt8.ofNat n).toInt8
    | u16 => exact scalar_reads 2 fun n => .u16 (.ofNat n)
    | i16 => exact scalar_reads 2 fun n => .i16 (UInt16.ofNat n).toInt16
    | u32 => exact scalar_reads 4 fun n => .u32 (.ofNat n)
    | i32 => exact scalar_reads 4 fun n => .i32 (UInt32.ofNat n).toInt32
    | f32 => exact scalar_reads 4 fun n => .f32 (.ofNat n)
    | bool => exact scalar_reads 1 fun n => .bool (n != 0)
    | u64 => exact scalar_reads 8 fun n => .u64 (.ofNat n)
    | i64 => exact scalar_reads 8 fun n => .i64 (UInt64.ofNat n).toInt64
    | f64 => exact scalar_reads 8 fun n => .f64 (.ofNat n)
    | array => exact readArray_reads m depth ih
    | string =>
      refine ((readString_reads m).bind fun s => Reads.pure (Value.string s)).congr
        (fun v front => ?_) fun input => ?_
      · constructor
        · rintro ⟨s, x, _, hs, ⟨rfl, rfl⟩, rfl⟩
          exact ⟨s, rfl, by rw [List.append_nil]; exact hs⟩
        · rintro ⟨s, rfl, hs⟩
          exact ⟨s, front, [], hs, ⟨rfl, rfl⟩, (List.append_nil front).symm⟩
      · refine ⟨fun h => h.resolve_right ?_, .inl⟩
        rintro ⟨_, _, _, _, _, hfalse⟩
        exact hfalse

theorem readEntry_reads (m : Machine) : Reads (readEntry m) (entryLayout m) (entryTrips m) := by
  have hbind := (readString_reads m).bind fun key => (readUint_reads 4).bind fun tag =>
    (Reads.ofExcept (φ := Fault) (β := UInt8) (ValueType.fromWire tag)).bind fun vt =>
      (readValue_reads m m.stack vt).bind fun value => Reads.pure (key, value)
  refine hbind.congr (fun entry front => ?_) fun input => ?_
  · constructor
    · rintro ⟨key, x, _, hkey, ⟨tag, _, _, ⟨-, rfl⟩, ⟨vt, _, _, ⟨hvt, rfl⟩,
        ⟨value, y, _, hvalue, ⟨rfl, rfl⟩, rfl⟩, rfl⟩, rfl⟩, rfl⟩
      obtain rfl := (ValueType.fromWire_iff tag vt).mp hvt
      exact ⟨vt, x, y, hkey, hvalue, by simp⟩
    · rintro ⟨vt, x, y, hkey, hvalue, rfl⟩
      exact ⟨entry.1, x, _, hkey, ⟨vt.toWire, _, y, ⟨vt.toWire_lt, rfl⟩, ⟨vt, [], y,
        ⟨(ValueType.fromWire_iff _ vt).mpr rfl, rfl⟩, ⟨entry.2, y, [], hvalue, ⟨rfl, rfl⟩,
          (List.append_nil y).symm⟩, rfl⟩, rfl⟩, List.append_assoc ..⟩
  · unfold entryTrips
    refine or_congr_right ⟨?_, ?_⟩
    · rintro ⟨key, front, _, hkey, rfl, h⟩
      obtain ⟨tag, _, _, ⟨-, rfl⟩, rfl, h₁⟩ := Trips.never_seq.mp h
      obtain ⟨vt, _, rest, ⟨hvt, rfl⟩, rfl, h₂⟩ := Trips.never_seq.mp h₁
      obtain rfl := (ValueType.fromWire_iff tag vt).mp hvt
      refine ⟨key, vt, front, _, hkey, (List.append_assoc ..).symm, h₂.resolve_right ?_⟩
      rintro ⟨_, _, _, _, _, hfalse⟩
      exact hfalse
    · rintro ⟨key, vt, front, rest, hkey, rfl, h⟩
      refine ⟨key, front, _, hkey, List.append_assoc .., ?_⟩
      refine .inr ⟨vt.toWire, _, rest, ⟨vt.toWire_lt, rfl⟩, rfl, ?_⟩
      exact .inr ⟨vt, [], rest, ⟨(ValueType.fromWire_iff _ vt).mpr rfl, rfl⟩, rfl, .inl h⟩

theorem fromWire_lifted (u : Nat) (t : GgmlDType) :
    (GgmlDType.fromWire u).mapError QuantError.dtype = .ok t ↔ u = t.toWire := by
  constructor
  · intro h
    cases hu : GgmlDType.fromWire u with
    | error e =>
      rw [hu] at h
      cases h
    | ok t' =>
      rw [hu] at h
      cases h
      exact (GgmlDType.toWire_fromWire hu).symm
  · rintro rfl
    rw [GgmlDType.fromWire_toWire]
    rfl

theorem readTensor_reads (m : Machine) : Reads (readTensor m) (tensorLayout m) (tensorTrips m) := by
  have hbind := (readString_reads m).bind fun name => (readUint_reads 4).bind fun nDims =>
    (reserve_reads m .dims nDims).bind fun _ => ((readUint_reads 8).times nDims).bind fun dims =>
      (readUint_reads 4).bind fun dtypeWire =>
        (Reads.ofExcept (φ := Fault) (β := UInt8)
          ((GgmlDType.fromWire dtypeWire).mapError QuantError.dtype)).bind fun dtype =>
            (readUint_reads 8).bind fun relOffset =>
              Reads.pure (⟨name, dtype, dims.reverse, relOffset, 0⟩ : TensorInfo)
  refine hbind.congr (fun info front => ?_) fun input => ?_
  · constructor
    · rintro ⟨name, x, _, hname, ⟨nDims, _, _, ⟨hlt, rfl⟩, ⟨_, _, _, ⟨hgrant, rfl⟩, ⟨dims, sizes, _, hsizes,
        ⟨wire, _, _, ⟨-, rfl⟩, ⟨dtype, _, _, ⟨hdtype, rfl⟩, ⟨relOffset, _, _, ⟨hrel, rfl⟩,
          ⟨rfl, rfl⟩, rfl⟩, rfl⟩, rfl⟩, rfl⟩, rfl⟩, rfl⟩, rfl⟩
      obtain rfl := (fromWire_lifted wire dtype).mp hdtype
      have hlen : dims.length = nDims := hsizes.1
      refine ⟨x, sizes, hname, ?_, ?_, ?_, hrel, rfl, ?_⟩
      · rw [List.length_reverse, hlen]
        exact hlt
      · rw [List.length_reverse, hlen]
        exact hgrant
      · rw [List.length_reverse, List.reverse_reverse, hlen]
        exact hsizes
      · rw [List.length_reverse, hlen]
        simp
    · rintro ⟨x, sizes, hname, hlt, hgrant, hsizes, hrel, hsplit, rfl⟩
      refine ⟨info.name, x, _, hname, ⟨info.dims.length, _, _, ⟨hlt, rfl⟩, ⟨(), [], _, ⟨hgrant, rfl⟩,
        ⟨info.dims.reverse, sizes, _, hsizes, ⟨info.dtype.toWire, _, _, ⟨info.dtype.toWire_lt, rfl⟩,
          ⟨info.dtype, [], _, ⟨(fromWire_lifted _ _).mpr rfl, rfl⟩, ⟨info.relOffset, _, [], ⟨hrel, rfl⟩,
            ⟨?_, rfl⟩, rfl⟩, rfl⟩, rfl⟩, rfl⟩, rfl⟩, rfl⟩, ?_⟩
      · rw [List.reverse_reverse, ← hsplit]
      · simp
  · unfold tensorTrips
    refine or_congr_right ⟨?_, ?_⟩
    · rintro ⟨name, front, _, hname, rfl, h⟩
      obtain ⟨nDims, _, rest, ⟨hlt, rfl⟩, rfl, h₁⟩ := Trips.never_seq.mp h
      refine ⟨name, nDims, front, _, hname, hlt, (List.append_assoc ..).symm, h₁.resolve_right ?_⟩
      rintro ⟨_, _, _, _, _, h₂⟩
      obtain ⟨_, _, _, _, _, h₃⟩ := h₂.resolve_left fun hmany => by
        obtain ⟨_, _, _, _, _, _, _, hfalse⟩ := hmany
        exact hfalse
      obtain ⟨_, _, _, _, _, h₄⟩ := Trips.never_seq.mp h₃
      obtain ⟨_, _, _, _, _, h₅⟩ := Trips.never_seq.mp h₄
      exact Trips.seq_nowhere.mp h₅
    · rintro ⟨name, nDims, front, rest, hname, hlt, rfl, hrefused⟩
      exact ⟨name, front, _, hname, List.append_assoc .., .inr ⟨nDims, _, rest, ⟨hlt, rfl⟩, rfl, .inl hrefused⟩⟩

theorem readBody_reads (m : Machine) (version : GgufVersion) (tensorCount kvCount : Nat) :
    Reads (readBody m version tensorCount kvCount) (bodyLayout m version tensorCount kvCount)
      (bodyTrips m tensorCount kvCount) := by
  have hbind := (reserve_reads m .metadata kvCount).bind fun _ =>
    ((readEntry_reads m).times kvCount).bind fun entries => (reserve_reads m .tensors tensorCount).bind fun _ =>
      (reserve_reads m .tensorOrder tensorCount).bind fun _ =>
        ((readTensor_reads m).times tensorCount).bind fun infos =>
          Reads.pure (⟨version, entries, infos⟩ : Header)
  refine hbind.congr (fun header front => ?_) fun input => ?_
  · constructor
    · rintro ⟨_, _, _, ⟨hkv, rfl⟩, ⟨entries, x, _, hentries, ⟨_, _, _, ⟨htensors, rfl⟩,
        ⟨_, _, _, ⟨horder, rfl⟩, ⟨infos, y, _, hinfos, ⟨rfl, rfl⟩, rfl⟩, rfl⟩, rfl⟩, rfl⟩, rfl⟩
      exact ⟨x, y, rfl, hkv, hentries, htensors, horder, hinfos, by simp⟩
    · rintro ⟨x, y, rfl, hkv, hentries, htensors, horder, hinfos, rfl⟩
      exact ⟨(), [], _, ⟨hkv, rfl⟩, ⟨header.entries, x, y, hentries, ⟨(), [], y, ⟨htensors, rfl⟩,
        ⟨(), [], y, ⟨horder, rfl⟩, ⟨header.infos, y, [], hinfos, ⟨rfl, rfl⟩, (List.append_nil y).symm⟩,
          rfl⟩, rfl⟩, rfl⟩, rfl⟩
  · unfold bodyTrips
    constructor
    · rintro (hkv | ⟨_, _, _, ⟨hkv, rfl⟩, rfl, h⟩)
      · exact .inl hkv
      refine .inr ⟨hkv, ?_⟩
      rcases h with hentry | ⟨entries, front, rest, hentries, rfl, h⟩
      · exact .inl hentry
      refine .inr ⟨entries, front, rest, hentries, rfl, ?_⟩
      rcases h with htensors | ⟨_, _, _, ⟨htensors, rfl⟩, rfl, h⟩
      · exact .inl htensors
      rcases h with horder | ⟨_, _, _, ⟨horder, rfl⟩, rfl, h⟩
      · exact .inr (.inl horder)
      refine .inr (.inr ⟨htensors, horder, h.resolve_right ?_⟩)
      rintro ⟨_, _, _, _, _, hfalse⟩
      exact hfalse
    · rintro (hkv | ⟨hkv, h⟩)
      · exact .inl hkv
      refine .inr ⟨(), [], input, ⟨hkv, rfl⟩, rfl, ?_⟩
      rcases h with hentry | ⟨entries, front, rest, hentries, rfl, h⟩
      · exact .inl hentry
      refine .inr ⟨entries, front, rest, hentries, rfl, ?_⟩
      rcases h with htensors | horder | ⟨htensors, horder, hinfo⟩
      · exact .inl htensors
      · cases htensors : m.grants .tensors tensorCount with
        | false => exact .inl htensors
        | true => exact .inr ⟨(), [], rest, ⟨htensors, rfl⟩, rfl, .inl horder⟩
      · exact .inr ⟨(), [], rest, ⟨htensors, rfl⟩, rfl,
          .inr ⟨(), [], rest, ⟨horder, rfl⟩, rfl, .inl hinfo⟩⟩

/-- The four fields before the metadata. -/
theorem readHeader_reads (m : Machine) : Reads (readHeader m) (headerLayout m) (headerTrips m) := by
  have hmagic : magicGguf < 256 ^ 4 := by decide
  have hversion : ∀ version, versionWire version < 256 ^ 4 := fun version => by cases version <;> decide
  have hbind := (readUint_reads 4).bind fun magic =>
    (Reads.throw (β := UInt8) (φ := Fault) (α := Header) (QuantError.badMagic magic)).ite (b := magic ≠ magicGguf)
      ((readUint_reads 4).bind fun versionRaw =>
        (Reads.ofExcept (φ := Fault) (β := UInt8) (versionOf versionRaw)).bind fun version =>
          (readUint_reads 8).bind fun tensorCount => (readUint_reads 8).bind fun kvCount =>
            readBody_reads m version tensorCount kvCount)
  refine hbind.congr (fun header front => ?_) fun input => ?_
  · constructor
    · rintro ⟨magic, _, _, ⟨-, rfl⟩, h, rfl⟩
      split at h
      · exact h.elim
      · rename_i hsame
        obtain rfl := Decidable.not_not.mp hsame
        obtain ⟨raw, _, _, ⟨-, rfl⟩, ⟨version, _, _, ⟨hraw, rfl⟩, ⟨tensorCount, _, _, ⟨ht, rfl⟩,
          ⟨kvCount, _, body, ⟨hk, rfl⟩, hbody, rfl⟩, rfl⟩, rfl⟩, rfl⟩ := h
        obtain rfl := (versionOf_iff raw version).mp hraw
        obtain ⟨entries, infos, rfl, hkv, hentries, htensors, horder, hinfos, rfl⟩ := hbody
        obtain rfl := hentries.1
        obtain rfl := hinfos.1
        exact ⟨entries ++ infos, ht, hk, ⟨entries, infos, rfl, hkv, hentries, htensors, horder, hinfos, rfl⟩,
          by simp [preamble]⟩
    · rintro ⟨body, ht, hk, hbody, rfl⟩
      refine ⟨magicGguf, toLeBytes 4 magicGguf, toLeBytes 4 (versionWire header.version) ++
        (toLeBytes 8 header.infos.length ++ (toLeBytes 8 header.entries.length ++ body)), ⟨hmagic, rfl⟩, ?_, ?_⟩
      · dsimp only
        rw [if_neg (not_not.mpr rfl)]
        exact ⟨versionWire header.version, _, _, ⟨hversion header.version, rfl⟩, ⟨header.version, [], _,
          ⟨(versionOf_iff _ _).mpr rfl, rfl⟩, ⟨header.infos.length, _, _, ⟨ht, rfl⟩,
            ⟨header.entries.length, _, body, ⟨hk, rfl⟩, hbody, rfl⟩, rfl⟩, rfl⟩, rfl⟩
      · simp [preamble]
  · constructor
    · intro h
      obtain ⟨magic, _, _, ⟨-, rfl⟩, rfl, h₁⟩ := Trips.never_seq.mp h
      split at h₁
      · exact h₁.elim
      · rename_i hsame
        obtain rfl := Decidable.not_not.mp hsame
        obtain ⟨raw, _, _, ⟨-, rfl⟩, rfl, h₂⟩ := Trips.never_seq.mp h₁
        obtain ⟨version, _, _, ⟨hraw, rfl⟩, rfl, h₃⟩ := Trips.never_seq.mp h₂
        obtain ⟨tensorCount, _, _, ⟨ht, rfl⟩, rfl, h₄⟩ := Trips.never_seq.mp h₃
        obtain ⟨kvCount, _, rest, ⟨hk, rfl⟩, rfl, h₅⟩ := Trips.never_seq.mp h₄
        obtain rfl := (versionOf_iff raw version).mp hraw
        exact ⟨version, tensorCount, kvCount, _, ht, hk, by simp [preamble], h₅⟩
    · rintro ⟨version, tensorCount, kvCount, rest, ht, hk, rfl, h⟩
      refine .inr ⟨magicGguf, toLeBytes 4 magicGguf, toLeBytes 4 (versionWire version) ++
        (toLeBytes 8 tensorCount ++ (toLeBytes 8 kvCount ++ rest)), ⟨hmagic, rfl⟩, by simp [preamble], ?_⟩
      dsimp only
      rw [if_neg (not_not.mpr rfl)]
      refine .inr ⟨versionWire version, _, _, ⟨hversion version, rfl⟩, rfl, ?_⟩
      refine .inr ⟨version, [], _, ⟨(versionOf_iff _ _).mpr rfl, rfl⟩, rfl, ?_⟩
      refine .inr ⟨tensorCount, _, _, ⟨ht, rfl⟩, rfl, ?_⟩
      exact .inr ⟨kvCount, _, rest, ⟨hk, rfl⟩, rfl, h⟩

end Flambeau.Quant
