import Flambeau.Quant.GgufRanges
import Flambeau.Quant.GgufTotal

namespace Flambeau.Quant
open Systems Overflow

/-- The bytes that the index gives the tensor. -/
def TensorInfo.size (info : TensorInfo) : Nat := info.dims.prod / info.dtype.blockSize * info.dtype.typeSize

/-- No product of the tensor's size overflows. -/
def TensorInfo.SizeFits (info : TensorInfo) : Prop := ProductFits 1 info.dims ∧ info.size < 2 ^ 64

/-- Consecutive units of a payload. -/
def unitsOf (payload : List UInt8) (per start count : Nat) : List UInt8 :=
  (List.range' start count).flatMap fun i => (payload.drop (i * per)).take per

theorem unitsOf_eq (payload : List UInt8) (per start count : Nat) :
    unitsOf payload per start count = (payload.drop (start * per)).take (count * per) := by
  induction count generalizing start with
  | zero => simp [unitsOf]
  | succ count ih =>
    have hsum : (count + 1) * per = per + count * per := by
      rw [Nat.succ_mul, Nat.add_comm]
    have hnext : start * per + per = (start + 1) * per := (Nat.succ_mul _ _).symm
    unfold unitsOf at ih ⊢
    rw [List.range'_succ, List.flatMap_cons, ih, hsum, List.take_add, List.drop_drop, hnext]

theorem unitsOf_append (payload : List UInt8) (per start a b : Nat) :
    unitsOf payload per start a ++ unitsOf payload per (start + a) b =
      unitsOf payload per start (a + b) := by
  unfold unitsOf
  rw [← List.flatMap_append, List.range'_append_1]

/-- All units are the payload. -/
theorem unitsOf_all (payload : List UInt8) (per units : Nat) (h : payload.length ≤ units * per) :
    unitsOf payload per 0 units = payload := by
  rw [unitsOf_eq, Nat.zero_mul, List.drop_zero, List.take_of_length_le h]

namespace Parsed

variable {file : Parsed} {info : TensorInfo} {Q : List UInt8 → Prop}

/-- Where the tensor's bytes begin in the file. -/
def base (file : Parsed) (info : TensorInfo) : Nat := file.tensorDataOffset + info.relOffset

/-- The tensor's extent of the mapped file. -/
def payload (file : Parsed) (info : TensorInfo) : List UInt8 :=
  (file.mmap.bytes.drop (file.base info)).take info.size

theorem safe_byteSize {k : Overflow → Nat → Checked α} {Q : α → Prop} :
    Safe (fun o => info.byteSize o >>= k o) Q ↔ info.SizeFits ∧ Safe (fun o => k o info.size) Q := by
  have hassoc : ∀ o, (info.byteSize o >>= k o) =
      o.product .arithmeticOverflow 1 info.dims >>= fun elems =>
        word o (elems / info.dtype.blockSize * info.dtype.typeSize) >>= k o := by
    intro o
    unfold TensorInfo.byteSize
    cases (o.product .arithmeticOverflow 1 info.dims : Checked Nat) <;> rfl
  simp only [hassoc]
  rw [safe_product, Nat.one_mul]
  unfold word
  rw [safe_word]
  exact and_assoc.symm

/-- A range of bytes needs the size to fit and, where it is in the tensor, its place in
the file. -/
theorem safe_rangeFor (file : Parsed) (info : TensorInfo) (start len : Nat) :
    Safe (fun o => file.rangeFor o info start len) Q ↔ info.SizeFits ∧
      (¬ info.size < min (start + len) (2 ^ 64 - 1) → file.base info + start + len < 2 ^ 64 ∧
        (file.base info + start + len ≤ file.mmap.bytes.length →
          Q ((file.mmap.bytes.drop (file.base info + start)).take len))) := by
  unfold rangeFor
  rw [safe_byteSize]
  refine and_congr_right fun _ => ?_
  dsimp only
  rw [safe_ite]
  unfold word
  simp only [safe_word, safe_ite, safe_err, implies_true, true_and]
  refine imp_congr_right fun _ => ?_
  have hmono : file.base info ≤ file.base info + start + len := by omega
  change (file.base info < 2 ^ 64 ∧ file.base info + start < 2 ^ 64 ∧ file.base info + start + len < 2 ^ 64 ∧
    (¬ file.mmap.bytes.length < file.base info + start + len →
      (file.base info + start + len < file.base info + start → _) ∧
      (¬ file.base info + start + len < file.base info + start → _))) ↔ _
  rw [safe_ok, Nat.add_sub_cancel_left]
  constructor
  · rintro ⟨-, -, hend, hrest⟩
    exact ⟨hend, fun hin => (hrest (Nat.not_lt.mpr hin)).2 (by omega)⟩
  · rintro ⟨hend, hrest⟩
    refine ⟨by omega, by omega, hend, fun hin => ⟨fun hlt => by omega, fun _ => hrest (Nat.not_lt.mp hin)⟩⟩

theorem safe_lookup {k : Overflow → TensorInfo → Checked α} {Q : α → Prop} (name : String) :
    Safe (fun o => file.lookup name >>= k o) Q ↔
      ∀ info, file.tensors name = some info → Safe (fun o => k o info) Q := by
  unfold lookup Parsed.info
  cases file.tensors name with
  | none => exact ⟨fun _ _ h => (by cases h), fun _ => safe_err⟩
  | some info =>
    constructor
    · intro h info' hinfo
      cases hinfo
      exact h
    · exact fun h => h info rfl

/-- The requested units, whole and inside the tensor's extent. -/
def UnitsRead (file : Parsed) (info : TensorInfo) (units perUnit start count : Nat)
    (bytes : List UInt8) : Prop :=
  start + count ≤ units ∧
  bytes = unitsOf (file.payload info) (perUnit / info.dtype.blockSize * info.dtype.typeSize) start count ∧
  bytes.length = count * (perUnit / info.dtype.blockSize * info.dtype.typeSize)

/-- No sum or product on the way to a range of units overflows. -/
def RangeFits (file : Parsed) (info : TensorInfo) (units perUnit start count : Nat) : Prop :=
  perUnit % info.dtype.blockSize = 0 → start + count < 2 ^ 64 ∧ (start + count ≤ units →
    perUnit / info.dtype.blockSize * info.dtype.typeSize < 2 ^ 64 ∧ info.SizeFits ∧
      file.base info + (start + count) * (perUnit / info.dtype.blockSize * info.dtype.typeSize) < 2 ^ 64)

/-- A tensor of whole units is as long as they are. -/
theorem size_units (hprod : info.dims.prod = units * perUnit) (haligned : perUnit % info.dtype.blockSize = 0) :
    info.size = units * (perUnit / info.dtype.blockSize * info.dtype.typeSize) := by
  obtain ⟨k, hk⟩ := Nat.dvd_of_mod_eq_zero haligned
  have hpos := info.dtype.blockSize_pos
  have hswap : units * (info.dtype.blockSize * k) = info.dtype.blockSize * (units * k) := by
    rw [Nat.mul_left_comm]
  unfold TensorInfo.size
  rw [hprod, hk, hswap, Nat.mul_div_cancel_left _ hpos, Nat.mul_div_cancel_left _ hpos, Nat.mul_assoc]

/-- What a range inside the file reads is the units' bytes. -/
theorem units_read (hsize : info.size = units * per) (hrange : start + count ≤ units)
    (hin : file.base info + start * per + count * per ≤ file.mmap.bytes.length) :
    (file.mmap.bytes.drop (file.base info + start * per)).take (count * per) =
        unitsOf (file.payload info) per start count ∧
      ((file.mmap.bytes.drop (file.base info + start * per)).take (count * per)).length = count * per := by
  have hle : start * per + count * per ≤ info.size := by
    rw [hsize, ← Nat.add_mul]
    exact Nat.mul_le_mul_right per hrange
  constructor
  · unfold payload
    rw [unitsOf_eq, List.drop_take, List.take_take, List.drop_drop, Nat.min_eq_left (by omega)]
  · rw [List.length_take, List.length_drop]
    omega

theorem safe_unitRange (hfind : file.tensors name = some info)
    (hprod : info.dims.prod = units * perUnit) (start count : Nat) :
    Safe (fun o => file.unitRange o name info units perUnit start count)
        (file.UnitsRead info units perUnit start count) ↔
      file.RangeFits info units perUnit start count := by
  unfold unitRange RangeFits rawRange UnitsRead
  rw [safe_ite]
  have hlookup : ∀ (o : Overflow) (byteStart byteLen : Nat),
      (file.lookup name >>= fun info => file.rangeFor o info byteStart byteLen) =
        file.rangeFor o info byteStart byteLen := by
    intro o byteStart byteLen
    unfold lookup Parsed.info
    rw [hfind]
    rfl
  simp only [hlookup]
  unfold word
  simp only [safe_word, safe_ite, safe_err, implies_true, true_and, ne_eq, Decidable.not_not,
    safe_rangeFor, Nat.not_lt]
  refine imp_congr_right fun haligned => and_congr_right fun _ => ?_
  refine imp_congr_right fun hrange => and_congr_right fun _ => ?_
  have hsize := size_units hprod haligned
  generalize perUnit / info.dtype.blockSize * info.dtype.typeSize = per at hsize ⊢
  have hsum : start * per + count * per = (start + count) * per := (Nat.add_mul start count per).symm
  have hle : start * per + count * per ≤ info.size := by
    rw [hsize, hsum]
    exact Nat.mul_le_mul_right per hrange
  constructor
  · rintro ⟨-, -, hfits, hrest⟩
    refine ⟨hfits, ?_⟩
    have hend := (hrest (by omega)).1
    omega
  · rintro ⟨hfits, hend⟩
    have hword := hfits.2
    refine ⟨by omega, by omega, hfits, fun _ => ⟨by omega, fun hin => ?_⟩⟩
    exact ⟨hrange, units_read hsize hrange hin⟩

/-- `tensor_raw` reports an error or gives the whole extent. -/
def RawSafe (file : Parsed) (name : String) : Prop :=
  Safe (fun o => file.wholeTensor o name) fun bytes => ∃ info, file.tensors name = some info ∧
    bytes = file.payload info ∧ bytes.length = info.size

/-- `tensor_row_range_raw` reports an error or gives the rows asked for. -/
def RowsSafe (file : Parsed) (name : String) (rowStart rowCount : Nat) : Prop :=
  Safe (fun o => file.rowRange o name rowStart rowCount) fun bytes => ∃ info rows cols,
    file.tensors name = some info ∧ info.dims = [rows, cols] ∧
      file.UnitsRead info rows cols rowStart rowCount bytes

/-- `tensor_expert_range_raw` reports an error or gives the experts asked for. -/
def ExpertsSafe (file : Parsed) (name : String) (eStart eCount : Nat) : Prop :=
  Safe (fun o => file.expertRange o name eStart eCount) fun bytes => ∃ info eTotal d1 d2,
    file.tensors name = some info ∧ info.dims = [eTotal, d1, d2] ∧
      file.UnitsRead info eTotal (d1 * d2) eStart eCount bytes

theorem rawSafe_iff (file : Parsed) (name : String) : file.RawSafe name ↔
    ∀ info, file.tensors name = some info → info.SizeFits ∧ file.base info + info.size < 2 ^ 64 := by
  unfold RawSafe wholeTensor
  rw [safe_lookup]
  refine forall_congr' fun info => imp_congr_right fun hfind => ?_
  rw [safe_byteSize]
  refine and_congr_right fun hfits => ?_
  rw [safe_rangeFor]
  have hword := hfits.2
  simp only [Nat.add_zero, Nat.zero_add]
  constructor
  · rintro ⟨-, hrest⟩
    exact (hrest (by omega)).1
  · intro hend
    refine ⟨hfits, fun _ => ⟨hend, fun hin => ⟨info, hfind, rfl, ?_⟩⟩⟩
    rw [List.length_take, List.length_drop]
    omega

theorem rowsSafe_iff (file : Parsed) (name : String) (rowStart rowCount : Nat) :
    file.RowsSafe name rowStart rowCount ↔ ∀ info rows cols, file.tensors name = some info →
      info.dims = [rows, cols] → file.RangeFits info rows cols rowStart rowCount := by
  unfold RowsSafe rowRange
  rw [safe_lookup]
  refine forall_congr' fun info => ?_
  constructor
  · intro h rows cols hfind hdims
    have hthis := h hfind
    simp only [hdims] at hthis
    have hprod : info.dims.prod = rows * cols := by simp [hdims]
    refine (safe_unitRange hfind hprod rowStart rowCount).mp fun o => (hthis o).imp_right ?_
    rintro ⟨bytes, hcall, info', rows', cols', hfind', hdims', hread⟩
    rw [hfind] at hfind'
    cases hfind'
    rw [hdims] at hdims'
    cases hdims'
    exact ⟨bytes, hcall, hread⟩
  · intro h hfind
    rcases hdims : info.dims with _ | ⟨rows, _ | ⟨cols, _ | ⟨d, ds⟩⟩⟩
    · exact safe_err
    · exact safe_err
    · have hprod : info.dims.prod = rows * cols := by simp [hdims]
      refine fun o => ((safe_unitRange hfind hprod rowStart rowCount).mpr (h rows cols hfind hdims) o).imp_right ?_
      rintro ⟨bytes, hcall, hread⟩
      exact ⟨bytes, hcall, info, rows, cols, hfind, hdims, hread⟩
    · exact safe_err

theorem expertsSafe_iff (file : Parsed) (name : String) (eStart eCount : Nat) :
    file.ExpertsSafe name eStart eCount ↔ ∀ info eTotal d1 d2, file.tensors name = some info →
      info.dims = [eTotal, d1, d2] →
        d1 * d2 < 2 ^ 64 ∧ file.RangeFits info eTotal (d1 * d2) eStart eCount := by
  unfold ExpertsSafe expertRange
  rw [safe_lookup]
  refine forall_congr' fun info => ?_
  constructor
  · intro h eTotal d1 d2 hfind hdims
    have hthis := h hfind
    simp only [hdims] at hthis
    unfold word at hthis
    obtain ⟨hword, hthis⟩ := safe_word.mp hthis
    have hprod : info.dims.prod = eTotal * (d1 * d2) := by simp [hdims]
    refine ⟨hword, (safe_unitRange hfind hprod eStart eCount).mp fun o => (hthis o).imp_right ?_⟩
    rintro ⟨bytes, hcall, info', eTotal', d1', d2', hfind', hdims', hread⟩
    rw [hfind] at hfind'
    cases hfind'
    rw [hdims] at hdims'
    cases hdims'
    exact ⟨bytes, hcall, hread⟩
  · intro h hfind
    rcases hdims : info.dims with _ | ⟨eTotal, _ | ⟨d1, _ | ⟨d2, _ | ⟨d, ds⟩⟩⟩⟩
    · exact safe_err
    · exact safe_err
    · exact safe_err
    · obtain ⟨hword, hfits⟩ := h eTotal d1 d2 hfind hdims
      have hprod : info.dims.prod = eTotal * (d1 * d2) := by simp [hdims]
      unfold word
      refine safe_word.mpr ⟨hword, fun o => ?_⟩
      refine ((safe_unitRange hfind hprod eStart eCount).mpr hfits o).imp_right ?_
      rintro ⟨bytes, hcall, hread⟩
      exact ⟨bytes, hcall, info, eTotal, d1, d2, hfind, hdims, hread⟩
    · exact safe_err

/-- Consecutive units of a tensor that is there whole make up its extent. -/
theorem units_concat (hprod : info.dims.prod = units * perUnit)
    (haligned : perUnit % info.dtype.blockSize = 0) (a b : Nat) (hab : a + b = units) :
    unitsOf (file.payload info) (perUnit / info.dtype.blockSize * info.dtype.typeSize) 0 a ++
      unitsOf (file.payload info) (perUnit / info.dtype.blockSize * info.dtype.typeSize) a b =
      file.payload info := by
  have happ := unitsOf_append (file.payload info)
    (perUnit / info.dtype.blockSize * info.dtype.typeSize) 0 a b
  rw [Nat.zero_add, hab] at happ
  rw [happ]
  refine unitsOf_all _ _ _ ?_
  rw [← size_units hprod haligned]
  exact List.length_take_le _ _

/-- Raw access is safe exactly where no product or sum on the call's way overflows;
consecutive ranges then make up the tensor. -/
theorem raw_access_iff (file : Parsed) (name : String) :
    (file.RawSafe name ↔
      ∀ info, file.tensors name = some info → info.SizeFits ∧ file.base info + info.size < 2 ^ 64) ∧
    (∀ rowStart rowCount, file.RowsSafe name rowStart rowCount ↔
      ∀ info rows cols, file.tensors name = some info → info.dims = [rows, cols] →
        file.RangeFits info rows cols rowStart rowCount) ∧
    (∀ eStart eCount, file.ExpertsSafe name eStart eCount ↔
      ∀ info eTotal d1 d2, file.tensors name = some info → info.dims = [eTotal, d1, d2] →
        d1 * d2 < 2 ^ 64 ∧ file.RangeFits info eTotal (d1 * d2) eStart eCount) ∧
    ∀ info units perUnit, info.dims.prod = units * perUnit → perUnit % info.dtype.blockSize = 0 →
      ∀ a b, a + b = units →
        unitsOf (file.payload info) (perUnit / info.dtype.blockSize * info.dtype.typeSize) 0 a ++
          unitsOf (file.payload info) (perUnit / info.dtype.blockSize * info.dtype.typeSize) a b =
          file.payload info :=
  ⟨file.rawSafe_iff name, file.rowsSafe_iff name, file.expertsSafe_iff name,
    fun _ _ _ hprod haligned a b hab => units_concat hprod haligned a b hab⟩

/-- One tensor `a` of one F32, whose offset is 64 bytes short of the end of the word. -/
def farFile : Mmap where
  bytes := [0x47, 0x47, 0x55, 0x46, 3, 0, 0, 0, 1, 0, 0, 0, 0, 0, 0, 0, 0, 0, 0, 0, 0, 0, 0, 0,
    1, 0, 0, 0, 0, 0, 0, 0, 0x61, 0, 0, 0, 0, 0, 0, 0, 0, 0xC0, 0xFF, 0xFF, 0xFF, 0xFF, 0xFF, 0xFF, 0xFF]
  fits := by decide

theorem farFile_reads : (match parseGgufHeader (hosted 1000) farFile with
    | .ok file => some (file.wholeTensor .wraps "a", file.wholeTensor .panics "a")
    | _ => none) = some (.ok [0x47, 0x47, 0x55, 0x46], .fault .arithmeticOverflow) := by decide +kernel

/-- A build without overflow checks reads the magic number; a checked one panics. -/
theorem far_offset_wraps : ∃ file, parseGgufHeader (hosted 1000) farFile = .ok file ∧
    file.wholeTensor .wraps "a" = .ok [0x47, 0x47, 0x55, 0x46] ∧ ¬ file.RawSafe "a" := by
  have hread := farFile_reads
  cases h : parseGgufHeader (hosted 1000) farFile with
  | err e =>
    rw [h] at hread
    cases hread
  | fault f =>
    rw [h] at hread
    cases hread
  | ok file =>
    rw [h] at hread
    obtain ⟨hwraps, hpanics⟩ := Prod.mk.inj (Option.some.inj hread)
    exact ⟨file, rfl, hwraps, not_safe_fault hpanics⟩

end Parsed
end Flambeau.Quant
