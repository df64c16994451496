import Mathlib.Data.ZMod.Basic
import Mathlib.Tactic.Ring
import Flambeau.Runtime.TpPartitions

namespace Flambeau.Runtime
open Systems Quant

/-- A `u64` without its wraps. -/
abbrev Word := ZMod (2 ^ 64)

@[simp] theorem cast_umul (a b : Nat) : (umul a b : Word) = a * b := by
  unfold umul
  rw [ZMod.natCast_mod, Nat.cast_mul]

@[simp] theorem cast_uadd (a b : Nat) : (uadd a b : Word) = a + b := by
  unfold uadd
  rw [ZMod.natCast_mod, Nat.cast_add]

theorem umul_lt (a b : Nat) : umul a b < 2 ^ 64 := Nat.mod_lt _ (by decide)

theorem uadd_lt (a b : Nat) : uadd a b < 2 ^ 64 := Nat.mod_lt _ (by decide)

/-- Words that agree without their wraps. -/
theorem eq_mod_of_cast {a b : Nat} (h : (a : Word) = b) (ha : a < 2 ^ 64) : a = b % 2 ^ 64 := by
  rw [← (ZMod.natCast_eq_natCast_iff' a b (2 ^ 64)).mp h, Nat.mod_eq_of_lt ha]

/-- A range that ends behind its start has not wrapped. -/
theorem uadd_exact (hle : s ≤ uadd s n) (hs : s < 2 ^ 64) (hn : n < 2 ^ 64) : uadd s n = s + n := by
  rcases Nat.lt_or_ge (s + n) (2 ^ 64) with hfits | hwraps
  · exact uadd_eq hfits
  · unfold uadd at hle
    rw [Nat.mod_eq_sub_mod hwraps, Nat.mod_eq_of_lt (by omega)] at hle
    omega

theorem range_length {raw : List UInt8} (hle : s ≤ uadd s n) (hend : uadd s n ≤ raw.length) (hs : s < 2 ^ 64)
    (hn : n < 2 ^ 64) : ((raw.drop s).take (uadd s n - s)).length = n ∧ s + n ≤ raw.length := by
  have hexact := uadd_exact hle hs hn
  rw [hexact] at hend ⊢
  rw [List.length_take, List.length_drop]
  omega

/-- Parts of one length that each end by `limit`, the next where the last ends: none of
them wraps. -/
theorem parts_le (hlimit : limit < 2 ^ 64) (hbase : base % 2 ^ 64 ≤ limit) (n : Nat)
    (h : ∀ k < n, (base + k * len) % 2 ^ 64 + len ≤ limit) : base % 2 ^ 64 + n * len ≤ limit := by
  induction n with
  | zero => rw [Nat.zero_mul]; exact hbase
  | succ n ih =>
    have hbefore := ih fun k hk => h k (Nat.lt_succ_of_lt hk)
    have hlast := h n (Nat.lt_succ_self n)
    rw [Nat.add_mod, Nat.mod_eq_of_lt (a := n * len) (by omega), Nat.mod_eq_of_lt (by omega)] at hlast
    rw [Nat.succ_mul]
    omega

/-- The parts of `rows` rows, `w` of them in a row. -/
theorem grid_le (hlimit : limit < 2 ^ 64) (rows w : Nat)
    (h : ∀ row < rows, ∀ r < w, (row * w + r) * len % 2 ^ 64 + len ≤ limit) : rows * w * len ≤ limit := by
  have hparts : 0 % 2 ^ 64 + rows * w * len ≤ limit := parts_le hlimit (Nat.zero_le _) (rows * w) fun k hk => by
    have hw : 0 < w := Nat.pos_of_ne_zero fun hzero => by
      rw [hzero, Nat.mul_zero] at hk
      exact absurd hk (Nat.not_lt_zero k)
    have hpart := h (k / w) (Nat.div_lt_of_lt_mul (by rwa [Nat.mul_comm])) (k % w) (Nat.mod_lt k hw)
    rwa [Nat.div_add_mod', ← Nat.zero_add (k * len)] at hpart
  rwa [Nat.zero_mod, Nat.zero_add] at hparts

theorem length_flatMap_range {f : Nat → List α} (n : Nat) (h : ∀ i < n, (f i).length = len) :
    ((List.range n).flatMap f).length = n * len := by
  induction n with
  | zero => rw [Nat.zero_mul]; rfl
  | succ n ih =>
    rw [List.range_succ, List.flatMap_append, List.length_append, ih fun i hi => h i (Nat.lt_succ_of_lt hi),
      List.flatMap_cons, List.flatMap_nil, List.append_nil, h n (Nat.lt_succ_self n), Nat.succ_mul]

/-- A range that is read has the length asked for, and ends in the file. -/
theorem rawFor_length {file : Parsed} {info : TensorInfo} (h : file.rawFor info s n = .ok xs) (hn : n < 2 ^ 64) :
    xs.length = n ∧ (file.tensorDataOffset + info.relOffset + s) % 2 ^ 64 + n ≤ file.mmap.bytes.length := by
  unfold Parsed.rawFor at h
  dsimp only at h
  split at h
  · cases h
  split at h
  · cases h
  split at h
  · cases h
  rename_i hend horder
  cases h
  exact range_length (Nat.not_lt.mp horder) (Nat.not_lt.mp hend) (Nat.mod_lt _ (by decide)) hn

theorem sizeInBytes_lt (info : TensorInfo) : info.sizeInBytes < 2 ^ 64 := by
  rw [sizeInBytes_eq]
  exact Nat.mod_lt _ (by decide)

theorem tensorRaw_length {file : Parsed} {context : String} (hinfo : file.info name = .ok info)
    (h : tensorRaw file name context = .ok raw) : raw.length = info.sizeInBytes := by
  have hread := Outcome.relabel_eq_ok.mp h
  unfold Parsed.tensorRaw at hread
  rw [hinfo] at hread
  exact (rawFor_length hread (sizeInBytes_lt info)).1

section Lengths
variable {file : Parsed} {info : TensorInfo} {world rank : UInt32}

/-- The bytes of a tensor's blocks. -/
def blockBytes (info : TensorInfo) : Nat := info.dims.prod / info.dtype.blockSize * info.dtype.typeSize

theorem cast_share {n w : Nat} (hdvd : n % w = 0) : (w : Word) * (n / w : Nat) = n := by
  rw [← Nat.cast_mul, Nat.mul_div_cancel' (Nat.dvd_of_mod_eq_zero hdvd)]

theorem vector_length (hinfo : file.info name = .ok info) (hdims : info.dims = [outer])
    (h : sliceColParallelDim0 file name world rank = .ok bytes) :
    let len := umul (outer / world.toNat) info.dtype.typeSize
    bytes.length = len ∧ (0 + rank.toNat * len) % 2 ^ 64 + len ≤ info.sizeInBytes := by
  obtain ⟨-, -, context, raw, hraw, hin, rfl⟩ := sliceVector_ok hinfo hdims h
  dsimp only
  obtain ⟨hlen, hend⟩ := range_length hin.1 hin.2 (umul_lt _ _) (umul_lt _ _)
  rw [tensorRaw_length hinfo hraw] at hend
  have hstart : umul (umul rank.toNat (outer / world.toNat)) info.dtype.typeSize =
      (0 + rank.toNat * umul (outer / world.toNat) info.dtype.typeSize) % 2 ^ 64 := by
    refine eq_mod_of_cast ?_ (umul_lt _ _)
    push_cast [cast_umul]
    ring
  rw [hstart] at hend
  exact ⟨hlen, hend⟩

theorem rows_length {inner : Nat} (hinfo : file.info name = .ok info) (hdims : info.dims = [outer, inner])
    (h : sliceColParallelDim0 file name world rank = .ok bytes) :
    let len := umul (outer / world.toNat) (umul (inner / info.dtype.blockSize) info.dtype.typeSize)
    bytes.length = len ∧
      (file.tensorDataOffset + info.relOffset + rank.toNat * len) % 2 ^ 64 + len ≤ file.mmap.bytes.length := by
  obtain ⟨-, -, -, hraw⟩ := sliceRows_ok hinfo hdims h
  dsimp only
  obtain ⟨hlen, hend⟩ := rawFor_length hraw (umul_lt _ _)
  refine ⟨hlen, Eq.trans_le ?_ hend⟩
  congr 1
  refine ((ZMod.natCast_eq_natCast_iff' _ _ _).mp (?_ : ((_ : Nat) : Word) = (_ : Nat)))
  push_cast [cast_umul]
  ring

theorem expertRows_length (hinfo : file.info name = .ok info) (hdims : info.dims = [nExperts, dim1, dim2])
    (h : sliceColParallelDim13d file name world rank = .ok bytes) :
    let len := umul (dim1 / world.toNat) (umul (dim2 / info.dtype.blockSize) info.dtype.typeSize)
    bytes.length = nExperts * len ∧
      ∀ e < nExperts, (e * world.toNat + rank.toNat) * len % 2 ^ 64 + len ≤ info.sizeInBytes := by
  obtain ⟨_, _, _, raw, hdims', -, hdvd, -, hraw, hin, rfl⟩ := sliceExpertRows_ok hinfo h
  rw [hdims] at hdims'
  cases hdims'
  dsimp only at hin ⊢
  have hpart := fun e he => range_length (hin e he).1 (hin e he).2 (uadd_lt _ _) (umul_lt _ _)
  refine ⟨length_flatMap_range _ fun e he => (hpart e he).1, fun e he => ?_⟩
  have hend := (hpart e he).2
  rw [tensorRaw_length hinfo hraw] at hend
  refine Eq.trans_le ?_ hend
  congr 1
  refine (eq_mod_of_cast ?_ (uadd_lt _ _)).symm
  push_cast [cast_umul, cast_uadd]
  rw [← cast_share hdvd]
  ring

theorem cast_columns {n w size : Nat} (hdvd : n % w = 0) (hlocal : n / w % size = 0) :
    (w : Word) * (n / w / size : Nat) = (n / size : Nat) := by
  rw [Nat.div_right_comm]
  exact cast_share (columns_blocked hdvd hlocal).2

theorem columns_length {inner : Nat} (hinfo : file.info name = .ok info) (hdims : info.dims = [outer, inner])
    (h : sliceRowParallelDim1 file name world rank = .ok bytes) :
    let len := umul (inner / world.toNat / info.dtype.blockSize) info.dtype.typeSize
    bytes.length = outer * len ∧
      ∀ row < outer, (row * world.toNat + rank.toNat) * len % 2 ^ 64 + len ≤ info.sizeInBytes := by
  obtain ⟨_, _, raw, hdims', -, hdvd, hlocal, hraw, hin, rfl⟩ := sliceColumns_ok hinfo h
  rw [hdims] at hdims'
  cases hdims'
  have hparts := cast_columns hdvd hlocal
  dsimp only at hin ⊢
  have hpart := fun row hrow => range_length (hin row hrow).1 (hin row hrow).2 (uadd_lt _ _) (umul_lt _ _)
  refine ⟨length_flatMap_range _ fun row hrow => (hpart row hrow).1, fun row hrow => ?_⟩
  have hend := (hpart row hrow).2
  rw [tensorRaw_length hinfo hraw] at hend
  refine Eq.trans_le ?_ hend
  congr 1
  refine (eq_mod_of_cast ?_ (uadd_lt _ _)).symm
  push_cast [cast_umul, cast_uadd]
  rw [← hparts]
  ring

theorem expertColumns_length (hinfo : file.info name = .ok info) (hdims : info.dims = [nExperts, dim1, dim2])
    (h : sliceRowParallelDim23d file name world rank = .ok bytes) :
    let len := umul (dim2 / world.toNat / info.dtype.blockSize) info.dtype.typeSize
    bytes.length = nExperts * (dim1 * len) ∧ ∀ e < nExperts, ∀ row < dim1,
      ((e * dim1 + row) * world.toNat + rank.toNat) * len % 2 ^ 64 + len ≤ info.sizeInBytes := by
  obtain ⟨_, _, _, raw, hdims', -, hdvd, hlocal, hraw, hin, rfl⟩ := sliceExpertColumns_ok hinfo h
  rw [hdims] at hdims'
  cases hdims'
  have hparts := cast_columns hdvd hlocal
  dsimp only at hin ⊢
  have hpart := fun e he row hrow =>
    range_length (hin e he row hrow).1 (hin e he row hrow).2 (uadd_lt _ _) (umul_lt _ _)
  refine ⟨length_flatMap_range _ fun e he => length_flatMap_range _ fun row hrow => (hpart e he row hrow).1,
    fun e he row hrow => ?_⟩
  have hend := (hpart e he row hrow).2
  rw [tensorRaw_length hinfo hraw] at hend
  refine Eq.trans_le ?_ hend
  congr 1
  refine (eq_mod_of_cast ?_ (uadd_lt _ _)).symm
  push_cast [cast_umul, cast_uadd]
  rw [← hparts]
  ring

theorem heads_lt (a b : UInt32) : a.toNat * b.toNat < 2 ^ 64 := by
  have ha := a.toNat_lt
  have hb := b.toNat_lt
  exact Nat.lt_of_le_of_lt (Nat.mul_le_mul (Nat.le_of_lt_succ ha) (Nat.le_of_lt_succ hb)) (by decide)

/-- The parts that `q`, and `k`, have over the ranks. -/
def FusedQkvSpec.kParts (spec : FusedQkvSpec) (world : UInt32) : Nat :=
  if spec.kqReplicated then 1 else world.toNat

/-- The rows of `q`, and of `k`, of a rank. -/
def FusedQkvSpec.kLocal (spec : FusedQkvSpec) (world : UInt32) : Nat := spec.kRows / spec.kParts world

theorem FusedQkvSpec.kParts_dvd {spec : FusedQkvSpec}
    (hk : spec.kqReplicated = true ∨ spec.numKHeads.toNat % world.toNat = 0) :
    spec.kRows % spec.kParts world = 0 := by
  unfold FusedQkvSpec.kParts
  split
  · exact Nat.mod_one _
  · rename_i hrepl
    exact Nat.mod_eq_zero_of_dvd
      (Dvd.dvd.mul_right (Nat.dvd_of_mod_eq_zero (hk.resolve_left hrepl)) spec.headKDim.toNat)

/-- Where the parts of a rank start, as words. -/
theorem fusedParts_words {spec : FusedQkvSpec}
    (hk : spec.kqReplicated = true ∨ spec.numKHeads.toNat % world.toNat = 0) :
    ∃ q k v : Nat, fusedParts spec world rank =
        [(q, spec.kLocal world), (k, spec.kLocal world), (v, spec.vRows / world.toNat)] ∧
      (q : Word) = (if spec.kqReplicated then 0 else rank.toNat : Nat) * spec.kLocal world ∧
      (k : Word) = (spec.kParts world + (if spec.kqReplicated then 0 else rank.toNat) : Nat) * spec.kLocal world ∧
      (v : Word) = 2 * spec.kRows + rank.toNat * (spec.vRows / world.toNat : Nat) := by
  have hkRows : umul spec.numKHeads.toNat spec.headKDim.toNat = spec.kRows := umul_eq (heads_lt _ _)
  have hvRows : umul spec.numVHeads.toNat spec.headVDim.toNat = spec.vRows := umul_eq (heads_lt _ _)
  have hwhole := cast_share (FusedQkvSpec.kParts_dvd hk)
  change ((spec.kParts world : Nat) : Word) * spec.kLocal world = spec.kRows at hwhole
  unfold fusedParts
  dsimp only
  rw [hkRows, hvRows]
  cases hrepl : spec.kqReplicated with
  | true =>
    have hparts : spec.kParts world = 1 := by
      unfold FusedQkvSpec.kParts
      rw [hrepl]
      rfl
    have hlocal : spec.kLocal world = spec.kRows := by
      unfold FusedQkvSpec.kLocal
      rw [hparts, Nat.div_one]
    simp only [if_true]
    refine ⟨_, _, _, by rw [hlocal], ?_, ?_, ?_⟩
    · push_cast
      ring
    · rw [← hwhole, hparts]
    · push_cast [cast_uadd, cast_umul]
      ring
  | false =>
    have hlocal : spec.kLocal world = spec.kRows / world.toNat := by
      unfold FusedQkvSpec.kLocal FusedQkvSpec.kParts
      rw [hrepl]
      rfl
    simp only [Bool.false_eq_true, if_false]
    refine ⟨_, _, _, by rw [hlocal], ?_, ?_, ?_⟩
    · push_cast [cast_umul]
      rw [hlocal]
    · push_cast [cast_uadd, cast_umul]
      rw [← hwhole, hlocal]
      ring
    · push_cast [cast_uadd, cast_umul]
      ring

/-- The parts of one rank of a fused tensor. -/
theorem fused_length {spec : FusedQkvSpec} {inner : Nat} (hinfo : file.info name = .ok info) (hdims : info.dims = [outer, inner])
    (h : sliceFusedQkvParallel file name world rank spec = .ok bytes) :
    let rowBytes := umul (inner / info.dtype.blockSize) info.dtype.typeSize
    let kLen := umul (spec.kLocal world) rowBytes
    let vLen := umul (spec.vRows / world.toNat) rowBytes
    bytes.length = kLen + kLen + vLen ∧
      (∀ row < 2, (row * spec.kParts world + if spec.kqReplicated then 0 else rank.toNat) * kLen % 2 ^ 64 + kLen ≤
        info.sizeInBytes) ∧
      (2 * spec.kParts world * kLen + rank.toNat * vLen) % 2 ^ 64 + vLen ≤ info.sizeInBytes := by
  obtain ⟨_, _, raw, hdims', -, hv, hk, -, -, hraw, hin, rfl⟩ := sliceFused_ok hinfo h
  rw [hdims] at hdims'
  cases hdims'
  obtain ⟨q, k, v, hparts, hq, hk', hv'⟩ := @fusedParts_words world rank _ hk
  have hwhole := cast_share (FusedQkvSpec.kParts_dvd hk)
  change ((spec.kParts world : Nat) : Word) * spec.kLocal world = spec.kRows at hwhole
  dsimp only at hin ⊢
  rw [hparts] at hin ⊢
  generalize umul (inner / info.dtype.blockSize) info.dtype.typeSize = rowBytes at *
  have hpart : ∀ p ∈ [(q, spec.kLocal world), (k, spec.kLocal world), (v, spec.vRows / world.toNat)],
      ((raw.drop (umul p.1 rowBytes)).take (umul (uadd p.1 p.2) rowBytes - umul p.1 rowBytes)).length =
        umul p.2 rowBytes ∧ umul p.1 rowBytes + umul p.2 rowBytes ≤ info.sizeInBytes := by
    intro p hp
    have hsum : umul (uadd p.1 p.2) rowBytes = uadd (umul p.1 rowBytes) (umul p.2 rowBytes) := by
      refine eq_mod_of_cast ?_ (umul_lt _ _)
      push_cast [cast_umul, cast_uadd]
      ring
    have hp' := hin p hp
    rw [hsum] at hp' ⊢
    rw [← tensorRaw_length hinfo hraw]
    exact range_length hp'.1 hp'.2 (umul_lt _ _) (umul_lt _ _)
  obtain ⟨hqLen, hqEnd⟩ := hpart _ (.head _)
  obtain ⟨hkLen, hkEnd⟩ := hpart _ (.tail _ (.head _))
  obtain ⟨hvLen, hvEnd⟩ := hpart _ (.tail _ (.tail _ (.head _)))
  refine ⟨?_, fun row hrow => ?_, ?_⟩
  · rw [List.flatMap_cons, List.flatMap_cons, List.flatMap_cons, List.flatMap_nil, List.append_nil,
      List.length_append, List.length_append, hqLen, hkLen, hvLen, Nat.add_assoc]
  · rcases (by omega : row = 0 ∨ row = 1) with rfl | rfl
    · refine Eq.trans_le ?_ hqEnd
      congr 1
      refine (eq_mod_of_cast ?_ (umul_lt _ _)).symm
      push_cast [cast_umul, hq]
      ring
    · refine Eq.trans_le ?_ hkEnd
      congr 1
      refine (eq_mod_of_cast ?_ (umul_lt _ _)).symm
      push_cast [cast_umul, hk']
      ring
  · refine Eq.trans_le ?_ hvEnd
    congr 1
    refine (eq_mod_of_cast ?_ (umul_lt _ _)).symm
    push_cast [cast_umul, hv']
    rw [← hwhole]
    ring

end Lengths

/-- The slices of all ranks have this length. -/
def SlicesOf (file : Parsed) (name : String) (layout : WeightLayout) (len : Nat) : Prop :=
  ∀ rank, layout.IsRank rank → ∀ bytes, sliceForTp file name layout rank = .ok bytes → bytes.length = len

section Worlds
variable {file : Parsed} {info : TensorInfo} {world : UInt32} {layout : WeightLayout}

theorem world_pos (hall : SlicesAll file name layout) (hworld : layout.world = some world) : 0 < world.toNat := by
  obtain ⟨⟨rank, hrank⟩, -⟩ := hall
  exact Nat.zero_lt_of_lt (UInt32.lt_iff_toNat_lt.mp (hrank world hworld))

/-- The slice of a rank by its number. -/
theorem slice_at (hall : SlicesAll file name layout) (hworld : layout.world = some world) (hr : r < world.toNat) :
    ∃ rank bytes, rank.toNat = r ∧ sliceForTp file name layout rank = .ok bytes := by
  have hnat : (UInt32.ofNat r).toNat = r := UInt32.toNat_ofNat_of_lt' (Nat.lt_trans hr world.toNat_lt)
  have hrank : layout.IsRank (UInt32.ofNat r) :=
    (WeightLayout.isRank_iff hworld).mpr (UInt32.lt_iff_toNat_lt.mpr (by rwa [hnat]))
  obtain ⟨bytes, hbytes⟩ := hall.2 _ hrank
  exact ⟨_, bytes, hnat, hbytes⟩

theorem vector_size (hinfo : file.info name = .ok info) (hdims : info.dims = [outer])
    (hall : SlicesAll file name (.colParallel world 0)) :
    ∃ len, SlicesOf file name (.colParallel world 0) len ∧
      world.toNat * len = outer * info.dtype.typeSize % 2 ^ 64 := by
  refine ⟨_, fun rank _ bytes hbytes => (vector_length hinfo hdims hbytes).1, ?_⟩
  have hdvd : outer % world.toNat = 0 := by
    obtain ⟨rank, bytes, -, hbytes⟩ := slice_at hall rfl (world_pos hall rfl)
    exact (sliceVector_ok hinfo hdims hbytes).2.1
  have hsum := parts_le (sizeInBytes_lt info) (Nat.zero_le _) world.toNat fun r hr => by
    obtain ⟨rank, bytes, rfl, hbytes⟩ := slice_at hall rfl hr
    exact (vector_length hinfo hdims hbytes).2
  refine eq_mod_of_cast ?_ (Nat.lt_of_le_of_lt (Nat.le_trans (Nat.le_add_left _ _) hsum) (sizeInBytes_lt info))
  push_cast [cast_umul]
  rw [← cast_share hdvd]
  ring

theorem blockBytes_eq (htotal : info.dims.prod = q * info.dtype.blockSize) :
    blockBytes info = q * info.dtype.typeSize := by
  unfold blockBytes
  rw [htotal, Nat.mul_div_cancel _ info.dtype.blockSize_pos]

theorem rows_size {inner : Nat} (hinfo : file.info name = .ok info) (hdims : info.dims = [outer, inner])
    (hall : SlicesAll file name (.colParallel world 0)) :
    ∃ len, SlicesOf file name (.colParallel world 0) len ∧ world.toNat * len = blockBytes info % 2 ^ 64 := by
  obtain ⟨hdvd, hblock⟩ : outer % world.toNat = 0 ∧ inner % info.dtype.blockSize = 0 := by
    obtain ⟨rank, bytes, -, hbytes⟩ := slice_at hall rfl (world_pos hall rfl)
    obtain ⟨-, hdvd, hblock, -⟩ := sliceRows_ok hinfo hdims hbytes
    exact ⟨hdvd, hblock⟩
  obtain ⟨len, hlen⟩ : ∃ len, len =
      umul (outer / world.toNat) (umul (inner / info.dtype.blockSize) info.dtype.typeSize) := ⟨_, rfl⟩
  have hpart : ∀ r < world.toNat, (file.tensorDataOffset + info.relOffset + r * len) % 2 ^ 64 + len ≤
      file.mmap.bytes.length := fun r hr => by
    obtain ⟨rank, bytes, rfl, hbytes⟩ := slice_at hall rfl hr
    exact hlen ▸ (rows_length hinfo hdims hbytes).2
  have hfits := file.mmap.fits
  have hfirst := hpart 0 (world_pos hall rfl)
  rw [Nat.zero_mul, Nat.add_zero] at hfirst
  have hsum := parts_le (by omega) (Nat.le_trans (Nat.le_add_right _ _) hfirst) world.toNat hpart
  refine ⟨len, fun rank _ bytes hbytes => hlen ▸ (rows_length hinfo hdims hbytes).1, eq_mod_of_cast ?_ (by omega)⟩
  rw [blockBytes_eq (@rows_total world _ _ _ hdims hblock), hlen]
  push_cast [cast_umul]
  rw [← cast_share hdvd]
  ring

theorem expertRows_size (hinfo : file.info name = .ok info) (hall : SlicesAll file name (.colParallel world 1)) :
    ∃ len, SlicesOf file name (.colParallel world 1) len ∧ world.toNat * len = blockBytes info % 2 ^ 64 := by
  obtain ⟨nExperts, dim1, dim2, hdims, hdvd, hblock⟩ : ∃ nExperts dim1 dim2, info.dims = [nExperts, dim1, dim2] ∧
      dim1 % world.toNat = 0 ∧ dim2 % info.dtype.blockSize = 0 := by
    obtain ⟨rank, bytes, -, hbytes⟩ := slice_at hall rfl (world_pos hall rfl)
    obtain ⟨nExperts, dim1, dim2, -, hdims, -, hdvd, hblock, -⟩ := sliceExpertRows_ok hinfo hbytes
    exact ⟨nExperts, dim1, dim2, hdims, hdvd, hblock⟩
  refine ⟨_, fun rank _ bytes hbytes => (expertRows_length hinfo hdims hbytes).1, ?_⟩
  have hsum := grid_le (sizeInBytes_lt info) nExperts world.toNat fun e he r hr => by
    obtain ⟨rank, bytes, rfl, hbytes⟩ := slice_at hall rfl hr
    exact (expertRows_length hinfo hdims hbytes).2 e he
  rw [Nat.mul_comm nExperts, Nat.mul_assoc] at hsum
  refine eq_mod_of_cast ?_ (Nat.lt_of_le_of_lt hsum (sizeInBytes_lt info))
  rw [blockBytes_eq (@expertRows_total world _ _ _ _ hdims hblock)]
  push_cast [cast_umul]
  rw [← cast_share hdvd]
  ring

theorem columns_size (hinfo : file.info name = .ok info) (hall : SlicesAll file name (.rowParallel world 1)) :
    ∃ len, SlicesOf file name (.rowParallel world 1) len ∧ world.toNat * len = blockBytes info % 2 ^ 64 := by
  obtain ⟨outer, inner, hdims, hdvd, hlocal⟩ : ∃ outer inner, info.dims = [outer, inner] ∧
      inner % world.toNat = 0 ∧ inner / world.toNat % info.dtype.blockSize = 0 := by
    obtain ⟨rank, bytes, -, hbytes⟩ := slice_at hall rfl (world_pos hall rfl)
    obtain ⟨outer, inner, -, hdims, -, hdvd, hlocal, -⟩ := sliceColumns_ok hinfo hbytes
    exact ⟨outer, inner, hdims, hdvd, hlocal⟩
  refine ⟨_, fun rank _ bytes hbytes => (columns_length hinfo hdims hbytes).1, ?_⟩
  have hsum := grid_le (sizeInBytes_lt info) outer world.toNat fun row hrow r hr => by
    obtain ⟨rank, bytes, rfl, hbytes⟩ := slice_at hall rfl hr
    exact (columns_length hinfo hdims hbytes).2 row hrow
  rw [Nat.mul_comm outer, Nat.mul_assoc] at hsum
  refine eq_mod_of_cast ?_ (Nat.lt_of_le_of_lt hsum (sizeInBytes_lt info))
  rw [blockBytes_eq (@columns_total world _ _ _ hdims (columns_blocked hdvd hlocal).1)]
  push_cast [cast_umul]
  rw [← cast_columns hdvd hlocal]
  ring

theorem expertColumns_size (hinfo : file.info name = .ok info) (hall : SlicesAll file name (.rowParallel world 2)) :
    ∃ len, SlicesOf file name (.rowParallel world 2) len ∧ world.toNat * len = blockBytes info % 2 ^ 64 := by
  obtain ⟨nExperts, dim1, dim2, hdims, hdvd, hlocal⟩ : ∃ nExperts dim1 dim2, info.dims = [nExperts, dim1, dim2] ∧
      dim2 % world.toNat = 0 ∧ dim2 / world.toNat % info.dtype.blockSize = 0 := by
    obtain ⟨rank, bytes, -, hbytes⟩ := slice_at hall rfl (world_pos hall rfl)
    obtain ⟨nExperts, dim1, dim2, -, hdims, -, hdvd, hlocal, -⟩ := sliceExpertColumns_ok hinfo hbytes
    exact ⟨nExperts, dim1, dim2, hdims, hdvd, hlocal⟩
  refine ⟨_, fun rank _ bytes hbytes => (expertColumns_length hinfo hdims hbytes).1, ?_⟩
  have hsum := grid_le (sizeInBytes_lt info) (nExperts * dim1) world.toNat fun i hi r hr => by
    obtain ⟨rank, bytes, rfl, hbytes⟩ := slice_at hall rfl hr
    have hdim1 : 0 < dim1 := Nat.pos_of_mul_pos_left (Nat.zero_lt_of_lt hi)
    have hpart := (expertColumns_length hinfo hdims hbytes).2 (i / dim1)
      (Nat.div_lt_of_lt_mul (Nat.mul_comm _ _ ▸ hi)) (i % dim1) (Nat.mod_lt i hdim1)
    rwa [Nat.div_add_mod'] at hpart
  rw [Nat.mul_comm (nExperts * dim1), Nat.mul_assoc, Nat.mul_assoc] at hsum
  refine eq_mod_of_cast ?_ (Nat.lt_of_le_of_lt hsum (sizeInBytes_lt info))
  rw [blockBytes_eq (@expertColumns_total world _ _ _ _ hdims (columns_blocked hdvd hlocal).1)]
  push_cast [cast_umul]
  rw [← cast_columns hdvd hlocal]
  ring

/-- The slices of a fused tensor: the parts of `q`, `k` and `v` of all ranks fit its size. -/
theorem fused_sizes {spec : FusedQkvSpec} (hinfo : file.info name = .ok info)
    (hall : SlicesAll file name (spec.layout world)) :
    ∃ outer inner, info.dims = [outer, inner] ∧ inner % info.dtype.blockSize = 0 ∧
      outer = (spec.vRows + 2 * spec.kRows) % 2 ^ 64 ∧ spec.vRows % world.toNat = 0 ∧
      spec.kRows % spec.kParts world = 0 ∧
      ∃ kLen vLen, SlicesOf file name (spec.layout world) (kLen + kLen + vLen) ∧
        (kLen : Word) = spec.kLocal world * ((inner / info.dtype.blockSize : Nat) * info.dtype.typeSize) ∧
        (vLen : Word) =
          (spec.vRows / world.toNat : Nat) * ((inner / info.dtype.blockSize : Nat) * info.dtype.typeSize) ∧
        2 * spec.kParts world * kLen + world.toNat * vLen < 2 ^ 64 := by
  have hworld : (spec.layout world).world = some world := rfl
  have hpos := world_pos hall hworld
  obtain ⟨rank₀, bytes₀, -, hbytes₀⟩ := slice_at hall hworld hpos
  obtain ⟨outer, inner, -, hdims, -, hv, hk, houter, hblock, -⟩ := sliceFused_ok hinfo hbytes₀
  have hkParts := FusedQkvSpec.kParts_dvd hk
  obtain ⟨rowBytes, hrowBytes⟩ : ∃ c, c = umul (inner / info.dtype.blockSize) info.dtype.typeSize := ⟨_, rfl⟩
  obtain ⟨kLen, hkLen⟩ : ∃ n, n = umul (spec.kLocal world) rowBytes := ⟨_, rfl⟩
  obtain ⟨vLen, hvLen⟩ : ∃ n, n = umul (spec.vRows / world.toNat) rowBytes := ⟨_, rfl⟩
  have hlen : ∀ rank bytes, sliceForTp file name (spec.layout world) rank = .ok bytes →
      bytes.length = kLen + kLen + vLen ∧
      (∀ row < 2, (row * spec.kParts world + if spec.kqReplicated then 0 else rank.toNat) * kLen % 2 ^ 64 + kLen ≤
        info.sizeInBytes) ∧
      (2 * spec.kParts world * kLen + rank.toNat * vLen) % 2 ^ 64 + vLen ≤ info.sizeInBytes := fun rank bytes h => by
    rw [hkLen, hvLen, hrowBytes]
    exact fused_length hinfo hdims h
  have hsize := sizeInBytes_lt info
  have hkSum : 2 * spec.kParts world * kLen ≤ info.sizeInBytes := by
    refine grid_le hsize 2 (spec.kParts world) fun row hrow r hr => ?_
    have hr' : r < world.toNat ∧ r = if spec.kqReplicated then 0 else r := by
      unfold FusedQkvSpec.kParts at hr
      split at hr
      · rename_i hrepl
        rw [if_pos hrepl]
        omega
      · rename_i hrepl
        rw [if_neg hrepl]
        exact ⟨hr, rfl⟩
    obtain ⟨rank, bytes, hnat, hbytes⟩ := slice_at hall hworld hr'.1
    have hpart := (hlen rank bytes hbytes).2.1 row hrow
    rwa [hnat, ← hr'.2] at hpart
  have hbase : 2 * spec.kParts world * kLen % 2 ^ 64 = 2 * spec.kParts world * kLen := Nat.mod_eq_of_lt (by omega)
  have hsum := parts_le hsize (hbase.trans_le hkSum) world.toNat fun r hr => by
    obtain ⟨rank, bytes, rfl, hbytes⟩ := slice_at hall hworld hr
    exact (hlen rank bytes hbytes).2.2
  rw [hbase] at hsum
  refine ⟨outer, inner, hdims, hblock, ?_, ?_, hkParts, kLen, vLen, fun rank _ bytes h => (hlen rank bytes h).1, ?_, ?_,
    Nat.lt_of_le_of_lt hsum hsize⟩
  · rw [houter]
    refine eq_mod_of_cast ?_ (uadd_lt _ _)
    push_cast [cast_umul, cast_uadd]
    unfold FusedQkvSpec.vRows FusedQkvSpec.kRows
    push_cast
    ring
  · exact Nat.mod_eq_zero_of_dvd (Dvd.dvd.mul_right (Nat.dvd_of_mod_eq_zero hv) _)
  · rw [hkLen, hrowBytes]
    push_cast [cast_umul]
    ring
  · rw [hvLen, hrowBytes]
    push_cast [cast_umul]
    ring

end Worlds

/-- The predicted size is the size of every rank's slice. -/
def SizePredicted (file : Parsed) (name : String) (layout : WeightLayout) : Prop :=
  ∃ n, sliceBytesForTp file name layout = .ok n ∧ SlicesOf file name layout n

/-- The bytes of a tensor's blocks that its size has lost to wraps. -/
def lostBytes (info : TensorInfo) : Nat := blockBytes info - info.sizeInBytes

/-- What the size has lost is as if nothing were lost: whole turns of a `u64`, over the rows
of a rank where the prediction goes by rows. A vector is cut by its elements, and a copied
`q` and `k` need a row. -/
def WeightLayout.Sized (layout : WeightLayout) (info : TensorInfo) : Prop :=
  match layout, info.dims with
  | .replicated, _ => True
  | .colParallel _ 0, [outer] => 2 ^ 64 ∣ outer * info.dtype.typeSize - info.sizeInBytes
  | .fusedQkvParallel world numVHeads numKHeads headVDim headKDim true, [outer, _] =>
    outer ≠ 0 ∧ outer ∣ lostBytes info ∧
      2 ^ 64 ∣ (numVHeads.toNat * headVDim.toNat / world.toNat + 2 * (numKHeads.toNat * headKDim.toNat)) *
        (lostBytes info / outer)
  | _, _ => 2 ^ 64 ∣ lostBytes info

section Predicted
variable {file : Parsed} {info : TensorInfo} {world : UInt32} {layout : WeightLayout}

theorem sizeInBytes_le_blocks (info : TensorInfo) : info.sizeInBytes ≤ blockBytes info := by
  rw [sizeInBytes_eq]
  refine Nat.le_trans (Nat.mod_le _ _) (Nat.mul_le_mul_right _ ?_)
  exact Nat.div_le_div_right (Nat.mod_le _ _)

theorem mod_eq_iff {t m n : Nat} (hlt : t < m) (hle : t ≤ n) : t = n % m ↔ m ∣ n - t := by
  rw [← Nat.modEq_iff_dvd' hle]
  unfold Nat.ModEq
  rw [Nat.mod_eq_of_lt hlt]

theorem bytesPerRank_ok (hworld : 0 < world.toNat) :
    bytesPerRank name total world = .ok n ↔ total = world.toNat * n := by
  have hne : world ≠ 0 := fun hzero => by
    rw [hzero] at hworld
    exact absurd hworld (by decide)
  unfold bytesPerRank
  rw [if_neg hne]
  split
  · rename_i hrest
    refine ⟨nofun, fun htotal => absurd ?_ hrest⟩
    rw [htotal, Nat.mul_mod_right]
  · rename_i hrest
    have hwhole := Nat.mul_div_cancel' (Nat.dvd_of_mod_eq_zero (Decidable.not_not.mp hrest))
    constructor
    · intro h
      cases h
      exact hwhole.symm
    · rintro rfl
      rw [Nat.mul_div_cancel_left n hworld]

theorem slicesOf_unique (hall : SlicesAll file name layout) (h : SlicesOf file name layout a)
    (h' : SlicesOf file name layout b) : a = b := by
  obtain ⟨⟨rank, hrank⟩, hslices⟩ := hall
  obtain ⟨bytes, hbytes⟩ := hslices rank hrank
  rw [← h rank hrank bytes hbytes, h' rank hrank bytes hbytes]

theorem sizePredicted_even (hall : SlicesAll file name layout) (hworld : layout.world = some world)
    (hpredicts : sliceBytesForTp file name layout = bytesPerRank name info.sizeInBytes world)
    (hsized : info.sizeInBytes ≤ size)
    (hsizes : ∃ len, SlicesOf file name layout len ∧ world.toNat * len = size % 2 ^ 64) :
    SizePredicted file name layout ↔ 2 ^ 64 ∣ size - info.sizeInBytes := by
  obtain ⟨len, hlen, htotal⟩ := hsizes
  have hpos := world_pos hall hworld
  rw [← mod_eq_iff (sizeInBytes_lt info) hsized, ← htotal]
  unfold SizePredicted
  rw [hpredicts]
  constructor
  · rintro ⟨n, hn, hslices⟩
    rw [(bytesPerRank_ok hpos).mp hn, slicesOf_unique hall hslices hlen]
  · exact fun h => ⟨len, (bytesPerRank_ok hpos).mpr h, hlen⟩

theorem sliceBytes_eq (hinfo : file.info name = .ok info) (hworld : layout.world = some world)
    (hrepl : ∀ nv nk hv hk, layout ≠ .fusedQkvParallel world nv nk hv hk true) :
    sliceBytesForTp file name layout = bytesPerRank name info.sizeInBytes world := by
  unfold sliceBytesForTp
  rw [tensorInfo_ok.mpr hinfo]
  cases layout with
  | replicated => cases hworld
  | colParallel w dim => cases hworld; rfl
  | rowParallel w dim => cases hworld; rfl
  | fusedQkvParallel w nv nk hv hk repl =>
    cases hworld
    cases repl with
    | true => exact absurd rfl (hrepl nv nk hv hk)
    | false => rfl

theorem require_bind_ok {p : Prop} [Decidable p] {e : TpError} {x : SliceResult α} :
    (require p e >>= fun _ => x) = .ok a ↔ p ∧ x = .ok a := by
  rw [Outcome.bind_eq_ok]
  constructor
  · rintro ⟨_, hp, hx⟩
    exact ⟨require_ok.mp hp, hx⟩
  · rintro ⟨hp, hx⟩
    exact ⟨(), require_ok.mpr hp, hx⟩

theorem kqBytes_ok (hinfo : file.info name = .ok info) (hworld : 0 < world.toNat) {spec : FusedQkvSpec}
    (hrepl : spec.kqReplicated = true) (hv : spec.vRows % world.toNat = 0)
    (houter : outer = (spec.vRows + 2 * spec.kRows) % 2 ^ 64) :
    sliceBytesForTp file name (spec.layout world) = .ok n ↔ outer ≠ 0 ∧ outer ∣ info.sizeInBytes ∧
      n = (spec.vRows / world.toNat + 2 * spec.kRows) * (info.sizeInBytes / outer) % 2 ^ 64 := by
  have hne : world ≠ 0 := fun hzero => by
    rw [hzero] at hworld
    exact absurd hworld (by decide)
  have hkRows : umul spec.numKHeads.toNat spec.headKDim.toNat = spec.kRows := umul_eq (heads_lt _ _)
  have hvRows : umul spec.numVHeads.toNat spec.headVDim.toNat = spec.vRows := umul_eq (heads_lt _ _)
  have hrows : uadd spec.vRows (umul 2 spec.kRows) = outer := by
    rw [houter]
    refine eq_mod_of_cast ?_ (uadd_lt _ _)
    push_cast [cast_umul, cast_uadd]
    ring
  have hlocal : ∀ c, umul (uadd (spec.vRows / world.toNat) (umul 2 spec.kRows)) c =
      (spec.vRows / world.toNat + 2 * spec.kRows) * c % 2 ^ 64 := fun c => by
    refine eq_mod_of_cast ?_ (umul_lt _ _)
    push_cast [cast_umul, cast_uadd]
    ring
  have hwhole : info.sizeInBytes = umul outer (info.sizeInBytes / outer) ↔ outer ∣ info.sizeInBytes := by
    have hsize := sizeInBytes_lt info
    have hle := Nat.mul_div_le info.sizeInBytes outer
    rw [umul_eq (by omega)]
    exact ⟨fun h => ⟨_, h⟩, fun h => (Nat.mul_div_cancel' h).symm⟩
  unfold sliceBytesForTp FusedQkvSpec.layout
  rw [tensorInfo_ok.mpr hinfo, hrepl]
  change (if world = 0 then _ else _) = _ ↔ _
  rw [if_neg hne]
  dsimp only
  rw [hvRows, hkRows, hrows, hlocal, require_bind_ok, require_bind_ok, require_bind_ok, hwhole, Outcome.ok.injEq]
  exact (and_iff_right hv).trans (and_congr_right fun _ => and_congr_right fun _ => eq_comm)

/-- A size by whole rows, and what the rows lose. -/
theorem byRows_iff {outer c t rows m : Nat} (houter : 0 < outer) (hle : t ≤ outer * c) :
    outer ∣ t ∧ rows * c % m = rows * (t / outer) % m ↔
      outer ∣ outer * c - t ∧ m ∣ rows * ((outer * c - t) / outer) := by
  have hparts : outer ∣ t ↔ outer ∣ outer * c - t := by
    constructor
    · exact fun h => Nat.dvd_sub (Nat.dvd_mul_right outer c) h
    · intro h
      have hsum := Nat.dvd_sub (Nat.dvd_mul_right outer c) h
      rwa [Nat.sub_sub_self hle] at hsum
  rw [← hparts]
  refine and_congr_right fun hdvd => ?_
  obtain ⟨q, rfl⟩ := hdvd
  have hq : q ≤ c := Nat.le_of_mul_le_mul_left hle houter
  rw [Nat.mul_div_cancel_left q houter, ← Nat.mul_sub, Nat.mul_div_cancel_left _ houter, Nat.mul_sub,
    ← Nat.modEq_iff_dvd' (Nat.mul_le_mul_left rows hq)]
  exact eq_comm

theorem sizePredicted_copied {spec : FusedQkvSpec} (hinfo : file.info name = .ok info)
    (hall : SlicesAll file name (spec.layout world)) (hrepl : spec.kqReplicated = true) :
    SizePredicted file name (spec.layout world) ↔ (spec.layout world).Sized info := by
  have hpos := world_pos hall rfl
  obtain ⟨outer, inner, hdims, hblock, houter, hv, hk, kLen, vLen, hlen, hkLen, hvLen, hsum⟩ :=
    fused_sizes hinfo hall
  have hone : spec.kParts world = 1 := by
    unfold FusedQkvSpec.kParts
    exact if_pos hrepl
  have hlocal : spec.kLocal world = spec.kRows := by
    unfold FusedQkvSpec.kLocal
    rw [hone, Nat.div_one]
  have hblocks : blockBytes info = outer * (inner / info.dtype.blockSize * info.dtype.typeSize) := by
    rw [blockBytes_eq (@rows_total world _ _ _ hdims hblock), Nat.mul_assoc]
  have hlenEq : kLen + kLen + vLen = (spec.vRows / world.toNat + 2 * spec.kRows) *
      (inner / info.dtype.blockSize * info.dtype.typeSize) % 2 ^ 64 := by
    have hvle : vLen ≤ world.toNat * vLen := Nat.le_mul_of_pos_left vLen hpos
    rw [hone] at hsum
    refine eq_mod_of_cast ?_ (by omega)
    push_cast
    rw [hkLen, hvLen, hlocal]
    ring
  have hsized : (spec.layout world).Sized info ↔ outer ≠ 0 ∧ outer ∣ lostBytes info ∧
      2 ^ 64 ∣ (spec.vRows / world.toNat + 2 * spec.kRows) * (lostBytes info / outer) := by
    unfold WeightLayout.Sized FusedQkvSpec.layout
    rw [hdims, hrepl]
    rfl
  have hle := sizeInBytes_le_blocks info
  rw [hsized]
  unfold lostBytes
  rw [hblocks] at hle ⊢
  unfold SizePredicted
  constructor
  · rintro ⟨n, hn, hslices⟩
    obtain ⟨hne, hdvd, rfl⟩ := (kqBytes_ok hinfo hpos hrepl hv houter).mp hn
    have hsame := slicesOf_unique hall hlen hslices
    rw [hlenEq] at hsame
    exact ⟨hne, (byRows_iff (Nat.pos_of_ne_zero hne) hle).mp ⟨hdvd, hsame⟩⟩
  · rintro ⟨hne, hlost⟩
    obtain ⟨hdvd, hsame⟩ := (byRows_iff (Nat.pos_of_ne_zero hne) hle).mpr hlost
    exact ⟨_, (kqBytes_ok hinfo hpos hrepl hv houter).mpr ⟨hne, hdvd, rfl⟩, hsame ▸ hlenEq ▸ hlen⟩

theorem fused_size {spec : FusedQkvSpec} (hinfo : file.info name = .ok info)
    (hall : SlicesAll file name (spec.layout world)) (hrepl : spec.kqReplicated = false) :
    ∃ len, SlicesOf file name (spec.layout world) len ∧ world.toNat * len = blockBytes info % 2 ^ 64 := by
  obtain ⟨outer, inner, hdims, hblock, houter, hv, hk, kLen, vLen, hlen, hkLen, hvLen, hsum⟩ :=
    fused_sizes hinfo hall
  have hparts : spec.kParts world = world.toNat := by
    unfold FusedQkvSpec.kParts
    rw [hrepl]
    rfl
  have hlocal := cast_share hk
  change ((spec.kParts world : Nat) : Word) * (spec.kLocal world : Nat) = spec.kRows at hlocal
  rw [hparts] at hsum hlocal
  refine ⟨_, hlen, eq_mod_of_cast ?_ ?_⟩
  · have hrows : (outer : Word) = spec.vRows + 2 * spec.kRows := by
      rw [houter, ZMod.natCast_mod]
      push_cast
      rfl
    rw [blockBytes_eq (@rows_total world _ _ _ hdims hblock)]
    push_cast
    rw [hkLen, hvLen, hrows, ← hlocal, ← cast_share hv]
    ring
  · rw [Nat.mul_add, ← Nat.two_mul, ← Nat.mul_assoc, Nat.mul_comm world.toNat 2]
    exact hsum

end Predicted

/-- The predicted size is the length of every rank's slice, exactly where the tensor's size
loses nothing that counts. -/
theorem size_predicted_iff (file : Parsed) (name : String) (info : TensorInfo) (layout : WeightLayout)
    (hinfo : file.info name = .ok info) (hall : SlicesAll file name layout) :
    SizePredicted file name layout ↔ layout.Sized info := by
  obtain ⟨rank, hrank⟩ := hall.1
  obtain ⟨bytes, hbytes⟩ := hall.2 rank hrank
  have hle := sizeInBytes_le_blocks info
  unfold sliceForTp at hbytes
  split at hbytes
  · refine iff_of_true ⟨info.sizeInBytes, ?_, fun rank _ bytes h => tensorRaw_length hinfo h⟩ trivial
    unfold sliceBytesForTp
    rw [tensorInfo_ok.mpr hinfo]
    rfl
  · rename_i world
    have hpredicts := @sliceBytes_eq _ _ _ (.colParallel world 0) _ hinfo rfl nofun
    rcases dim0_shape hinfo hbytes with ⟨outer, hdims⟩ | ⟨outer, inner, hdims⟩
    · have hcount : blockBytes info ≤ outer * info.dtype.typeSize := by
        unfold blockBytes
        rw [hdims, List.prod_singleton]
        exact Nat.mul_le_mul_right _ (Nat.div_le_self _ _)
      rw [sizePredicted_even hall rfl hpredicts (Nat.le_trans hle hcount) (vector_size hinfo hdims hall)]
      unfold WeightLayout.Sized
      rw [hdims]
      rfl
    · rw [sizePredicted_even hall rfl hpredicts hle (rows_size hinfo hdims hall)]
      unfold WeightLayout.Sized
      rw [hdims]
      rfl
  · exact sizePredicted_even hall rfl (sliceBytes_eq hinfo rfl nofun) hle (columns_size hinfo hall)
  · exact sizePredicted_even hall rfl (sliceBytes_eq hinfo rfl nofun) hle (expertRows_size hinfo hall)
  · exact sizePredicted_even hall rfl (sliceBytes_eq hinfo rfl nofun) hle (expertColumns_size hinfo hall)
  · rename_i world nv nk hv hk repl
    let spec : FusedQkvSpec := ⟨nv, nk, hv, hk, repl⟩
    change SizePredicted file name (spec.layout world) ↔ _
    cases repl with
    | true => exact @sizePredicted_copied _ _ _ _ spec hinfo hall rfl
    | false =>
      exact sizePredicted_even hall rfl (sliceBytes_eq hinfo rfl (by rintro _ _ _ _ ⟨⟩)) hle
        (@fused_size _ _ _ _ spec hinfo hall rfl)
  · cases hbytes
  · cases hbytes

theorem pair_size_predicted : SizePredicted pairFile "w" (.colParallel 2 0) :=
  (size_predicted_iff pairFile "w" ⟨"w", .f32, [2, 1], 0, 0⟩ (.colParallel 2 0) rfl pair_sliced).mpr
    (show 2 ^ 64 ∣ lostBytes ⟨"w", .f32, [2, 1], 0, 0⟩ by decide +kernel)

def rowlessSpec : GgufSpec := oneTensor [0, 1] (by decide) (by decide) (by decide)

def rowlessMmap : Mmap := ⟨rowlessSpec.fileBytes [], by decide +kernel⟩

/-- No heads, and so no rows: both ranks have an empty slice, and no size is predicted for it. -/
theorem rowless_size_refused : ∃ file, parseGgufHeader (hosted 4) rowlessMmap = .ok file ∧
    SlicesAll file "w" (.fusedQkvParallel 2 0 0 1 1 true) ∧
      ¬ SizePredicted file "w" (.fusedQkvParallel 2 0 0 1 1 true) := by
  refine ⟨rowlessSpec.parsed rowlessMmap, rowlessSpec.parse_file (hosted_roomy 4) (by decide) rfl,
    ⟨⟨0, fun w hw => ?_⟩, fun rank hrank => ⟨[], ?_⟩⟩, fun ⟨n, hn, _⟩ => ?_⟩
  · cases hw
    decide
  · rcases two_ranks rfl hrank with rfl | rfl
    · decide +kernel
    · decide +kernel
  · have hrefused : sliceBytesForTp (rowlessSpec.parsed rowlessMmap) "w" (.fusedQkvParallel 2 0 0 1 1 true) =
        .err (.message "tensor `w` outer_full=0") := by decide +kernel
    rw [hrefused] at hn
    cases hn

end Flambeau.Runtime
