import Flambeau.Quant.GgufFile
import Flambeau.Runtime.TpPartition

namespace Flambeau.Runtime
open Systems Quant

theorem umul_le (h : a * b ≤ n) (hn : n < 2 ^ 64) : umul a b = a * b := umul_eq (Nat.lt_of_le_of_lt h hn)

theorem sizeInBytes_eq (info : TensorInfo) :
    info.sizeInBytes = info.dims.prod % 2 ^ 64 / info.dtype.blockSize * info.dtype.typeSize % 2 ^ 64 := by
  have hfold := prod_fold info.dims 1
  rw [Nat.one_mul] at hfold
  unfold TensorInfo.sizeInBytes TensorInfo.elemCount
  rw [← hfold]
  rfl

theorem div_le_divCeil (a : Nat) (hb : 0 < b) : a / b ≤ Quant.divCeil a b :=
  Nat.div_le_div_right (by omega)

/-- The reader takes no more bytes than the blocks have. -/
theorem sizeInBytes_le {layout : WeightLayout} (hprod : info.dims.prod ≤ layout.elements info.dims) :
    info.sizeInBytes ≤ layout.blockCount info * info.dtype.typeSize := by
  rw [sizeInBytes_eq]
  refine Nat.le_trans (Nat.mod_le _ _) (Nat.mul_le_mul_right _ ?_)
  refine Nat.le_trans (Nat.div_le_div_right ?_) (div_le_divCeil _ info.dtype.blockSize_pos)
  exact Nat.le_trans (Nat.mod_le _ _) hprod

theorem take_range {xs : List α} (h : e ≤ z) : ((xs.take z).drop s).take (e - s) = (xs.drop s).take (e - s) := by
  rw [List.drop_take, List.take_take, Nat.min_eq_left (by omega)]

/-- A range of the payload is a range of the tensor's bytes in the file. -/
theorem payload_range {file : Parsed} {layout : WeightLayout} {context : String} (hinfo : file.info name = .ok info)
    (hprod : info.dims.prod ≤ layout.elements info.dims)
    (hfile : file.tensorDataOffset + info.relOffset + layout.blockCount info * info.dtype.typeSize ≤
      file.mmap.bytes.length)
    (hraw : tensorRaw file name context = .ok raw) (he : e ≤ raw.length) :
    (raw.drop s).take (e - s) = ((file.tensorBytes info).drop s).take (e - s) := by
  have hfits := file.mmap.fits
  have hsize := sizeInBytes_le hprod
  obtain ⟨hlen, hbytes⟩ := tensorRaw_ok hinfo hraw
  rw [hbytes (by omega), take_range (Nat.le_trans he hlen)]

theorem left_le (h : a * b ≤ n) (hb : 0 < b) : a ≤ n := Nat.le_trans (Nat.le_mul_of_pos_right a hb) h

theorem right_le (h : a * b ≤ n) (ha : 0 < a) : b ≤ n := Nat.le_trans (Nat.le_mul_of_pos_left b ha) h

/-- The blocks of the tensor are in the file. -/
def InFile (file : Parsed) (info : TensorInfo) (layout : WeightLayout) : Prop :=
  file.tensorDataOffset + info.relOffset + layout.blockCount info * info.dtype.typeSize ≤ file.mmap.bytes.length

/-- A row of blocks has the elements of a row. -/
theorem blocks_mul {dtype : GgmlDType} {inner : Nat} (h : inner % dtype.blockSize = 0) : inner / dtype.blockSize * dtype.blockSize = inner :=
  Nat.div_mul_cancel (Nat.dvd_of_mod_eq_zero h)

section Rows
variable {world rank : UInt32} {info : TensorInfo} {outer inner : Nat}

theorem vector_total (hdims : info.dims = [outer]) (hone : info.dtype.blockSize = 1) :
    (WeightLayout.colParallel world 0).elements info.dims = outer * info.dtype.blockSize := by
  rw [hdims, hone, Nat.mul_one]
  exact List.prod_singleton

theorem vector_blocks (hdims : info.dims = [outer]) (hone : info.dtype.blockSize = 1) :
    (WeightLayout.colParallel world 0).blocksOf info rank =
      (List.range outer).filter fun b => decide (Share outer world.toNat rank.toNat b) := by
  refine WeightLayout.blocksOf_eq (vector_total hdims hone) fun b _ j hj => ?_
  have hfirst : b * info.dtype.blockSize + j = b := by
    rw [hone] at hj ⊢
    omega
  rw [hdims, hfirst]
  rfl

theorem rows_total (hdims : info.dims = [outer, inner]) (hblock : inner % info.dtype.blockSize = 0) :
    (WeightLayout.colParallel world 0).elements info.dims =
      outer * (inner / info.dtype.blockSize) * info.dtype.blockSize := by
  rw [hdims, Nat.mul_assoc, blocks_mul hblock]
  change [outer, inner].prod = _
  rw [List.prod_cons, List.prod_singleton]

theorem rows_blocks (hdims : info.dims = [outer, inner]) (hblock : inner % info.dtype.blockSize = 0) :
    (WeightLayout.colParallel world 0).blocksOf info rank =
      (List.range (outer * (inner / info.dtype.blockSize))).filter fun b =>
        decide (Share outer world.toNat rank.toNat (b / (inner / info.dtype.blockSize))) := by
  refine WeightLayout.blocksOf_eq (rows_total hdims hblock) fun b _ j hj => ?_
  have hrow := block_row b (m := inner / info.dtype.blockSize) hj
  rw [blocks_mul hblock] at hrow
  rw [hdims, ← hrow]
  rfl

theorem expertRows_total (hdims : info.dims = [nExperts, dim1, dim2]) (hblock : dim2 % info.dtype.blockSize = 0) :
    (WeightLayout.colParallel world 1).elements info.dims =
      nExperts * dim1 * (dim2 / info.dtype.blockSize) * info.dtype.blockSize := by
  rw [hdims, Nat.mul_assoc _ (dim2 / _), blocks_mul hblock]
  change [nExperts, dim1, dim2].prod = _
  rw [List.prod_cons, List.prod_cons, List.prod_singleton, Nat.mul_assoc]

theorem expertRows_blocks (hdims : info.dims = [nExperts, dim1, dim2]) (hblock : dim2 % info.dtype.blockSize = 0) :
    (WeightLayout.colParallel world 1).blocksOf info rank =
      (List.range (nExperts * dim1 * (dim2 / info.dtype.blockSize))).filter fun b =>
        decide (Share dim1 world.toNat rank.toNat (b / (dim2 / info.dtype.blockSize) % dim1)) := by
  refine WeightLayout.blocksOf_eq (expertRows_total hdims hblock) fun b _ j hj => ?_
  have hrow := block_row b (m := dim2 / info.dtype.blockSize) hj
  rw [blocks_mul hblock] at hrow
  rw [hdims, ← hrow]
  rfl

end Rows

section Columns
variable {world rank : UInt32} {info : TensorInfo} {outer inner : Nat}

/-- Parts of the columns are parts of the blocks of a row. -/
theorem columns_blocked {size : Nat} (hdvd : inner % w = 0) (hblock : inner / w % size = 0) :
    inner % size = 0 ∧ inner / size % w = 0 := by
  obtain ⟨p, hp⟩ := Nat.dvd_of_mod_eq_zero hblock
  have hinner : inner = size * (p * w) := by
    rw [← Nat.mul_assoc, ← hp, Nat.div_mul_cancel (Nat.dvd_of_mod_eq_zero hdvd)]
  refine ⟨by rw [hinner]; exact Nat.mul_mod_right _ _, ?_⟩
  rcases Nat.eq_zero_or_pos size with rfl | hsize
  · rw [Nat.div_zero, Nat.zero_mod]
  · rw [hinner, Nat.mul_div_cancel_left _ hsize, Nat.mul_mod_left]

theorem share_column {size : Nat} (hdvd : inner / size % w = 0) (hblock : inner % size = 0) (hj : j < size) :
    Share inner w r ((b * size + j) % inner) ↔ Share (inner / size) w r (b % (inner / size)) := by
  have hinner : inner / size * size = inner := Nat.div_mul_cancel (Nat.dvd_of_mod_eq_zero hblock)
  have hcolumn := block_column b (m := inner / size) hj
  rw [hinner] at hcolumn
  have hparts := share_div (r := r) (i := (b * size + j) % inner) hdvd (Nat.zero_lt_of_lt hj)
  rw [hinner, hcolumn] at hparts
  exact hparts.symm

theorem columns_total (hdims : info.dims = [outer, inner]) (hblock : inner % info.dtype.blockSize = 0) :
    (WeightLayout.rowParallel world 1).elements info.dims =
      outer * (inner / info.dtype.blockSize) * info.dtype.blockSize := by
  rw [hdims, Nat.mul_assoc, blocks_mul hblock]
  change [outer, inner].prod = _
  rw [List.prod_cons, List.prod_singleton]

theorem columns_blocks (hdims : info.dims = [outer, inner]) (hblock : inner % info.dtype.blockSize = 0)
    (hdvd : inner / info.dtype.blockSize % world.toNat = 0) :
    (WeightLayout.rowParallel world 1).blocksOf info rank =
      (List.range (outer * (inner / info.dtype.blockSize))).filter fun b =>
        decide (Share (inner / info.dtype.blockSize) world.toNat rank.toNat
          (b % (inner / info.dtype.blockSize))) := by
  refine WeightLayout.blocksOf_eq (columns_total hdims hblock) fun b _ j hj => ?_
  rw [hdims]
  exact decide_eq_decide.mpr (share_column hdvd hblock hj)

theorem expertColumns_total (hdims : info.dims = [nExperts, dim1, dim2]) (hblock : dim2 % info.dtype.blockSize = 0) :
    (WeightLayout.rowParallel world 2).elements info.dims =
      nExperts * dim1 * (dim2 / info.dtype.blockSize) * info.dtype.blockSize := by
  rw [hdims, Nat.mul_assoc _ (dim2 / _), blocks_mul hblock]
  change [nExperts, dim1, dim2].prod = _
  rw [List.prod_cons, List.prod_cons, List.prod_singleton, Nat.mul_assoc]

theorem expertColumns_blocks (hdims : info.dims = [nExperts, dim1, dim2])
    (hblock : dim2 % info.dtype.blockSize = 0) (hdvd : dim2 / info.dtype.blockSize % world.toNat = 0) :
    (WeightLayout.rowParallel world 2).blocksOf info rank =
      (List.range (nExperts * dim1 * (dim2 / info.dtype.blockSize))).filter fun b =>
        decide (Share (dim2 / info.dtype.blockSize) world.toNat rank.toNat
          (b % (dim2 / info.dtype.blockSize))) := by
  refine WeightLayout.blocksOf_eq (expertColumns_total hdims hblock) fun b _ j hj => ?_
  rw [hdims]
  exact decide_eq_decide.mpr (share_column hdvd hblock hj)

end Columns

section Exact
variable {file : Parsed} {info : TensorInfo} {world rank : UInt32}

/-- A vector of blocks of one element. -/
theorem vector_exact (hinfo : file.info name = .ok info) (hdims : info.dims = [outer])
    (hone : info.dtype.blockSize = 1) (hfile : InFile file info (.colParallel world 0))
    (h : sliceColParallelDim0 file name world rank = .ok bytes) :
    bytes = pieces info.dtype.typeSize (file.tensorBytes info)
      ((WeightLayout.colParallel world 0).blocksOf info rank) := by
  obtain ⟨hrank, hdvd, context, raw, hraw, ⟨-, hin⟩, rfl⟩ := sliceVector_ok hinfo hdims h
  have hr : rank.toNat < world.toNat := hrank
  have hts := info.dtype.typeSize_pos
  have hfits := file.mmap.fits
  have hsize := hfile
  unfold InFile at hsize
  rw [WeightLayout.blockCount_eq (vector_total hdims hone)] at hsize
  have hend := share_end_le hr outer
  rw [share_end] at hend
  have hpart := Nat.mul_le_mul_right info.dtype.typeSize hend
  rw [Nat.add_mul] at hpart
  have houter : outer ≤ outer * info.dtype.typeSize := Nat.le_mul_of_pos_right outer hts
  rw [vector_blocks hdims hone, filter_share hr, pieces_span, Nat.add_sub_cancel_left]
  generalize outer / world.toNat = l at *
  have hfirst : umul rank.toNat l = rank.toNat * l := umul_eq (by omega)
  have hstart : umul (rank.toNat * l) info.dtype.typeSize = rank.toNat * l * info.dtype.typeSize := umul_eq (by omega)
  have hlen : umul l info.dtype.typeSize = l * info.dtype.typeSize := umul_eq (by omega)
  rw [hfirst, hstart, hlen, uadd_eq (by omega)] at hin ⊢
  rw [payload_range hinfo (Nat.le_refl _) hfile hraw hin, Nat.add_sub_cancel_left]

/-- Rows of a matrix. -/
theorem rows_exact {outer inner : Nat} (hinfo : file.info name = .ok info) (hdims : info.dims = [outer, inner])
    (hpos : 0 < outer * inner) (hfile : InFile file info (.colParallel world 0))
    (h : sliceColParallelDim0 file name world rank = .ok bytes) :
    bytes = pieces info.dtype.typeSize (file.tensorBytes info)
      ((WeightLayout.colParallel world 0).blocksOf info rank) := by
  obtain ⟨hrank, hdvd, hblock, hraw⟩ := sliceRows_ok hinfo hdims h
  have hr : rank.toNat < world.toNat := hrank
  have hfits := file.mmap.fits
  have hsize := hfile
  unfold InFile at hsize
  rw [WeightLayout.blockCount_eq (rows_total hdims hblock), Nat.mul_assoc] at hsize
  rw [rows_blocks hdims hblock, filter_rows fun i => decide (Share outer world.toNat rank.toNat i), filter_share hr,
    rows_span, pieces_rows]
  have houter : 0 < outer := Nat.pos_of_mul_pos_right hpos
  have hrow : 0 < inner / info.dtype.blockSize := Nat.pos_of_ne_zero fun hzero => by
    have hmul := blocks_mul hblock
    rw [hzero, Nat.zero_mul] at hmul
    rw [← hmul, Nat.mul_zero] at hpos
    exact absurd hpos (Nat.lt_irrefl 0)
  generalize inner / info.dtype.blockSize = m at *
  have hcell : 0 < m * info.dtype.typeSize := Nat.mul_pos hrow info.dtype.typeSize_pos
  have hend := share_end_le hr outer
  rw [share_end] at hend
  have hpart := Nat.mul_le_mul_right (m * info.dtype.typeSize) hend
  rw [Nat.add_mul] at hpart
  have hall : outer * (m * info.dtype.typeSize) ≤ file.mmap.bytes.length := by omega
  have hrowBytes : umul m info.dtype.typeSize = m * info.dtype.typeSize := umul_le (right_le hall houter) (by omega)
  have hfirst : umul rank.toNat (outer / world.toNat) = rank.toNat * (outer / world.toNat) :=
    umul_le (Nat.le_trans (Nat.le_add_right _ _) (Nat.le_trans hend (left_le hall hcell))) (by omega)
  rw [hrowBytes, hfirst, umul_eq (by omega), umul_eq (by omega)] at hraw
  exact (Parsed.rawFor_ok hraw).2.2 (by omega)

/-- The same rows of every expert. -/
theorem expertRows_exact (hinfo : file.info name = .ok info)
    (hpos : 0 < (WeightLayout.colParallel world 1).elements info.dims) (hfile : InFile file info (.colParallel world 1))
    (h : sliceColParallelDim13d file name world rank = .ok bytes) :
    bytes = pieces info.dtype.typeSize (file.tensorBytes info)
      ((WeightLayout.colParallel world 1).blocksOf info rank) := by
  obtain ⟨nExperts, dim1, dim2, raw, hdims, hrank, hdvd, hblock, hraw, hin, rfl⟩ := sliceExpertRows_ok hinfo h
  have hr : rank.toNat < world.toNat := hrank
  have hfits := file.mmap.fits
  have hsize := hfile
  unfold InFile at hsize
  rw [WeightLayout.blockCount_eq (expertRows_total hdims hblock)] at hsize
  rw [expertRows_total hdims hblock] at hpos
  rw [expertRows_blocks hdims hblock,
    filter_rows fun i => decide (Share dim1 world.toNat rank.toNat (i % dim1)), filter_share_columns hr,
    List.flatMap_assoc, pieces_flatMap]
  refine List.flatMap_congr fun e he => ?_
  have hend := share_end_le hr dim1
  rw [share_end] at hend
  have hin := hin e (List.mem_range.mp he)
  have hexpert : (e + 1) * dim1 ≤ nExperts * dim1 := Nat.mul_le_mul_right _ (List.mem_range.mp he)
  have hdim1 : 0 < dim1 := Nat.pos_of_mul_pos_left (Nat.pos_of_mul_pos_right (Nat.pos_of_mul_pos_right hpos))
  have hrow : 0 < dim2 / info.dtype.blockSize := Nat.pos_of_mul_pos_left (Nat.pos_of_mul_pos_right hpos)
  rw [rows_span, pieces_rows]
  generalize dim2 / info.dtype.blockSize = m at *
  generalize dim1 / world.toNat = l at *
  rw [Nat.mul_assoc (nExperts * dim1)] at hsize
  have hcell : 0 < m * info.dtype.typeSize := Nat.mul_pos hrow info.dtype.typeSize_pos
  have hall : nExperts * dim1 * (m * info.dtype.typeSize) ≤ file.mmap.bytes.length := by omega
  have hrows : dim1 ≤ nExperts * dim1 := right_le (Nat.le_refl _) (Nat.zero_lt_of_lt (List.mem_range.mp he))
  have hrowBytes : umul m info.dtype.typeSize = m * info.dtype.typeSize :=
    umul_le (right_le hall (Nat.lt_of_lt_of_le hdim1 hrows)) (by omega)
  beta_reduce at hin ⊢
  rw [hrowBytes] at hin ⊢
  generalize m * info.dtype.typeSize = c at *
  have hslab := Nat.mul_le_mul_right c hrows
  have hpart : (e * dim1 + rank.toNat * l + l) * c ≤ nExperts * dim1 * c := Nat.mul_le_mul_right c (by
    rw [Nat.succ_mul] at hexpert
    omega)
  rw [Nat.add_mul, Nat.add_mul] at hpart
  have hfirst : umul rank.toNat l = rank.toNat * l := by
    have hle := left_le hall hcell
    exact umul_eq (by omega)
  have hslab' : umul dim1 c = dim1 * c := umul_eq (by omega)
  have hoffset : umul e (dim1 * c) = e * dim1 * c := by
    rw [Nat.mul_assoc]
    rw [Nat.mul_assoc e] at hpart
    exact umul_eq (by omega)
  have hlocal : umul l c = l * c := umul_eq (by omega)
  have hskip : umul (rank.toNat * l) c = rank.toNat * l * c := umul_eq (by omega)
  have hstart : uadd (e * dim1 * c) (rank.toNat * l * c) = e * dim1 * c + rank.toNat * l * c := uadd_eq (by omega)
  rw [hslab', hoffset, hfirst, hskip, hlocal, hstart, uadd_eq (by omega)] at hin ⊢
  rw [payload_range hinfo (Nat.le_refl _) hfile hraw hin.2, Nat.add_sub_cancel_left, Nat.add_mul]

/-- A row of blocks lies in the grid. -/
theorem cell_le {rows row m c : Nat} (hrow : row < rows) (hc : c ≤ m) (size : Nat) :
    (row * m + c) * size ≤ rows * m * size := by
  have hnext : (row + 1) * m ≤ rows * m := Nat.mul_le_mul_right m hrow
  rw [Nat.succ_mul] at hnext
  exact Nat.mul_le_mul_right size (by omega)

/-- The same columns of every row. -/
theorem columns_exact (hinfo : file.info name = .ok info) (hfile : InFile file info (.rowParallel world 1))
    (h : sliceRowParallelDim1 file name world rank = .ok bytes) :
    bytes = pieces info.dtype.typeSize (file.tensorBytes info)
      ((WeightLayout.rowParallel world 1).blocksOf info rank) := by
  obtain ⟨outer, inner, raw, hdims, hrank, hdvd, hlocal, hraw, hin, rfl⟩ := sliceColumns_ok hinfo h
  have hr : rank.toNat < world.toNat := hrank
  have hts := info.dtype.typeSize_pos
  have hfits := file.mmap.fits
  obtain ⟨hblock, hparts⟩ := columns_blocked hdvd hlocal
  have hsize := hfile
  unfold InFile at hsize
  rw [WeightLayout.blockCount_eq (columns_total hdims hblock)] at hsize
  rw [columns_blocks hdims hblock hparts, filter_share_columns hr, pieces_flatMap]
  refine List.flatMap_congr fun row hrow => ?_
  have hin := hin row (List.mem_range.mp hrow)
  have hend := share_end_le hr (inner / info.dtype.blockSize)
  rw [share_end] at hend
  rw [pieces_span, Nat.add_sub_cancel_left]
  rw [Nat.div_right_comm] at hin ⊢
  have hcell := cell_le (List.mem_range.mp hrow) hend info.dtype.typeSize
  have houter := Nat.zero_lt_of_lt (List.mem_range.mp hrow)
  have hbound : inner / info.dtype.blockSize ≤ outer * (inner / info.dtype.blockSize) := right_le (Nat.le_refl _) houter
  beta_reduce at hin ⊢
  generalize inner / info.dtype.blockSize = m at *
  generalize m / world.toNat = p at *
  have hwidth := Nat.mul_le_mul_right info.dtype.typeSize hbound
  have hcount := Nat.le_mul_of_pos_right (outer * m) hts
  rw [← Nat.add_assoc, Nat.add_mul, Nat.add_mul] at hcell
  have hfull : umul m info.dtype.typeSize = m * info.dtype.typeSize := umul_eq (by omega)
  have hskip : umul row (m * info.dtype.typeSize) = row * m * info.dtype.typeSize := by
    rw [Nat.mul_assoc]
    rw [Nat.mul_assoc row] at hcell
    exact umul_eq (by omega)
  have hfirst : umul rank.toNat p = rank.toNat * p := umul_eq (by omega)
  have hoffset : umul (rank.toNat * p) info.dtype.typeSize = rank.toNat * p * info.dtype.typeSize := umul_eq (by omega)
  have hlen : umul p info.dtype.typeSize = p * info.dtype.typeSize := umul_eq (by omega)
  have hstart : uadd (row * m * info.dtype.typeSize) (rank.toNat * p * info.dtype.typeSize) =
      row * m * info.dtype.typeSize + rank.toNat * p * info.dtype.typeSize := uadd_eq (by omega)
  rw [hfull, hskip, hfirst, hoffset, hlen, hstart, uadd_eq (by omega)] at hin ⊢
  rw [payload_range hinfo (Nat.le_refl _) hfile hraw hin.2, Nat.add_sub_cancel_left, Nat.add_mul]

/-- The same columns of every row of every expert. -/
theorem expertColumns_exact (hinfo : file.info name = .ok info)
    (hpos : 0 < (WeightLayout.rowParallel world 2).elements info.dims) (hfile : InFile file info (.rowParallel world 2))
    (h : sliceRowParallelDim23d file name world rank = .ok bytes) :
    bytes = pieces info.dtype.typeSize (file.tensorBytes info)
      ((WeightLayout.rowParallel world 2).blocksOf info rank) := by
  obtain ⟨nExperts, dim1, dim2, raw, hdims, hrank, hdvd, hlocal, hraw, hin, rfl⟩ := sliceExpertColumns_ok hinfo h
  have hr : rank.toNat < world.toNat := hrank
  have hts := info.dtype.typeSize_pos
  have hfits := file.mmap.fits
  obtain ⟨hblock, hparts⟩ := columns_blocked hdvd hlocal
  have hsize := hfile
  unfold InFile at hsize
  rw [WeightLayout.blockCount_eq (expertColumns_total hdims hblock)] at hsize
  rw [expertColumns_total hdims hblock] at hpos
  have hcols : 0 < dim2 / info.dtype.blockSize := Nat.pos_of_mul_pos_left (Nat.pos_of_mul_pos_right hpos)
  rw [expertColumns_blocks hdims hblock hparts, filter_share_columns hr, pieces_flatMap, range_grid]
  refine List.flatMap_congr fun e he => List.flatMap_congr fun row hrow => ?_
  have hin := hin e (List.mem_range.mp he) row (List.mem_range.mp hrow)
  have hend := share_end_le hr (dim2 / info.dtype.blockSize)
  rw [share_end] at hend
  rw [pieces_span, Nat.add_sub_cancel_left]
  rw [Nat.div_right_comm] at hin ⊢
  have hgrid : e * dim1 + row < nExperts * dim1 := by
    have hnext : (e + 1) * dim1 ≤ nExperts * dim1 := Nat.mul_le_mul_right dim1 (List.mem_range.mp he)
    have hlast := List.mem_range.mp hrow
    rw [Nat.succ_mul] at hnext
    omega
  have hcell := cell_le hgrid hend info.dtype.typeSize
  have hbound : dim2 / info.dtype.blockSize ≤ nExperts * dim1 * (dim2 / info.dtype.blockSize) :=
    right_le (Nat.le_refl _) (Nat.zero_lt_of_lt hgrid)
  beta_reduce at hin ⊢
  generalize dim2 / info.dtype.blockSize = m at *
  generalize m / world.toNat = p at *
  have hwidth := Nat.mul_le_mul_right info.dtype.typeSize hbound
  have hcount := Nat.le_mul_of_pos_right (nExperts * dim1 * m) hts
  rw [← Nat.add_assoc, Nat.add_mul, Nat.add_mul, Nat.add_mul, Nat.add_mul] at hcell
  have hmul : rank.toNat * (p * info.dtype.typeSize) = rank.toNat * p * info.dtype.typeSize :=
    (Nat.mul_assoc _ _ _).symm
  have hfull : umul m info.dtype.typeSize = m * info.dtype.typeSize := umul_eq (by omega)
  have hlen : umul p info.dtype.typeSize = p * info.dtype.typeSize := umul_eq (by omega)
  have hoffset : umul rank.toNat (p * info.dtype.typeSize) = rank.toNat * p * info.dtype.typeSize := by
    rw [← hmul]
    exact umul_eq (by omega)
  have hexpert : umul e dim1 = e * dim1 := by
    have hrows := Nat.le_mul_of_pos_right (nExperts * dim1) hcols
    exact umul_eq (by omega)
  have hslab : umul (e * dim1) (m * info.dtype.typeSize) = e * dim1 * m * info.dtype.typeSize := by
    rw [Nat.mul_assoc (e * dim1)]
    rw [Nat.mul_assoc (e * dim1)] at hcell
    exact umul_eq (by omega)
  have hskip : umul row (m * info.dtype.typeSize) = row * m * info.dtype.typeSize := by
    rw [Nat.mul_assoc]
    rw [Nat.mul_assoc row] at hcell
    exact umul_eq (by omega)
  have hrowStart : uadd (e * dim1 * m * info.dtype.typeSize) (row * m * info.dtype.typeSize) =
      e * dim1 * m * info.dtype.typeSize + row * m * info.dtype.typeSize := uadd_eq (by omega)
  have hstart : uadd (e * dim1 * m * info.dtype.typeSize + row * m * info.dtype.typeSize)
      (rank.toNat * p * info.dtype.typeSize) = e * dim1 * m * info.dtype.typeSize +
        row * m * info.dtype.typeSize + rank.toNat * p * info.dtype.typeSize := uadd_eq (by omega)
  rw [hfull, hlen, hoffset, hexpert, hslab, hskip, hrowStart, hstart, uadd_eq (by omega)] at hin ⊢
  rw [payload_range hinfo (Nat.le_refl _) hfile hraw hin.2, Nat.add_sub_cancel_left, Nat.add_mul, Nat.add_mul,
    Nat.add_mul]

/-- The parts of a rank, where the rows of the layout are counted without a wrap. -/
theorem fusedParts_eq {spec : FusedQkvSpec} (hr : rank.toNat < world.toNat) {v k : Nat}
    (hv : spec.numVHeads.toNat * spec.headVDim.toNat = v) (hk : spec.numKHeads.toNat * spec.headKDim.toNat = k)
    (hrows : v + 2 * k < 2 ^ 64) :
    fusedParts spec world rank =
      (if spec.kqReplicated then [(0, k), (k, k)]
        else [(rank.toNat * (k / world.toNat), k / world.toNat),
          (k + rank.toNat * (k / world.toNat), k / world.toNat)]) ++
        [(2 * k + rank.toNat * (v / world.toNat), v / world.toNat)] := by
  have hkEnd := share_end_le hr k
  have hvEnd := share_end_le hr v
  rw [share_end] at hkEnd hvEnd
  have hvRows : umul spec.numVHeads.toNat spec.headVDim.toNat = v := by
    rw [umul_eq (by omega), hv]
  have hkRows : umul spec.numKHeads.toNat spec.headKDim.toNat = k := by
    rw [umul_eq (by omega), hk]
  have htwice : umul 2 k = 2 * k := umul_eq (by omega)
  unfold fusedParts
  dsimp only
  rw [hvRows, hkRows, htwice]
  generalize v / world.toNat = vl at *
  generalize k / world.toNat = kl at *
  have hvSkip : umul rank.toNat vl = rank.toNat * vl := umul_eq (by omega)
  have hkSkip : umul rank.toNat kl = rank.toNat * kl := umul_eq (by omega)
  have hvStart : uadd (2 * k) (rank.toNat * vl) = 2 * k + rank.toNat * vl := uadd_eq (by omega)
  have hkStart : uadd k (rank.toNat * kl) = k + rank.toNat * kl := uadd_eq (by omega)
  rw [hvSkip, hvStart]
  cases spec.kqReplicated with
  | true => rfl
  | false =>
    simp only [Bool.false_eq_true, if_false]
    rw [hkSkip, hkStart]
    rfl

end Exact

section Fused
variable {file : Parsed} {info : TensorInfo} {world rank : UInt32} {spec : FusedQkvSpec}

def FusedQkvSpec.layout (spec : FusedQkvSpec) (world : UInt32) : WeightLayout :=
  .fusedQkvParallel world spec.numVHeads spec.numKHeads spec.headVDim spec.headKDim spec.kqReplicated

def FusedQkvSpec.vRows (spec : FusedQkvSpec) : Nat := spec.numVHeads.toNat * spec.headVDim.toNat

/-- The rows of `k`, and of `q`. -/
def FusedQkvSpec.kRows (spec : FusedQkvSpec) : Nat := spec.numKHeads.toNat * spec.headKDim.toNat

/-- The rank has this row. -/
def FusedQkvSpec.givesRow (spec : FusedQkvSpec) (world rank : UInt32) (row : Nat) : Bool :=
  if row < 2 * spec.kRows then spec.kqReplicated ||
    decide (Share spec.numKHeads.toNat world.toNat rank.toNat (row % spec.kRows / spec.headKDim.toNat))
  else decide (Share spec.numVHeads.toNat world.toNat rank.toNat ((row - 2 * spec.kRows) / spec.headVDim.toNat))

/-- The rows that a rank has of `q` or of `k`, which start at `lo`. -/
theorem filter_kRows (hr : rank.toNat < world.toNat)
    (hk : spec.kqReplicated = true ∨ spec.numKHeads.toNat % world.toNat = 0) (hlo : lo = 0 ∨ lo = spec.kRows) :
    (span lo (lo + spec.kRows)).filter (spec.givesRow world rank) =
      if spec.kqReplicated then span lo (lo + spec.kRows)
      else span (lo + rank.toNat * (spec.kRows / world.toNat))
        (lo + rank.toNat * (spec.kRows / world.toNat) + spec.kRows / world.toNat) := by
  cases hrepl : spec.kqReplicated with
  | true =>
    rw [if_pos rfl]
    refine List.filter_eq_self.mpr fun row hrow => ?_
    have hmem := mem_span.mp hrow
    unfold FusedQkvSpec.givesRow
    rw [if_pos (by omega), hrepl, Bool.true_or]
  | false =>
    have hdvd : spec.numKHeads.toNat % world.toNat = 0 := hk.resolve_left (by rw [hrepl]; decide)
    rw [if_neg (by decide), Nat.add_assoc, ← share_end]
    have hend := share_end_le hr spec.kRows
    refine Eq.trans ?_ (filter_span (Nat.le_add_right lo _)
      (Nat.add_le_add_left (share_start_le spec.kRows world.toNat rank.toNat) lo) (Nat.add_le_add_left hend lo))
    refine List.filter_congr fun row hrow => ?_
    have hmem := mem_span.mp hrow
    have hmod : row % spec.kRows = row - lo := by
      rcases hlo with rfl | rfl
      · exact Nat.mod_eq_of_lt (by omega)
      · rw [Nat.mod_eq_sub_mod (by omega)]
        exact Nat.mod_eq_of_lt (by omega)
    have hdim : 0 < spec.headKDim.toNat := Nat.pos_of_ne_zero fun hzero => by
      have hnone : spec.kRows = 0 := by
        unfold FusedQkvSpec.kRows
        rw [hzero, Nat.mul_zero]
      omega
    unfold FusedQkvSpec.givesRow
    rw [if_pos (by omega), hrepl, Bool.false_or, hmod]
    refine decide_eq_decide.mpr ((share_div hdvd hdim).trans ?_)
    change Share spec.kRows world.toNat rank.toNat (row - lo) ↔ _
    unfold Share
    omega

theorem filter_vRows (hr : rank.toNat < world.toNat) (hv : spec.numVHeads.toNat % world.toNat = 0) :
    (span (2 * spec.kRows) (2 * spec.kRows + spec.vRows)).filter (spec.givesRow world rank) =
      span (2 * spec.kRows + rank.toNat * (spec.vRows / world.toNat))
        (2 * spec.kRows + rank.toNat * (spec.vRows / world.toNat) + spec.vRows / world.toNat) := by
  rw [Nat.add_assoc, ← share_end]
  have hend := share_end_le hr spec.vRows
  refine Eq.trans ?_ (filter_span (Nat.le_add_right _ _)
    (Nat.add_le_add_left (share_start_le spec.vRows world.toNat rank.toNat) _) (Nat.add_le_add_left hend _))
  refine List.filter_congr fun row hrow => ?_
  have hmem := mem_span.mp hrow
  have hdim : 0 < spec.headVDim.toNat := Nat.pos_of_ne_zero fun hzero => by
    have hnone : spec.vRows = 0 := by
      unfold FusedQkvSpec.vRows
      rw [hzero, Nat.mul_zero]
    omega
  unfold FusedQkvSpec.givesRow
  rw [if_neg (by omega)]
  refine decide_eq_decide.mpr ((share_div hv hdim).trans ?_)
  change Share spec.vRows world.toNat rank.toNat (row - 2 * spec.kRows) ↔ _
  unfold Share
  omega

/-- The rows of a rank are its parts, in their order. -/
theorem filter_fused (hr : rank.toNat < world.toNat) (hv : spec.numVHeads.toNat % world.toNat = 0)
    (hk : spec.kqReplicated = true ∨ spec.numKHeads.toNat % world.toNat = 0)
    (hrows : spec.vRows + 2 * spec.kRows < 2 ^ 64) :
    (List.range (spec.vRows + 2 * spec.kRows)).filter (spec.givesRow world rank) =
      (fusedParts spec world rank).flatMap fun p => span p.1 (p.1 + p.2) := by
  have hq := @filter_kRows _ _ spec _ hr hk (.inl rfl)
  have hk' := @filter_kRows _ _ spec _ hr hk (.inr rfl)
  rw [Nat.zero_add, Nat.zero_add] at hq
  rw [← span_zero, ← span_append (Nat.zero_le (2 * spec.kRows)) (by omega), Nat.add_comm spec.vRows,
    ← span_append (Nat.zero_le spec.kRows) (by omega : spec.kRows ≤ 2 * spec.kRows), List.filter_append,
    List.filter_append, filter_vRows hr hv, hq, Nat.two_mul, hk', fusedParts_eq hr rfl rfl hrows]
  cases spec.kqReplicated with
  | true =>
    simp only [if_true, List.cons_append, List.nil_append, List.flatMap_cons, List.flatMap_nil, List.append_nil,
      Nat.zero_add, Nat.two_mul, FusedQkvSpec.kRows, FusedQkvSpec.vRows, List.append_assoc]
  | false =>
    simp only [Bool.false_eq_true, if_false, List.cons_append, List.nil_append, List.flatMap_cons, List.flatMap_nil,
      List.append_nil, Nat.two_mul, FusedQkvSpec.kRows, FusedQkvSpec.vRows, List.append_assoc]

theorem fused_total {inner : Nat} (hdims : info.dims = [outer, inner]) (hblock : inner % info.dtype.blockSize = 0) :
    (spec.layout world).elements info.dims =
      (spec.vRows + 2 * spec.kRows) * (inner / info.dtype.blockSize) * info.dtype.blockSize := by
  rw [hdims, Nat.mul_assoc, blocks_mul hblock]
  rfl

theorem fused_blocks {inner : Nat} (hdims : info.dims = [outer, inner]) (hblock : inner % info.dtype.blockSize = 0) :
    (spec.layout world).blocksOf info rank =
      (List.range ((spec.vRows + 2 * spec.kRows) * (inner / info.dtype.blockSize))).filter fun b =>
        spec.givesRow world rank (b / (inner / info.dtype.blockSize)) := by
  refine WeightLayout.blocksOf_eq (fused_total hdims hblock) fun b _ j hj => ?_
  have hrow := block_row b (m := inner / info.dtype.blockSize) hj
  rw [blocks_mul hblock] at hrow
  rw [hdims, ← hrow]
  rfl

/-- A part of a rank ends within the rows. -/
theorem fusedParts_le (hr : rank.toNat < world.toNat) (hrows : spec.vRows + 2 * spec.kRows < 2 ^ 64)
    (hp : p ∈ fusedParts spec world rank) : p.1 + p.2 ≤ spec.vRows + 2 * spec.kRows := by
  have hkEnd := share_end_le hr spec.kRows
  have hvEnd := share_end_le hr spec.vRows
  rw [share_end] at hkEnd hvEnd
  rw [fusedParts_eq hr (rfl : _ = spec.vRows) (rfl : _ = spec.kRows) hrows] at hp
  generalize spec.vRows / world.toNat = vl at *
  generalize spec.kRows / world.toNat = kl at *
  rcases List.mem_append.mp hp with hp | hp
  · split at hp
    · rcases List.mem_cons.mp hp with rfl | hp
      · dsimp only
        omega
      · rw [List.mem_singleton.mp hp]
        dsimp only
        omega
    · rcases List.mem_cons.mp hp with rfl | hp
      · dsimp only
        omega
      · rw [List.mem_singleton.mp hp]
        dsimp only
        omega
  · rw [List.mem_singleton.mp hp]
    dsimp only
    omega

theorem fusedOuter_le (a b c d : Nat) : uadd (umul a b) (umul 2 (umul c d)) ≤ a * b + 2 * (c * d) := by
  refine Nat.le_trans (Nat.mod_le _ _) (Nat.add_le_add (Nat.mod_le _ _) ?_)
  exact Nat.le_trans (Nat.mod_le _ _) (Nat.mul_le_mul_left 2 (Nat.mod_le _ _))

/-- The heads of a fused tensor. -/
theorem fused_exact (hinfo : file.info name = .ok info) (hpos : 0 < (spec.layout world).elements info.dims)
    (hfile : InFile file info (spec.layout world))
    (h : sliceFusedQkvParallel file name world rank spec = .ok bytes) :
    bytes = pieces info.dtype.typeSize (file.tensorBytes info) ((spec.layout world).blocksOf info rank) := by
  obtain ⟨outer, inner, raw, hdims, hrank, hv, hk, houter, hblock, hraw, hin, rfl⟩ := sliceFused_ok hinfo h
  have hr : rank.toNat < world.toNat := hrank
  have hfits := file.mmap.fits
  have hsize := hfile
  unfold InFile at hsize
  rw [WeightLayout.blockCount_eq (fused_total hdims hblock), Nat.mul_assoc] at hsize
  rw [fused_total hdims hblock] at hpos
  have hgrid := Nat.pos_of_mul_pos_right hpos
  have hall : 0 < spec.vRows + 2 * spec.kRows := Nat.pos_of_mul_pos_right hgrid
  have hcell : 0 < inner / info.dtype.blockSize * info.dtype.typeSize :=
    Nat.mul_pos (Nat.pos_of_mul_pos_left hgrid) info.dtype.typeSize_pos
  have hbytes : (spec.vRows + 2 * spec.kRows) * (inner / info.dtype.blockSize * info.dtype.typeSize) ≤
      file.mmap.bytes.length := by omega
  have hcount := left_le hbytes hcell
  have hprod : info.dims.prod ≤ (spec.layout world).elements info.dims := by
    rw [hdims, List.prod_cons, List.prod_singleton, houter]
    exact Nat.mul_le_mul_right inner (fusedOuter_le _ _ _ _)
  rw [fused_blocks hdims hblock, filter_rows (spec.givesRow world rank), filter_fused hr hv hk (by omega),
    List.flatMap_assoc, pieces_flatMap]
  refine List.flatMap_congr fun p hp => ?_
  have hle := fusedParts_le hr (by omega) hp
  have hend := (hin p hp).2
  have hpart := Nat.mul_le_mul_right (inner / info.dtype.blockSize * info.dtype.typeSize) hle
  have hrowBytes : umul (inner / info.dtype.blockSize) info.dtype.typeSize =
      inner / info.dtype.blockSize * info.dtype.typeSize := umul_le (right_le hbytes hall) (by omega)
  have hsum : uadd p.1 p.2 = p.1 + p.2 := uadd_eq (by omega)
  rw [rows_span, pieces_rows]
  beta_reduce at hend ⊢
  rw [hrowBytes, hsum] at hend ⊢
  generalize inner / info.dtype.blockSize * info.dtype.typeSize = c at *
  have hfinish : umul (p.1 + p.2) c = (p.1 + p.2) * c := umul_eq (by omega)
  rw [Nat.add_mul] at hpart
  have hstart : umul p.1 c = p.1 * c := umul_eq (by omega)
  rw [hfinish] at hend
  rw [hfinish, hstart, payload_range hinfo hprod hfile hraw hend, Nat.add_mul, Nat.add_sub_cancel_left]

end Fused

end Flambeau.Runtime
