import Flambeau.Runtime.TpExact

namespace Flambeau.Runtime
open Systems Quant

section Slices
variable {file : Parsed} {info : TensorInfo}

/-- A tensor without elements has no bytes to read. -/
theorem raw_empty {context : String} (hinfo : file.info name = .ok info) (hprod : info.dims.prod = 0)
    (hraw : tensorRaw file name context = .ok raw) : raw = [] := by
  have hlen := (tensorRaw_ok hinfo hraw).1
  rw [sizeInBytes_eq, hprod, Nat.zero_mod, Nat.zero_div, Nat.zero_mul, Nat.zero_mod] at hlen
  exact List.eq_nil_of_length_eq_zero (Nat.le_zero.mp hlen)

theorem blocksOf_empty {layout : WeightLayout} (h : layout.elements info.dims = 0) (rank : UInt32) :
    layout.blocksOf info rank = [] := by
  have hcount : layout.blockCount info = 0 := by
    unfold WeightLayout.blockCount Quant.divCeil
    rw [h, Nat.zero_add]
    exact Nat.div_eq_of_lt (by have hpos := info.dtype.blockSize_pos; omega)
  unfold WeightLayout.blocksOf
  rw [hcount]
  rfl

theorem flatMap_empty (is : List γ) (s n : γ → Nat) :
    (is.flatMap fun i => (([] : List UInt8).drop (s i)).take (n i)) = [] := by
  refine List.flatMap_eq_nil_iff.mpr fun i _ => ?_
  rw [List.drop_nil, List.take_nil]

/-- The first axis of a vector or a matrix is cut. -/
theorem dim0_shape {world : UInt32} (hinfo : file.info name = .ok info)
    (h : sliceColParallelDim0 file name world rank = .ok bytes) :
    (∃ outer, info.dims = [outer]) ∨ ∃ outer inner, info.dims = [outer, inner] := by
  unfold sliceColParallelDim0 at h
  obtain ⟨_, -, h⟩ := Outcome.bind_eq_ok.mp h
  obtain ⟨info', hinfo', h⟩ := Outcome.bind_eq_ok.mp h
  rw [tensorInfo_ok, hinfo] at hinfo'
  cases hinfo'
  split at h
  · rename_i outer hdims
    exact .inl ⟨outer, hdims⟩
  · rename_i outer inner hdims
    exact .inr ⟨outer, inner, hdims⟩
  · cases h

/-- Nothing is sliced from a tensor without elements. -/
theorem slice_empty {layout : WeightLayout} (hinfo : file.info name = .ok info)
    (hzero : layout.elements info.dims = 0) (h : sliceForTp file name layout rank = .ok bytes) : bytes = [] := by
  unfold sliceForTp at h
  split at h
  · exact raw_empty hinfo hzero h
  · rename_i world
    rcases dim0_shape hinfo h with ⟨outer, hdims⟩ | ⟨outer, inner, hdims⟩
    · obtain ⟨-, -, context, raw, hraw, -, rfl⟩ := sliceVector_ok hinfo hdims h
      rw [raw_empty hinfo hzero hraw, List.drop_nil, List.take_nil]
    · obtain ⟨-, -, -, hraw⟩ := sliceRows_ok hinfo hdims h
      obtain ⟨hlen, htotal, -⟩ := Parsed.rawFor_ok hraw
      have hprod : info.dims.prod = 0 := hzero
      rw [sizeInBytes_eq, hprod, Nat.zero_mod, Nat.zero_div, Nat.zero_mul, Nat.zero_mod] at htotal
      exact List.eq_nil_of_length_eq_zero (by omega)
  · obtain ⟨outer, inner, raw, -, -, -, -, hraw, -, rfl⟩ := sliceColumns_ok hinfo h
    rw [raw_empty hinfo hzero hraw]
    exact flatMap_empty _ _ _
  · obtain ⟨nExperts, dim1, dim2, raw, -, -, -, -, hraw, -, rfl⟩ := sliceExpertRows_ok hinfo h
    rw [raw_empty hinfo hzero hraw]
    exact flatMap_empty _ _ _
  · obtain ⟨nExperts, dim1, dim2, raw, -, -, -, -, hraw, -, rfl⟩ := sliceExpertColumns_ok hinfo h
    rw [raw_empty hinfo hzero hraw]
    exact List.flatMap_eq_nil_iff.mpr fun e _ => flatMap_empty _ _ _
  · rename_i world numVHeads numKHeads headVDim headKDim kqReplicated
    obtain ⟨outer, inner, raw, hdims, -, -, -, houter, -, hraw, -, rfl⟩ := sliceFused_ok hinfo h
    have hprod : info.dims.prod = 0 := by
      rw [hdims] at hzero ⊢
      rw [List.prod_cons, List.prod_singleton]
      rcases Nat.mul_eq_zero.mp hzero with hrows | hinner
      · have hle := fusedOuter_le numVHeads.toNat headVDim.toNat numKHeads.toNat headKDim.toNat
        rw [hrows] at hle
        rw [houter, Nat.le_zero.mp hle, Nat.zero_mul]
      · rw [hinner, Nat.mul_zero]
    rw [raw_empty hinfo hprod hraw]
    exact flatMap_empty _ _ _
  · cases h
  · cases h

/-- A copied tensor of whole blocks. -/
theorem replicated_exact (hinfo : file.info name = .ok info) (hcuts : WeightLayout.replicated.Cuts info)
    (hfile : InFile file info .replicated) {context : String} (h : tensorRaw file name context = .ok bytes) :
    bytes = pieces info.dtype.typeSize (file.tensorBytes info) (WeightLayout.replicated.blocksOf info rank) := by
  obtain ⟨hcount, hblock⟩ : info.dims.prod < 2 ^ 64 ∧ info.dims.prod % info.dtype.blockSize = 0 := hcuts
  have hfits := file.mmap.fits
  have htotal : WeightLayout.replicated.elements info.dims =
      info.dims.prod / info.dtype.blockSize * info.dtype.blockSize := (blocks_mul hblock).symm
  have hblocks : WeightLayout.replicated.blocksOf info rank = span 0 (info.dims.prod / info.dtype.blockSize) := by
    rw [WeightLayout.blocksOf_eq htotal fun b _ j _ => (rfl : _ = (fun _ => true) b), span_zero]
    exact List.filter_eq_self.mpr fun b _ => rfl
  unfold InFile at hfile
  rw [WeightLayout.blockCount_eq htotal] at hfile
  have hsize : info.sizeInBytes = info.dims.prod / info.dtype.blockSize * info.dtype.typeSize := by
    rw [sizeInBytes_eq, Nat.mod_eq_of_lt hcount]
    exact Nat.mod_eq_of_lt (by omega)
  have hraw := (tensorRaw_ok hinfo h).2
  rw [hsize] at hraw
  rw [hraw (by omega), hblocks, pieces_span, Nat.zero_mul, List.drop_zero, Nat.sub_zero]

/-- A vector that has elements and is cut has blocks of one element. -/
theorem vector_single {world : UInt32} (hcuts : (WeightLayout.colParallel world 0).Cuts info)
    (hdims : info.dims = [outer]) (hpos : 0 < (WeightLayout.colParallel world 0).elements info.dims) :
    info.dtype.blockSize = 1 := by
  have hone : outer = 0 ∨ info.dtype.blockSize = 1 := by
    unfold WeightLayout.Cuts at hcuts
    rw [hdims] at hcuts
    exact hcuts
  refine hone.resolve_left fun hzero => ?_
  rw [hdims, hzero] at hpos
  exact absurd hpos (Nat.lt_irrefl 0)

/-- The slice of a rank is its blocks, when they are all in the file. -/
theorem slice_exact {layout : WeightLayout} (hinfo : file.info name = .ok info)
    (hpos : 0 < layout.elements info.dims) (hcuts : layout.Cuts info) (hfile : InFile file info layout)
    (h : sliceForTp file name layout rank = .ok bytes) :
    bytes = pieces info.dtype.typeSize (file.tensorBytes info) (layout.blocksOf info rank) := by
  unfold sliceForTp at h
  split at h
  · exact replicated_exact hinfo hcuts hfile h
  · rename_i world
    rcases dim0_shape hinfo h with ⟨outer, hdims⟩ | ⟨outer, inner, hdims⟩
    · exact vector_exact hinfo hdims (vector_single hcuts hdims hpos) hfile h
    · have hgrid : 0 < outer * inner := by
        rw [hdims] at hpos
        change 0 < [outer, inner].prod at hpos
        rwa [List.prod_cons, List.prod_singleton] at hpos
      exact rows_exact hinfo hdims hgrid hfile h
  · exact columns_exact hinfo hfile h
  · exact expertRows_exact hinfo hpos hfile h
  · exact expertColumns_exact hinfo hpos hfile h
  · rename_i world numVHeads numKHeads headVDim headKDim kqReplicated
    have hpos' : 0 < (FusedQkvSpec.layout ⟨numVHeads, numKHeads, headVDim, headKDim, kqReplicated⟩ world).elements
        info.dims := hpos
    exact fused_exact hinfo hpos' hfile h
  · cases h
  · cases h

/-- A block in the share of one rank. -/
theorem only_rank {layout : WeightLayout} {w : UInt32} (hworld : layout.world = some w)
    (hmem : ∀ rank : UInt32, b ∈ layout.blocksOf info rank ↔ Share n w.toNat rank.toNat i) (hdvd : n % w.toNat = 0)
    (hi : i < n) : ∃! rank, layout.IsRank rank ∧ b ∈ layout.blocksOf info rank := by
  obtain ⟨r, hr, hshare⟩ := exists_share hdvd hi
  have hsmall : r < 2 ^ 32 := Nat.lt_trans hr w.toNat_lt
  have hnat : (UInt32.ofNat r).toNat = r := UInt32.toNat_ofNat_of_lt' hsmall
  refine ⟨UInt32.ofNat r, ⟨(WeightLayout.isRank_iff hworld).mpr ?_, (hmem _).mpr (by rwa [hnat])⟩, ?_⟩
  · exact UInt32.lt_iff_toNat_lt.mpr (by rwa [hnat])
  · rintro s ⟨-, hs⟩
    have hsame := share_inj ((hmem s).mp hs) hshare
    exact UInt32.toNat_inj.mp (by rw [hsame, hnat])

theorem mem_filter_range {q : Nat} {keep : Nat → Bool} (hb : b < q) :
    b ∈ (List.range q).filter keep ↔ keep b = true := by
  rw [List.mem_filter, List.mem_range]
  exact and_iff_right hb

/-- A block starts with an element of the tensor. -/
theorem block_start_lt {layout : WeightLayout} (hb : b < layout.blockCount info) :
    b * info.dtype.blockSize < layout.elements info.dims := by
  have hsize := info.dtype.blockSize_pos
  have hmul := (Nat.le_div_iff_mul_le hsize).mp (Nat.succ_le_of_lt hb)
  rw [Nat.succ_mul] at hmul
  omega

theorem block_start_mem {layout : WeightLayout} (hb : b < layout.blockCount info) :
    b * info.dtype.blockSize ∈ layout.members info b := by
  have hsize := info.dtype.blockSize_pos
  have hlt := block_start_lt hb
  unfold WeightLayout.members
  rw [mem_span, Nat.succ_mul]
  omega

theorem elements_pos {layout : WeightLayout} (hb : b < layout.blockCount info) : 0 < layout.elements info.dims :=
  Nat.pos_of_ne_zero fun hzero => by
    have hsize := info.dtype.blockSize_pos
    unfold WeightLayout.blockCount Quant.divCeil at hb
    rw [hzero, Nat.zero_add, Nat.div_eq_of_lt (by omega)] at hb
    cases hb

/-- A block of `q`, `k` or `v` that is not copied goes to one rank. -/
theorem fused_once {world : UInt32} {spec : FusedQkvSpec} {inner : Nat} (hdims : info.dims = [outer, inner])
    (hblock : inner % info.dtype.blockSize = 0) (hv : spec.numVHeads.toNat % world.toNat = 0)
    (hk : spec.kqReplicated = true ∨ spec.numKHeads.toNat % world.toNat = 0)
    (hb : b < (spec.layout world).blockCount info)
    (hown : ((spec.layout world).members info b).any ((spec.layout world).shares info.dims) = false) :
    ∃! rank, (spec.layout world).IsRank rank ∧ b ∈ (spec.layout world).blocksOf info rank := by
  rw [WeightLayout.blockCount_eq (fused_total hdims hblock)] at hb
  have hrow : b / (inner / info.dtype.blockSize) < spec.vRows + 2 * spec.kRows :=
    Nat.div_lt_of_lt_mul (Nat.mul_comm _ _ ▸ hb)
  have hshares : (spec.kqReplicated && decide (b / (inner / info.dtype.blockSize) < 2 * spec.kRows)) = false := by
    rw [← hown]
    refine (WeightLayout.members_any (fused_total hdims hblock) hb fun j hj => ?_).symm
    have hsame := block_row b (m := inner / info.dtype.blockSize) hj
    rw [blocks_mul hblock] at hsame
    rw [hdims, ← hsame]
    rfl
  have hmem : ∀ rank, b ∈ (spec.layout world).blocksOf info rank ↔
      spec.givesRow world rank (b / (inner / info.dtype.blockSize)) = true := fun rank => by
    rw [fused_blocks hdims hblock, mem_filter_range hb]
  generalize b / (inner / info.dtype.blockSize) = row at *
  by_cases hpart : row < 2 * spec.kRows
  · have hrepl : spec.kqReplicated = false := by
      rwa [decide_eq_true hpart, Bool.and_true] at hshares
    have hkRows : 0 < spec.kRows := by omega
    have hhead : row % spec.kRows / spec.headKDim.toNat < spec.numKHeads.toNat :=
      Nat.div_lt_of_lt_mul (Nat.mul_comm _ _ ▸ Nat.mod_lt row hkRows)
    refine only_rank rfl (fun rank => (hmem rank).trans ?_) (hk.resolve_left (by rw [hrepl]; decide)) hhead
    unfold FusedQkvSpec.givesRow
    rw [if_pos hpart, hrepl, Bool.false_or]
    exact decide_eq_true_iff
  · have hhead : (row - 2 * spec.kRows) / spec.headVDim.toNat < spec.numVHeads.toNat :=
      Nat.div_lt_of_lt_mul (Nat.mul_comm spec.numVHeads.toNat _ ▸ (by
        change row - 2 * spec.kRows < spec.vRows
        omega))
    refine only_rank rfl (fun rank => (hmem rank).trans ?_) hv hhead
    unfold FusedQkvSpec.givesRow
    rw [if_neg hpart]
    exact decide_eq_true_iff

/-- A block that not every rank has goes to one. -/
theorem block_once {layout : WeightLayout} (hinfo : file.info name = .ok info) (hcuts : layout.Cuts info)
    (h : sliceForTp file name layout rank = .ok bytes)
    (hb : b < layout.blockCount info) (hown : (layout.members info b).any (layout.shares info.dims) = false) :
    ∃! rank, layout.IsRank rank ∧ b ∈ layout.blocksOf info rank := by
  have hpos := elements_pos hb
  unfold sliceForTp at h
  split at h
  · exfalso
    have hmember : (WeightLayout.replicated.members info b).any (WeightLayout.replicated.shares info.dims) = true :=
      List.any_eq_true.mpr ⟨b * info.dtype.blockSize, block_start_mem hb, rfl⟩
    rw [hmember] at hown
    cases hown
  · rename_i world
    rcases dim0_shape hinfo h with ⟨outer, hdims⟩ | ⟨outer, inner, hdims⟩
    · have hone := vector_single hcuts hdims hpos
      obtain ⟨-, hdvd, -⟩ := sliceVector_ok hinfo hdims h
      rw [WeightLayout.blockCount_eq (vector_total hdims hone)] at hb
      refine only_rank rfl (fun rank => ?_) hdvd hb
      rw [vector_blocks hdims hone, mem_filter_range hb]
      exact decide_eq_true_iff
    · obtain ⟨-, hdvd, hblock, -⟩ := sliceRows_ok hinfo hdims h
      rw [WeightLayout.blockCount_eq (rows_total hdims hblock)] at hb
      refine only_rank rfl (fun rank => ?_) hdvd (Nat.div_lt_of_lt_mul (Nat.mul_comm _ _ ▸ hb))
      rw [rows_blocks hdims hblock, mem_filter_range hb]
      exact decide_eq_true_iff
  · obtain ⟨outer, inner, raw, hdims, -, hdvd, hlocal, -⟩ := sliceColumns_ok hinfo h
    obtain ⟨hblock, hparts⟩ := columns_blocked hdvd hlocal
    rw [WeightLayout.blockCount_eq (columns_total hdims hblock)] at hb
    have hcols : 0 < inner / info.dtype.blockSize := Nat.pos_of_mul_pos_left (Nat.zero_lt_of_lt hb)
    refine only_rank rfl (fun rank => ?_) hparts (Nat.mod_lt b hcols)
    rw [columns_blocks hdims hblock hparts, mem_filter_range hb]
    exact decide_eq_true_iff
  · obtain ⟨nExperts, dim1, dim2, raw, hdims, -, hdvd, hblock, -⟩ := sliceExpertRows_ok hinfo h
    rw [WeightLayout.blockCount_eq (expertRows_total hdims hblock)] at hb
    have hdim1 : 0 < dim1 := Nat.pos_of_mul_pos_left (Nat.pos_of_mul_pos_right (Nat.zero_lt_of_lt hb))
    refine only_rank rfl (fun rank => ?_) hdvd (Nat.mod_lt (b / (dim2 / info.dtype.blockSize)) hdim1)
    rw [expertRows_blocks hdims hblock, mem_filter_range hb]
    exact decide_eq_true_iff
  · obtain ⟨nExperts, dim1, dim2, raw, hdims, -, hdvd, hlocal, -⟩ := sliceExpertColumns_ok hinfo h
    obtain ⟨hblock, hparts⟩ := columns_blocked hdvd hlocal
    rw [WeightLayout.blockCount_eq (expertColumns_total hdims hblock)] at hb
    have hcols : 0 < dim2 / info.dtype.blockSize := Nat.pos_of_mul_pos_left (Nat.zero_lt_of_lt hb)
    refine only_rank rfl (fun rank => ?_) hparts (Nat.mod_lt b hcols)
    rw [expertColumns_blocks hdims hblock hparts, mem_filter_range hb]
    exact decide_eq_true_iff
  · rename_i world numVHeads numKHeads headVDim headKDim kqReplicated
    obtain ⟨outer, inner, raw, hdims, -, hv, hk, -, hblock, -⟩ := sliceFused_ok hinfo h
    have hb' : b < (FusedQkvSpec.layout ⟨numVHeads, numKHeads, headVDim, headKDim, kqReplicated⟩ world).blockCount
        info := hb
    exact fused_once hdims hblock hv hk hb' hown
  · cases h
  · cases h

/-- What is stored and can be cut is partitioned. -/
theorem partitioned_of_stored {layout : WeightLayout} (hinfo : file.info name = .ok info)
    (hall : SlicesAll file name layout) (hstored : Stored file info layout) (hcuts : layout.Cuts info) :
    Partitioned file name info layout := by
  obtain ⟨⟨rank₀, hrank₀⟩, hslices⟩ := hall
  constructor
  · intro rank hrank
    obtain ⟨bytes, hbytes⟩ := hslices rank hrank
    rcases hstored with hzero | hfile
    · rw [blocksOf_empty hzero, hbytes, slice_empty hinfo hzero hbytes]
      exact ⟨nofun, rfl⟩
    · refine ⟨fun b hb => ?_, ?_⟩
      · have hlt := (WeightLayout.mem_blocksOf.mp hb).1
        have hmul := Nat.mul_le_mul_right info.dtype.typeSize (show b + 1 ≤ _ from hlt)
        omega
      · rw [hbytes]
        rcases Nat.eq_zero_or_pos (layout.elements info.dims) with hzero | hpos
        · rw [blocksOf_empty hzero, slice_empty hinfo hzero hbytes]
          rfl
        · rw [slice_exact hinfo hpos hcuts hfile hbytes]
  · intro b hb hown
    obtain ⟨bytes, hbytes⟩ := hslices rank₀ hrank₀
    exact block_once hinfo hcuts hbytes hb hown

/-- Every block is a block of some rank. -/
theorem block_given {layout : WeightLayout} (hrank : layout.IsRank rank) (hpart : Partitioned file name info layout)
    (hb : b < layout.blockCount info) : ∃ rank, layout.IsRank rank ∧ b ∈ layout.blocksOf info rank := by
  cases hown : (layout.members info b).any (layout.shares info.dims) with
  | false => exact (hpart.2 b hb hown).exists
  | true =>
    obtain ⟨e, he, hshares⟩ := List.any_eq_true.mp hown
    exact ⟨rank, hrank, WeightLayout.mem_blocksOf.mpr
      ⟨hb, List.any_eq_true.mpr ⟨e, he, WeightLayout.gives_of_shares hshares⟩⟩⟩

theorem stored_of_partitioned {layout : WeightLayout} (hrank : layout.IsRank rank)
    (hpart : Partitioned file name info layout) : Stored file info layout := by
  rcases Nat.eq_zero_or_pos (layout.elements info.dims) with hzero | hpos
  · exact .inl hzero
  · have hcount : 0 < layout.blockCount info := by
      refine Nat.div_pos ?_ info.dtype.blockSize_pos
      omega
    obtain ⟨s, hs, hmem⟩ := block_given hrank hpart (Nat.sub_lt hcount Nat.one_pos)
    have hlast := (hpart.1 s hs).1 _ hmem
    rw [Nat.sub_add_cancel hcount] at hlast
    exact .inr hlast

/-- The slice of a rank has the size of its blocks. -/
theorem slice_length {layout : WeightLayout} (hrank : layout.IsRank rank) (hpart : Partitioned file name info layout)
    (h : sliceForTp file name layout rank = .ok bytes) :
    bytes.length = (layout.blocksOf info rank).length * info.dtype.typeSize := by
  obtain ⟨hin, hslice⟩ := hpart.1 rank hrank
  rw [hslice] at h
  cases h
  refine length_pieces fun b hb => ?_
  have hend := hin b hb
  unfold Parsed.tensorBytes
  rw [List.length_drop]
  omega

theorem le_divCeil_mul (a : Nat) (hb : 0 < b) : a ≤ Quant.divCeil a b * b := by
  have hdiv := Nat.div_add_mod (a + b - 1) b
  have hmod := Nat.mod_lt (a + b - 1) hb
  unfold Quant.divCeil
  rw [Nat.mul_comm]
  omega

/-- A rank that has every element has every block. -/
theorem blocksOf_all {layout : WeightLayout}
    (hgives : ∀ e < layout.elements info.dims, layout.gives info.dims rank.toNat e = true) :
    layout.blocksOf info rank = List.range (layout.blockCount info) := by
  unfold WeightLayout.blocksOf
  refine List.filter_eq_self.mpr fun b hb => ?_
  have hlt := List.mem_range.mp hb
  exact List.any_eq_true.mpr ⟨_, block_start_mem hlt, hgives _ (block_start_lt hlt)⟩

/-- As many bytes as the reader takes are as many as the elements have only for whole blocks. -/
theorem whole_of_length (info : TensorInfo)
    (h : Quant.divCeil info.dims.prod info.dtype.blockSize * info.dtype.typeSize ≤ info.sizeInBytes) :
    info.dims.prod < 2 ^ 64 ∧ info.dims.prod % info.dtype.blockSize = 0 := by
  rw [sizeInBytes_eq] at h
  have hblocks : Quant.divCeil info.dims.prod info.dtype.blockSize ≤
      info.dims.prod % 2 ^ 64 / info.dtype.blockSize :=
    Nat.le_of_mul_le_mul_right (Nat.le_trans h (Nat.mod_le _ _)) info.dtype.typeSize_pos
  have hceil := le_divCeil_mul info.dims.prod info.dtype.blockSize_pos
  have hmul := Nat.mul_le_mul_right info.dtype.blockSize hblocks
  have hfloor := Nat.div_mul_le_self (info.dims.prod % 2 ^ 64) info.dtype.blockSize
  have hwrap := Nat.mod_le info.dims.prod (2 ^ 64)
  have hsame : info.dims.prod % 2 ^ 64 = info.dims.prod := by omega
  rw [hsame] at hmul hfloor
  refine ⟨hsame ▸ Nat.mod_lt _ (by decide), ?_⟩
  exact Nat.mod_eq_zero_of_dvd ⟨info.dims.prod / info.dtype.blockSize, by rw [Nat.mul_comm]; omega⟩

theorem replicated_cuts (hinfo : file.info name = .ok info) (hpart : Partitioned file name info .replicated)
    (h : sliceForTp file name .replicated rank = .ok bytes) : WeightLayout.replicated.Cuts info := by
  have hrank : WeightLayout.replicated.IsRank rank := fun _ hw => by cases hw
  have hlen := slice_length hrank hpart h
  have hraw : tensorRaw file name (rawContext name) = .ok bytes := h
  have hle := (tensorRaw_ok hinfo hraw).1
  rw [hlen, blocksOf_all fun _ _ => rfl, List.length_range] at hle
  exact whole_of_length info hle

theorem blockSize_coprime (t : GgmlDType) : t.blockSize = 1 ∨ Nat.Coprime (2 ^ 64) (t.blockSize - 1) := by
  cases t <;> decide

section Vector
variable {world : UInt32}

theorem vector_gives (hdims : info.dims = [outer]) : (WeightLayout.colParallel world 0).gives info.dims r e = true ↔
    Share outer world.toNat r e := by
  rw [hdims]
  exact decide_eq_true_iff

theorem vector_elements (hdims : info.dims = [outer]) : (WeightLayout.colParallel world 0).elements info.dims = outer := by
  rw [hdims]
  exact List.prod_singleton

/-- The block of an element is a block of the rank that has the element. -/
theorem block_of_share (hdims : info.dims = [outer]) (he : e < outer)
    (hshare : Share outer world.toNat rank.toNat e) :
    e / info.dtype.blockSize ∈ (WeightLayout.colParallel world 0).blocksOf info rank := by
  have hsize := info.dtype.blockSize_pos
  have hlow := Nat.div_mul_le_self e info.dtype.blockSize
  have hhigh := Nat.lt_mul_of_div_lt (Nat.lt_succ_self (e / info.dtype.blockSize)) hsize
  rw [Nat.succ_mul] at hhigh
  refine WeightLayout.mem_blocksOf.mpr ⟨?_, List.any_eq_true.mpr ⟨e, ?_, (vector_gives hdims).mpr hshare⟩⟩
  · unfold WeightLayout.blockCount Quant.divCeil
    rw [vector_elements hdims]
    refine (Nat.le_div_iff_mul_le hsize).mpr ?_
    rw [Nat.succ_mul]
    omega
  · unfold WeightLayout.members
    rw [mem_span, vector_elements hdims, Nat.succ_mul]
    omega

/-- No two ranks meet in a block of a vector. -/
theorem vector_whole (hinfo : file.info name = .ok info) (hdims : info.dims = [outer]) (hpos : 0 < outer)
    (hall : SlicesAll file name (.colParallel world 0))
    (hpart : Partitioned file name info (.colParallel world 0)) : outer / world.toNat % info.dtype.blockSize = 0 := by
  obtain ⟨⟨rank, hrank⟩, hslices⟩ := hall
  obtain ⟨bytes, hbytes⟩ := hslices rank hrank
  obtain ⟨hlt, hdvd, context, raw, hraw, hin, hslice⟩ := sliceVector_ok hinfo hdims hbytes
  have hr : rank.toNat < world.toNat := hlt
  have houter : world.toNat * (outer / world.toNat) = outer := Nat.mul_div_cancel' (Nat.dvd_of_mod_eq_zero hdvd)
  have hsize := info.dtype.blockSize_pos
  rcases Nat.lt_or_ge 1 world.toNat with hmany | hsingle
  · by_contra hcut
    have hpart' : 0 < outer / world.toNat := Nat.pos_of_ne_zero fun hzero => by
      rw [hzero, Nat.mul_zero] at houter
      omega
    have hnext : 2 * (outer / world.toNat) ≤ outer := by
      have hmul := Nat.mul_le_mul_right (outer / world.toNat) hmany
      rwa [houter] at hmul
    generalize hm : outer / world.toNat = m at *
    have hmeet : m / info.dtype.blockSize = (m - 1) / info.dtype.blockSize := by
      have hdiv := Nat.div_add_mod m info.dtype.blockSize
      have hmod := Nat.mod_lt m hsize
      refine (Nat.div_eq_of_lt_le ?_ ?_).symm
      · rw [Nat.mul_comm]
        omega
      · rw [Nat.succ_mul, Nat.mul_comm]
        omega
    have hfirst : (m - 1) / info.dtype.blockSize ∈ (WeightLayout.colParallel world 0).blocksOf info 0 :=
      block_of_share hdims (by omega) (by
        unfold Share
        rw [hm]
        exact ⟨by simp, by simp; omega⟩)
    have hsecond : m / info.dtype.blockSize ∈ (WeightLayout.colParallel world 0).blocksOf info 1 :=
      block_of_share hdims (by omega) (by
        unfold Share
        rw [hm]
        exact ⟨by simp, by simp; omega⟩)
    rw [← hmeet] at hfirst
    have hunshared : ((WeightLayout.colParallel world 0).members info (m / info.dtype.blockSize)).any
        ((WeightLayout.colParallel world 0).shares info.dims) = false :=
      List.any_eq_false.mpr fun e _ => by
        rw [hdims]
        exact Bool.false_ne_true
    have hranks : ∀ s : UInt32, s.toNat < world.toNat → (WeightLayout.colParallel world 0).IsRank s := fun s hs =>
      (WeightLayout.isRank_iff rfl).mpr hs
    have hsame := (hpart.2 _ (WeightLayout.mem_blocksOf.mp hfirst).1 hunshared).unique
      ⟨hranks 0 (Nat.zero_lt_of_lt hmany), hfirst⟩ ⟨hranks 1 hmany, hsecond⟩
    exact absurd hsame (by decide)
  · have hone : world.toNat = 1 := by omega
    have hzero : rank.toNat = 0 := by omega
    have hlen := slice_length hrank hpart hbytes
    have hsmall : bytes.length ≤ info.sizeInBytes := by
      rw [← hslice, List.length_take, List.length_drop]
      have hle := (tensorRaw_ok hinfo hraw).1
      omega
    rw [hlen, blocksOf_all, List.length_range] at hsmall
    · have hwhole := whole_of_length info (by
        unfold WeightLayout.blockCount at hsmall
        exact hsmall)
      rw [hone, Nat.div_one]
      rw [hdims, List.prod_singleton] at hwhole
      exact hwhole.2
    · intro e he
      rw [vector_elements hdims] at he
      refine (vector_gives hdims).mpr ?_
      rw [hzero, hone]
      unfold Share
      rw [Nat.div_one]
      omega

/-- A vector that is partitioned has blocks of one element. -/
theorem vector_cuts (hinfo : file.info name = .ok info) (hdims : info.dims = [outer])
    (hall : SlicesAll file name (.colParallel world 0))
    (hpart : Partitioned file name info (.colParallel world 0)) : outer = 0 ∨ info.dtype.blockSize = 1 := by
  rcases Nat.eq_zero_or_pos outer with hnone | hpos
  · exact .inl hnone
  refine .inr ((blockSize_coprime info.dtype).resolve_right fun hcoprime => ?_)
  have hwhole := vector_whole hinfo hdims hpos hall hpart
  obtain ⟨⟨rank, hrank⟩, hslices⟩ := hall
  have hworld : 0 < world.toNat := Nat.zero_lt_of_lt (show rank.toNat < world.toNat from hrank world rfl)
  have hrank₀ : (WeightLayout.colParallel world 0).IsRank 0 := (WeightLayout.isRank_iff rfl).mpr hworld
  obtain ⟨bytes, hbytes⟩ := hslices 0 hrank₀
  have hlen := slice_length hrank₀ hpart hbytes
  obtain ⟨-, hdvd, context, raw, hraw, hin, hslice⟩ := sliceVector_ok hinfo hdims hbytes
  have houter : world.toNat * (outer / world.toNat) = outer := Nat.mul_div_cancel' (Nat.dvd_of_mod_eq_zero hdvd)
  have hsize := info.dtype.blockSize_pos
  obtain ⟨c, hc⟩ := Nat.dvd_of_mod_eq_zero hwhole
  have htotal : (WeightLayout.colParallel world 0).elements info.dims = world.toNat * c * info.dtype.blockSize := by
    rw [vector_elements hdims, ← houter, hc, Nat.mul_comm _ c, Nat.mul_assoc]
  have hblocks : (WeightLayout.colParallel world 0).blocksOf info 0 = span 0 c := by
    rw [WeightLayout.blocksOf_eq htotal fun b _ j hj => ?_, ← span_zero]
    rotate_left
    · exact fun b => decide (0 ≤ b ∧ b < c)
    · rw [hdims]
      refine decide_eq_decide.mpr ?_
      unfold Share
      rw [hc, Nat.mul_comm _ c]
      change 0 * _ ≤ _ ∧ _ < (0 + 1) * _ ↔ _
      rw [Nat.zero_mul, Nat.zero_add, Nat.one_mul]
      refine and_congr (iff_of_true (Nat.zero_le _) (Nat.zero_le _)) ⟨fun h => ?_, fun h => ?_⟩
      · exact Nat.lt_of_mul_lt_mul_right (Nat.lt_of_le_of_lt (Nat.le_add_right _ j) h)
      · have hmul := Nat.mul_le_mul_right info.dtype.blockSize (Nat.succ_le_of_lt h)
        rw [Nat.succ_mul] at hmul
        omega
    · exact filter_span (Nat.zero_le _) (Nat.zero_le _) (Nat.le_mul_of_pos_left c hworld)
  rw [hblocks, length_span, Nat.sub_zero, ← hslice, List.length_take, List.length_drop] at hlen
  have hzero : (0 : UInt32).toNat = 0 := rfl
  rw [hzero, zero_umul, zero_umul, hc] at hlen hin
  have hfinish : uadd 0 (umul (info.dtype.blockSize * c) info.dtype.typeSize) =
      c * info.dtype.typeSize * info.dtype.blockSize % 2 ^ 64 := by
    unfold uadd umul
    rw [Nat.zero_add, Nat.mod_mod, Nat.mul_comm info.dtype.blockSize, Nat.mul_right_comm]
  rw [hfinish] at hlen hin
  have hwrap : c * info.dtype.typeSize * info.dtype.blockSize % 2 ^ 64 = c * info.dtype.typeSize := by omega
  generalize hx : c * info.dtype.typeSize = x at *
  have hdvdx : 2 ^ 64 ∣ x * (info.dtype.blockSize - 1) := by
    refine ⟨x * info.dtype.blockSize / 2 ^ 64, ?_⟩
    have hdiv := Nat.div_add_mod (x * info.dtype.blockSize) (2 ^ 64)
    rw [Nat.mul_sub, Nat.mul_one]
    omega
  have hnil := Nat.eq_zero_of_dvd_of_lt (hcoprime.dvd_of_dvd_mul_right hdvdx) (hwrap ▸ Nat.mod_lt _ (by decide))
  have hnone : c = 0 := (Nat.mul_eq_zero.mp (hx.trans hnil)).resolve_right info.dtype.typeSize_pos.ne'
  rw [hc, hnone, Nat.mul_zero, Nat.mul_zero] at houter
  omega

end Vector
end Slices

/-- Slices for every rank are the blocks that the layout assigns to it, and each block that
not every rank has is in one slice, exactly for the tensors whose blocks are in the file and
that the layout can cut. -/
theorem partitioned_iff (file : Parsed) (name : String) (info : TensorInfo) (layout : WeightLayout)
    (hinfo : file.info name = .ok info) (hall : SlicesAll file name layout) :
    Partitioned file name info layout ↔ Stored file info layout ∧ layout.Cuts info := by
  refine ⟨fun hpart => ?_, fun ⟨hstored, hcuts⟩ => partitioned_of_stored hinfo hall hstored hcuts⟩
  obtain ⟨rank, hrank⟩ := hall.1
  obtain ⟨bytes, hbytes⟩ := hall.2 rank hrank
  refine ⟨stored_of_partitioned hrank hpart, ?_⟩
  unfold WeightLayout.Cuts
  split
  · exact replicated_cuts hinfo hpart hbytes
  · rename_i world outer hdims
    exact vector_cuts hinfo hdims hall hpart
  · trivial

theorem plain_w : PlainEnd "w" := by
  decide

theorem zero_offset : 0 < 256 ^ 8 := by
  decide

theorem no_entries (e : String × Datum) (h : e ∈ []) : PlainEnd e.1 ∧ e.2.WellTyped := by
  cases h

theorem no_alignment (d : Datum) (h : findEntry [] "general.alignment" = some d) :
    ∃ k, d.natural = some (2 ^ k) := by
  cases h

theorem lone_name (t : TensorSpec) : (([t] : List TensorSpec).map (·.name)).Nodup :=
  List.pairwise_singleton _ _

theorem first_aligned (t : TensorSpec) (h : t.relOffset = 0) :
    ∀ s ∈ [t], declaredAlignment [] ∣ s.relOffset := by
  intro s hs
  rw [List.mem_singleton.mp hs, h]
  exact Nat.dvd_zero _

/-- An index of one `f32` tensor. -/
def oneTensor (dims : List Nat) (rank : dims.length < 256 ^ 4) (sizes : ∀ n ∈ dims, n < 256 ^ 8)
    (count : dims.prod < 2 ^ 64) : GgufSpec where
  version := .v3
  metadata := []
  tensors := [⟨"w", .f32, dims, 0, plain_w, rank, sizes, count, zero_offset⟩]
  distinctKeys := List.Pairwise.nil
  wellTyped := no_entries
  distinctNames := lone_name _
  alignmentPower := no_alignment
  aligned := first_aligned _ rfl

def pairSpec : GgufSpec := oneTensor [2, 1] (by decide) (by decide) (by decide)

def pairFile : Parsed := pairSpec.parsed ⟨pairSpec.fileBytes [0, 0, 128, 63, 0, 0, 0, 64], by decide +kernel⟩

theorem two_ranks {layout : WeightLayout} (hworld : layout.world = some 2) (hrank : layout.IsRank rank) :
    rank = 0 ∨ rank = 1 := by
  have hlt : rank.toNat < 2 := hrank 2 hworld
  rcases (by omega : rank.toNat = 0 ∨ rank.toNat = 1) with h | h
  · exact .inl (UInt32.toNat_inj.mp h)
  · exact .inr (UInt32.toNat_inj.mp h)

theorem pair_sliced : SlicesAll pairFile "w" (.colParallel 2 0) := by
  refine ⟨⟨0, fun w hw => ?_⟩, fun rank hrank => ?_⟩
  · cases hw
    decide
  · rcases two_ranks rfl hrank with rfl | rfl
    · exact ⟨[0, 0, 128, 63], by decide +kernel⟩
    · exact ⟨[0, 0, 0, 64], by decide +kernel⟩

theorem partitioned_pair : Partitioned pairFile "w" ⟨"w", .f32, [2, 1], 0, 0⟩ (.colParallel 2 0) :=
  (partitioned_iff pairFile "w" ⟨"w", .f32, [2, 1], 0, 0⟩ (.colParallel 2 0) rfl pair_sliced).mpr
    ⟨.inr (by decide +kernel), trivial⟩

def hugeSpec : GgufSpec := oneTensor [2 ^ 62] (by decide) (by decide) (by decide)

/-- The index of a vector of `2^62` elements, with no data behind it. -/
def hugeMmap : Mmap := ⟨hugeSpec.fileBytes [], by decide +kernel⟩

/-- The size of the vector wraps to zero: every rank is given an empty slice. -/
theorem wrapped_size_sliced : ∃ file, parseGgufHeader (hosted 4) hugeMmap = .ok file ∧
    SlicesAll file "w" (.colParallel 1 0) ∧
      ¬ Partitioned file "w" ⟨"w", .f32, [2 ^ 62], 0, 0⟩ (.colParallel 1 0) := by
  have hrank : (WeightLayout.colParallel 1 0).IsRank 0 := fun w hw => by cases hw; decide
  refine ⟨hugeSpec.parsed hugeMmap, hugeSpec.parse_file (hosted_roomy 4) (by decide) rfl,
    ⟨⟨0, hrank⟩, fun rank hlt => ?_⟩, fun hpart => ?_⟩
  · have hzero : rank = 0 := UInt32.toNat_inj.mp (Nat.lt_one_iff.mp (hlt 1 rfl))
    subst hzero
    exact ⟨[], by decide +kernel⟩
  · have hfits := hugeMmap.fits
    rcases stored_of_partitioned hrank hpart with hnone | hfile
    · exact absurd hnone (by decide)
    · exact absurd hfile (by decide +kernel)

end Flambeau.Runtime
