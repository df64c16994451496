import Flambeau.Systems.Windows
import Flambeau.Runtime.TpSizes
import Flambeau.Forward.Loader.WeightShards

namespace Flambeau.Forward.Loader
open Systems Quant Flambeau.Runtime

namespace ShardLoad

theorem all_rows (nRows : Nat) : 0 + nRows ≤ nRows := Nat.le_of_eq (Nat.zero_add nRows)

theorem gate_rows (shape : MoeStackedShape) : 0 + shape.dimA ≤ 2 * shape.dimA := by
  omega

theorem up_rows (shape : MoeStackedShape) : shape.dimA + shape.dimA ≤ 2 * shape.dimA := by
  omega

theorem stacked_rows (shape : MoeStackedShape) : 0 + shape.dimA ≤ shape.dimA := all_rows _

/-- The windows of a rank, with columns of `unit` elements: one for each buffer. -/
def windows (unit : Nat) (r : Fin w) : ShardLoad → List Window
  | colSharded nRows nCols => [.rowShare 1 nRows (nCols / unit) 0 nRows (all_rows nRows) r]
  | rowSharded nRows nCols => [.colShare 1 nRows (nCols / unit) r]
  | stackedColSharded shape => [.rowShare shape.nExperts shape.dimA (shape.dimB / unit) 0 shape.dimA (stacked_rows shape) r]
  | stackedRowSharded shape => [.colShare shape.nExperts shape.dimA (shape.dimB / unit) r]
  | fusedGateUp shape =>
    [.rowShare shape.nExperts (2 * shape.dimA) (shape.dimB / unit) 0 shape.dimA (gate_rows shape) r,
      .rowShare shape.nExperts (2 * shape.dimA) (shape.dimB / unit) shape.dimA shape.dimA (up_rows shape) r]

/-- The tensor in columns of `unit` elements. -/
def count (unit : Nat) : ShardLoad → Nat
  | colSharded nRows nCols => 1 * nRows * (nCols / unit)
  | rowSharded nRows nCols => 1 * nRows * (nCols / unit)
  | stackedColSharded shape => shape.nExperts * shape.dimA * (shape.dimB / unit)
  | stackedRowSharded shape => shape.nExperts * shape.dimA * (shape.dimB / unit)
  | fusedGateUp shape => shape.nExperts * (2 * shape.dimA) * (shape.dimB / unit)

/-- The buffers of all ranks have each block once. -/
def EachOnce (load : ShardLoad) (w unit : Nat) : Prop :=
  ((List.finRange w).flatMap fun r => (load.windows unit r).flatMap Window.cells).Perm (List.range (load.count unit))

/-- The blocks of a rank are its elements. -/
def SameElements (load : ShardLoad) (unit : Nat) (r : Fin w) : Prop :=
  List.Forall₂ (fun x y => (x.cells.flatMap fun b => span (b * unit) ((b + 1) * unit)) = y.cells)
    (load.windows unit r) (load.windows 1 r)

/-- The elements of a rank in a projection with a gate are those of whole heads, the query
rows and then the gate rows of each. -/
def WholeHeads (load : ShardLoad) (r : Fin w) : Prop :=
  ∀ heads dim n, load = .colSharded (heads * (2 * dim)) n → heads % w = 0 → ∀ x ∈ load.windows 1 r,
    x.cells = (span (r * (heads / w)) (r * (heads / w) + heads / w)).flatMap fun h =>
      span (h * (2 * dim) * n) ((h * (2 * dim) + dim) * n) ++
        span ((h * (2 * dim) + dim) * n) ((h * (2 * dim) + 2 * dim) * n)

end ShardLoad

/-- A buffer has the cells of a window, all of them whole, and a weight for each matrix, from
where its cells start. -/
def Holds (xs : List α) (size unit : Nat) (code : List α → List UInt8) (qd : QDtype) (x : Window) (u : Upload) : Prop :=
  (pieces size xs x.cells).length = x.cells.length * size ∧ u.bytes = code (pieces size xs x.cells) ∧
    u.weights = (List.range x.stack).map fun e =>
      ⟨e * (x.height * x.width * size), qd, umul x.height (x.width * unit)⟩

/-- The buffers of a rank have its blocks, or the elements of these requantised. -/
def ShardLoad.Sharded (decode : BlockDecoder F) (ops : F32Ops F) (file : Parsed) (name : String) (info : TensorInfo)
    (load : ShardLoad) (r : Fin w) (uploads : List Upload) : Prop :=
  load.WholeHeads r ∧ load.EachOnce w 1 ∧
    if dtypeQmatmulNative info.dtype then
      load.EachOnce w info.dtype.blockSize ∧ load.SameElements info.dtype.blockSize r ∧
        ∃ raw qd, rawTensor file name = .ok raw ∧ ggmlToQdtype info.dtype = .ok qd ∧
          List.Forall₂ (Holds raw info.dtype.typeSize info.dtype.blockSize id qd)
            (load.windows info.dtype.blockSize r) uploads
    else ∃ values, dequantizeTensor decode file name = .ok values ∧
      List.Forall₂ (Holds values 1 1 (q80Bytes ops) .q8_0) (load.windows 1 r) uploads

/-- The blocks of a rank lie in the tensor; the elements where it is requantised. -/
def ShardLoad.InTensor (info : TensorInfo) (load : ShardLoad) (r : Fin w) : Prop :=
  if dtypeQmatmulNative info.dtype then
    ∀ x ∈ load.windows info.dtype.blockSize r, ∀ b ∈ x.cells, (b + 1) * info.dtype.typeSize ≤ info.sizeInBytes
  else ∀ x ∈ load.windows 1 r, ∀ e ∈ x.cells, (e + 1) * 1 ≤ load.count 1 % 2 ^ 64

section Parts
variable {xs : List α} {size s f lo hi : Nat}

theorem sliceOf_ok : sliceOf xs s f = .ok out ↔ (s ≤ f ∧ f ≤ xs.length) ∧ (xs.drop s).take (f - s) = out := by
  unfold sliceOf
  split
  · exact ⟨nofun, fun h => by omega⟩
  · rename_i hin
    exact ⟨fun h => by cases h; exact ⟨by omega, rfl⟩, fun h => by rw [h.2]⟩

/-- A range from the start of one cell to that of another, as words, has the cells between them
if there are such. -/
theorem slice_cells (h : sliceOf xs s f = .ok out) (hs : s < 2 ^ 64) (hf : f < 2 ^ 64) (hxs : xs.length < 2 ^ 64)
    (hstart : (s : Word) = (lo * size : Nat)) (hfinish : (f : Word) = (hi * size : Nat)) (hle : lo ≤ hi)
    (hin : ∀ c ∈ span lo hi, (c + 1) * size ≤ xs.length) : out = pieces size xs (span lo hi) := by
  obtain ⟨-, rfl⟩ := sliceOf_ok.mp h
  have hs' := eq_mod_of_cast hstart hs
  have hf' := eq_mod_of_cast hfinish hf
  rw [pieces_span]
  rcases Nat.eq_or_lt_of_le hle with rfl | hlt
  · rw [hf', ← hs', Nat.sub_self, Nat.sub_self, Nat.zero_mul, List.take_zero, List.take_zero]
  · have hlast := hin (hi - 1) (mem_span.mpr (by omega))
    rw [Nat.sub_add_cancel (by omega)] at hlast
    have hfirst := Nat.mul_le_mul_right size hle
    rw [hs', hf', Nat.mod_eq_of_lt (by omega), Nat.mod_eq_of_lt (by omega), Nat.sub_mul]

/-- What is written is the cells of the window, where they all are in the tensor. -/
def Fills (xs : List α) (size : Nat) (x : Window) (out : List α) : Prop :=
  (∀ c ∈ x.cells, (c + 1) * size ≤ xs.length) → out = pieces size xs x.cells

/-- A part that is read from the start of one cell to that of another. -/
def Reads (xs : List α) (size lo hi : Nat) (part : LoadResult (List α)) : Prop :=
  ∃ s f, part = sliceOf xs s f ∧ s < 2 ^ 64 ∧ f < 2 ^ 64 ∧ (s : Word) = (lo * size : Nat) ∧ (f : Word) = (hi * size : Nat)

theorem reads_pieces {part : LoadResult (List α)} (hread : Reads xs size lo hi part) (h : part = .ok out)
    (hxs : xs.length < 2 ^ 64) (hle : lo ≤ hi) (hin : ∀ c ∈ span lo hi, (c + 1) * size ≤ xs.length) :
    out = pieces size xs (span lo hi) := by
  obtain ⟨s, f, rfl, hs, hf, hstart, hfinish⟩ := hread
  exact slice_cells h hs hf hxs hstart hfinish hle hin

variable {x : Window}

/-- A loop that takes whole rows of each matrix at once. -/
theorem rows_fill (hxs : xs.length < 2 ^ 64) (hcol : x.col = 0) (hwidth : x.width = x.cols)
    {part : Nat → LoadResult (List α)}
    (hpart : ∀ e < x.stack,
      Reads xs size ((e * x.rows + x.row) * x.cols) ((e * x.rows + x.row + x.height) * x.cols) (part e))
    (h : Outcome.extendAll part (List.range x.stack) = .ok out) : Fills xs size x out := by
  intro hin
  have hcells := Window.cells_rows hcol hwidth
  rw [hcells, pieces_flatMap]
  refine (Outcome.extendAll_ok h).2 _ fun e he ys hys => ?_
  refine reads_pieces (hpart e (List.mem_range.mp he)) hys hxs (Nat.mul_le_mul_right _ (Nat.le_add_right _ _)) fun c hc => hin c ?_
  rw [hcells]
  exact List.mem_flatMap.mpr ⟨e, he, hc⟩

/-- A loop that takes the columns of each row. -/
theorem cols_fill (hxs : xs.length < 2 ^ 64) (hrow : x.row = 0) (hheight : x.height = x.rows)
    {part : Nat → Nat → LoadResult (List α)}
    (hpart : ∀ e < x.stack, ∀ i < x.rows,
      Reads xs size ((e * x.rows + i) * x.cols + x.col) ((e * x.rows + i) * x.cols + x.col + x.width) (part e i))
    (h : Outcome.extendAll (fun e => Outcome.extendAll (part e) (List.range x.rows)) (List.range x.stack) = .ok out) :
    Fills xs size x out := by
  intro hin
  have hcells := Window.cells_cols hrow hheight
  rw [hcells, pieces_flatMap]
  refine (Outcome.extendAll_ok h).2 _ fun e he ys hys => ?_
  rw [pieces_flatMap]
  refine (Outcome.extendAll_ok hys).2 _ fun i hi zs hzs => ?_
  refine reads_pieces (hpart e (List.mem_range.mp he) i (List.mem_range.mp hi)) hzs hxs (Nat.le_add_right _ _) fun c hc => hin c ?_
  rw [hcells]
  exact List.mem_flatMap.mpr ⟨e, he, List.mem_flatMap.mpr ⟨i, hi, hc⟩⟩

theorem extendAll_one {part : LoadResult (List α)} (h : part = .ok out) :
    Outcome.extendAll (fun _ => part) (List.range 1) = .ok out := by
  rw [h]
  change Outcome.ok (out ++ []) = _
  rw [List.append_nil]

theorem one_weight (qd : QDtype) (perExpert n : Nat) :
    [QuantWeight.mk 0 qd n] = (List.range 1).map fun e => ⟨umul e perExpert, qd, n⟩ := by
  change _ = [QuantWeight.mk (umul 0 perExpert) qd n]
  rw [zero_umul]

/-- What a loader writes for a window. -/
def Writes (xs : List α) (size unit : Nat) (code : List α → List UInt8) (qd : QDtype) (x : Window) (u : Upload) : Prop :=
  ∃ out perExpert, Fills xs size x out ∧ u.bytes = code out ∧
    ((perExpert : Nat) : Word) = (x.height * x.width * size : Nat) ∧
    u.weights = (List.range x.stack).map fun e => ⟨umul e perExpert, qd, umul x.height (x.width * unit)⟩

/-- A buffer that is written has the cells of the window exactly where they are in the tensor. -/
theorem Writes.holds_iff {code : List α → List UInt8} {u : Upload} (h : Writes xs size unit code qd x u)
    (hsize : 0 < size) (hxs : xs.length < 2 ^ 64) :
    Holds xs size unit code qd x u ↔ ∀ c ∈ x.cells, (c + 1) * size ≤ xs.length := by
  obtain ⟨out, perExpert, hfill, hbytes, hoffset, hweights⟩ := h
  refine ⟨fun h => pieces_full hsize h.1, fun hin => ⟨length_pieces hin, ?_, ?_⟩⟩
  · rw [hbytes, hfill hin]
  · rw [hweights]
    refine List.map_congr_left fun e he => ?_
    have hroom := Window.cells_room hsize hin
    have hbefore := Nat.mul_le_mul_right (x.height * x.width * size) (Nat.le_of_lt (List.mem_range.mp he))
    have hword : umul e perExpert = e * (x.height * x.width * size) % 2 ^ 64 := by
      refine eq_mod_of_cast ?_ (umul_lt _ _)
      rw [cast_umul, hoffset, Nat.cast_mul e]
    rw [hword, Nat.mod_eq_of_lt (by omega)]

end Parts

section Steps
variable {file : Parsed} {info : TensorInfo} {u : Upload}

theorem ensure_ok {p : Prop} [Decidable p] {text : String} : ensure p text = .ok a ↔ p := by
  unfold ensure
  split
  · rename_i hp
    exact ⟨fun _ => hp, fun _ => rfl⟩
  · rename_i hp
    exact ⟨nofun, fun h => absurd h hp⟩

theorem requireMultiple_ok {text : String} : requireMultiple n d text = .ok a ↔ d ≠ 0 ∧ n % d = 0 := by
  unfold requireMultiple
  split
  · rename_i hzero
    exact ⟨nofun, fun h => absurd hzero h.1⟩
  · rename_i hpos
    rw [ensure_ok]
    exact (and_iff_right hpos).symm

theorem fileInfo_ok : fileInfo file name = .ok info ↔ file.info name = .ok info := by
  unfold fileInfo
  cases file.info name with
  | ok info' => exact ⟨fun h => by cases h; rfl, fun h => by cases h; rfl⟩
  | error e => exact ⟨nofun, nofun⟩

theorem wrapQuant_ok (h : wrapQuant bytes n dtype = .ok u) :
    ∃ qd, ggmlToQdtype dtype = .ok qd ∧ u = ⟨bytes, [⟨0, qd, n⟩]⟩ := by
  obtain ⟨qd, hqd, hu⟩ := Outcome.bind_eq_ok.mp h
  cases hu
  exact ⟨qd, hqd, rfl⟩

theorem wrapExperts_ok (h : wrapExperts bytes k perExpert n dtype = .ok u) :
    ∃ qd, ggmlToQdtype dtype = .ok qd ∧ u = ⟨bytes, (List.range k).map fun e => ⟨umul e perExpert, qd, n⟩⟩ := by
  obtain ⟨qd, hqd, hu⟩ := Outcome.bind_eq_ok.mp h
  cases hu
  exact ⟨qd, hqd, rfl⟩

theorem rawTensor_length (hinfo : file.info name = .ok info) (h : rawTensor file name = .ok raw) :
    raw.length = info.sizeInBytes := by
  have hread := Outcome.relabel_eq_ok.mp h
  unfold Parsed.tensorRaw at hread
  rw [hinfo] at hread
  exact (rawFor_length hread (sizeInBytes_lt info)).1

theorem valuesOf_ok {decode : BlockDecoder F} (h : valuesOf decode file name n = .ok values) :
    dequantizeTensor decode file name = .ok values ∧ values.length = n := by
  obtain ⟨values', hdeq, hrest⟩ := Outcome.bind_eq_ok.mp h
  obtain ⟨_, hlen, hvalues⟩ := Outcome.bind_eq_ok.mp hrest
  cases hvalues
  exact ⟨Outcome.relabel_eq_ok.mp hdeq, ensure_ok.mp hlen⟩

theorem f32ToQ80Bytes_ok {ops : F32Ops F} (h : f32ToQ80Bytes ops name buf = .ok bytes) : bytes = q80Bytes ops buf := by
  obtain ⟨_, -, hbytes⟩ := Outcome.bind_eq_ok.mp h
  cases hbytes
  rfl

theorem extendBoth_ok {gate up : Nat → LoadResult (List UInt8)} (h : extendBoth gate up es = .ok (g, v)) :
    Outcome.extendAll gate es = .ok g ∧ Outcome.extendAll up es = .ok v := by
  induction es generalizing g v with
  | nil =>
    cases h
    exact ⟨rfl, rfl⟩
  | cons e es ih =>
    obtain ⟨gateRows, hgate, hrest⟩ := Outcome.bind_eq_ok.mp h
    obtain ⟨upRows, hup, hrest⟩ := Outcome.bind_eq_ok.mp hrest
    obtain ⟨⟨gateBuf, upBuf⟩, hboth, hout⟩ := Outcome.bind_eq_ok.mp hrest
    obtain ⟨hgates, hups⟩ := ih hboth
    cases hout
    exact ⟨Outcome.bind_eq_ok.mpr ⟨gateRows, hgate, Outcome.bind_eq_ok.mpr ⟨gateBuf, hgates, rfl⟩⟩,
      Outcome.bind_eq_ok.mpr ⟨upRows, hup, Outcome.bind_eq_ok.mpr ⟨upBuf, hups, rfl⟩⟩⟩

end Steps

section Loaders
variable {decode : BlockDecoder F} {ops : F32Ops F} {file : Parsed} {info : TensorInfo} {u : Upload} {r : Fin w}

theorem colSharded_native (hinfo : file.info name = .ok info) (hnative : dtypeQmatmulNative info.dtype = true)
    (h : uploadColShardedQuant decode ops file name ⟨nRows, nCols, r, w⟩ = .ok u) :
    nRows % w = 0 ∧ nCols % info.dtype.blockSize = 0 ∧ ∃ raw qd, rawTensor file name = .ok raw ∧
      ggmlToQdtype info.dtype = .ok qd ∧ Writes raw info.dtype.typeSize info.dtype.blockSize id qd
        (.rowShare 1 nRows (nCols / info.dtype.blockSize) 0 nRows (ShardLoad.all_rows nRows) r) u := by
  unfold uploadColShardedQuant at h
  dsimp only at h
  obtain ⟨_, hranks, h⟩ := Outcome.bind_eq_ok.mp h
  obtain ⟨info', hinfo', h⟩ := Outcome.bind_eq_ok.mp h
  rw [fileInfo_ok, hinfo] at hinfo'
  cases hinfo'
  rw [if_pos hnative] at h
  obtain ⟨_, hblock, h⟩ := Outcome.bind_eq_ok.mp h
  obtain ⟨raw, hraw, h⟩ := Outcome.bind_eq_ok.mp h
  obtain ⟨_, -, h⟩ := Outcome.bind_eq_ok.mp h
  obtain ⟨bytes, hbytes, h⟩ := Outcome.bind_eq_ok.mp h
  obtain ⟨qd, hqd, rfl⟩ := wrapQuant_ok h
  have hwhole := blocks_mul (requireMultiple_ok.mp hblock).2
  refine ⟨(requireMultiple_ok.mp hranks).2, (requireMultiple_ok.mp hblock).2, raw, qd, hraw, hqd, bytes,
    umul (nRows / w) (umul (nCols / info.dtype.blockSize) info.dtype.typeSize), ?_, rfl, ?_, ?_⟩
  · refine rows_fill (rawTensor_length hinfo hraw ▸ sizeInBytes_lt info) rfl rfl (fun e he => ?_) (extendAll_one hbytes)
    obtain rfl := Nat.lt_one_iff.mp he
    refine ⟨_, _, rfl, umul_lt _ _, uadd_lt _ _, ?_, ?_⟩
    · push_cast [cast_umul, Window.rowShare]
      ring
    · push_cast [cast_umul, cast_uadd, Window.rowShare]
      ring
  · push_cast [cast_umul, Window.rowShare]
    ring
  · change _ = (List.range 1).map fun e => _
    rw [one_weight]
    change _ = (List.range 1).map fun e => QuantWeight.mk _ qd (umul (nRows / w) (nCols / info.dtype.blockSize * _))
    rw [hwhole]

theorem colSharded_requantised (hinfo : file.info name = .ok info) (hnative : dtypeQmatmulNative info.dtype = false)
    (h : uploadColShardedQuant decode ops file name ⟨nRows, nCols, r, w⟩ = .ok u) :
    nRows % w = 0 ∧ ∃ values, dequantizeTensor decode file name = .ok values ∧ values.length = umul nRows nCols ∧
      Writes values 1 1 (q80Bytes ops) .q8_0 (.rowShare 1 nRows (nCols / 1) 0 nRows (ShardLoad.all_rows nRows) r) u := by
  unfold uploadColShardedQuant at h
  dsimp only at h
  obtain ⟨_, hranks, h⟩ := Outcome.bind_eq_ok.mp h
  obtain ⟨info', hinfo', h⟩ := Outcome.bind_eq_ok.mp h
  rw [fileInfo_ok, hinfo] at hinfo'
  cases hinfo'
  rw [hnative, if_neg (by decide)] at h
  obtain ⟨values, hvalues, h⟩ := Outcome.bind_eq_ok.mp h
  obtain ⟨shard, hshard, h⟩ := Outcome.bind_eq_ok.mp h
  obtain ⟨bytes, hbytes, h⟩ := Outcome.bind_eq_ok.mp h
  obtain ⟨qd, hqd, rfl⟩ := wrapQuant_ok h
  cases hqd
  obtain ⟨hdeq, hlen⟩ := valuesOf_ok hvalues
  refine ⟨(requireMultiple_ok.mp hranks).2, values, hdeq, hlen, shard, umul (nRows / w) nCols, ?_,
    f32ToQ80Bytes_ok hbytes, ?_, ?_⟩
  · refine rows_fill (hlen ▸ umul_lt _ _) rfl rfl (fun e he => ?_) (extendAll_one hshard)
    obtain rfl := Nat.lt_one_iff.mp he
    refine ⟨_, _, rfl, umul_lt _ _, uadd_lt _ _, ?_, ?_⟩
    · push_cast [cast_umul, Window.rowShare, Nat.div_one]
      ring
    · push_cast [cast_umul, cast_uadd, Window.rowShare, Nat.div_one]
      ring
  · push_cast [cast_umul, Window.rowShare, Nat.div_one]
    ring
  · change _ = (List.range 1).map fun e => QuantWeight.mk _ .q8_0 (umul (nRows / w) (nCols / 1 * 1))
    rw [one_weight, Nat.div_one, Nat.mul_one]

theorem rowSharded_native (hinfo : file.info name = .ok info) (hnative : dtypeQmatmulNative info.dtype = true)
    (h : uploadRowShardedQuant decode ops file name ⟨nRows, nCols, r, w⟩ = .ok u) :
    nCols % w = 0 ∧ nCols / w % info.dtype.blockSize = 0 ∧ ∃ raw qd, rawTensor file name = .ok raw ∧
      ggmlToQdtype info.dtype = .ok qd ∧ Writes raw info.dtype.typeSize info.dtype.blockSize id qd
        (.colShare 1 nRows (nCols / info.dtype.blockSize) r) u := by
  unfold uploadRowShardedQuant at h
  dsimp only at h
  obtain ⟨_, hranks, h⟩ := Outcome.bind_eq_ok.mp h
  obtain ⟨info', hinfo', h⟩ := Outcome.bind_eq_ok.mp h
  rw [fileInfo_ok, hinfo] at hinfo'
  cases hinfo'
  rw [if_pos hnative] at h
  obtain ⟨_, hblock, h⟩ := Outcome.bind_eq_ok.mp h
  obtain ⟨raw, hraw, h⟩ := Outcome.bind_eq_ok.mp h
  obtain ⟨_, -, h⟩ := Outcome.bind_eq_ok.mp h
  obtain ⟨bytes, hbytes, h⟩ := Outcome.bind_eq_ok.mp h
  obtain ⟨qd, hqd, rfl⟩ := wrapQuant_ok h
  have hwhole := blocks_mul (requireMultiple_ok.mp hblock).2
  rw [Nat.div_right_comm] at hbytes hwhole
  refine ⟨(requireMultiple_ok.mp hranks).2, (requireMultiple_ok.mp hblock).2, raw, qd, hraw, hqd, bytes,
    umul nRows (umul (nCols / info.dtype.blockSize / w) info.dtype.typeSize), ?_, rfl, ?_, ?_⟩
  · refine cols_fill (rawTensor_length hinfo hraw ▸ sizeInBytes_lt info) rfl rfl (fun e he i _ => ?_) (extendAll_one hbytes)
    obtain rfl := Nat.lt_one_iff.mp he
    refine ⟨_, _, rfl, uadd_lt _ _, uadd_lt _ _, ?_, ?_⟩
    · push_cast [cast_umul, cast_uadd, Window.colShare]
      ring
    · push_cast [cast_umul, cast_uadd, Window.colShare]
      ring
  · push_cast [cast_umul, Window.colShare]
    ring
  · change _ = (List.range 1).map fun e => QuantWeight.mk _ qd (umul nRows (nCols / info.dtype.blockSize / w * _))
    rw [one_weight, hwhole]

theorem rowSharded_requantised (hinfo : file.info name = .ok info) (hnative : dtypeQmatmulNative info.dtype = false)
    (h : uploadRowShardedQuant decode ops file name ⟨nRows, nCols, r, w⟩ = .ok u) :
    nCols % w = 0 ∧ ∃ values, dequantizeTensor decode file name = .ok values ∧ values.length = umul nRows nCols ∧
      Writes values 1 1 (q80Bytes ops) .q8_0 (.colShare 1 nRows (nCols / 1) r) u := by
  unfold uploadRowShardedQuant at h
  dsimp only at h
  obtain ⟨_, hranks, h⟩ := Outcome.bind_eq_ok.mp h
  obtain ⟨info', hinfo', h⟩ := Outcome.bind_eq_ok.mp h
  rw [fileInfo_ok, hinfo] at hinfo'
  cases hinfo'
  rw [hnative, if_neg (by decide)] at h
  obtain ⟨values, hvalues, h⟩ := Outcome.bind_eq_ok.mp h
  obtain ⟨_, -, h⟩ := Outcome.bind_eq_ok.mp h
  obtain ⟨shard, hshard, h⟩ := Outcome.bind_eq_ok.mp h
  obtain ⟨bytes, hbytes, h⟩ := Outcome.bind_eq_ok.mp h
  obtain ⟨qd, hqd, rfl⟩ := wrapQuant_ok h
  cases hqd
  obtain ⟨hdeq, hlen⟩ := valuesOf_ok hvalues
  refine ⟨(requireMultiple_ok.mp hranks).2, values, hdeq, hlen, shard, umul nRows (nCols / w), ?_,
    f32ToQ80Bytes_ok hbytes, ?_, ?_⟩
  · refine cols_fill (hlen ▸ umul_lt _ _) rfl rfl (fun e he i _ => ?_) (extendAll_one hshard)
    obtain rfl := Nat.lt_one_iff.mp he
    refine ⟨_, _, rfl, uadd_lt _ _, uadd_lt _ _, ?_, ?_⟩
    · push_cast [cast_umul, cast_uadd, Window.colShare, Nat.div_one]
      ring
    · push_cast [cast_umul, cast_uadd, Window.colShare, Nat.div_one]
      ring
  · push_cast [cast_umul, Window.colShare, Nat.div_one]
    ring
  · change _ = (List.range 1).map fun e => QuantWeight.mk _ .q8_0 (umul nRows (nCols / 1 / w * 1))
    rw [one_weight, Nat.div_one, Nat.mul_one]

variable {shape : MoeStackedShape} {shard : ShardMode}

theorem stackedCol_native (hinfo : file.info name = .ok info) (hrank : shard.rank < shard.nRanks)
    (h : uploadMoeExpertsStackedColSharded file name shape shard = .ok u) :
    dtypeQmatmulNative info.dtype = true ∧ shape.dimA % shard.nRanks = 0 ∧ shape.dimB % info.dtype.blockSize = 0 ∧
      ∃ raw qd, rawTensor file name = .ok raw ∧ ggmlToQdtype info.dtype = .ok qd ∧
        Writes raw info.dtype.typeSize info.dtype.blockSize id qd
          (.rowShare shape.nExperts shape.dimA (shape.dimB / info.dtype.blockSize) 0 shape.dimA (by omega)
            ⟨shard.rank, hrank⟩) u := by
  unfold uploadMoeExpertsStackedColSharded at h
  obtain ⟨_, hranks, h⟩ := Outcome.bind_eq_ok.mp h
  obtain ⟨info', hinfo', h⟩ := Outcome.bind_eq_ok.mp h
  rw [fileInfo_ok, hinfo] at hinfo'
  cases hinfo'
  obtain ⟨_, hnative, h⟩ := Outcome.bind_eq_ok.mp h
  obtain ⟨_, hblock, h⟩ := Outcome.bind_eq_ok.mp h
  obtain ⟨raw, hraw, h⟩ := Outcome.bind_eq_ok.mp h
  obtain ⟨_, -, h⟩ := Outcome.bind_eq_ok.mp h
  obtain ⟨_, -, h⟩ := Outcome.bind_eq_ok.mp h
  obtain ⟨host, hhost, h⟩ := Outcome.bind_eq_ok.mp h
  obtain ⟨qd, hqd, rfl⟩ := wrapExperts_ok h
  have hwhole := blocks_mul (requireMultiple_ok.mp hblock).2
  refine ⟨ensure_ok.mp hnative, (requireMultiple_ok.mp hranks).2, (requireMultiple_ok.mp hblock).2, raw, qd, hraw, hqd,
    host, umul (shape.dimA / shard.nRanks) (umul (shape.dimB / info.dtype.blockSize) info.dtype.typeSize), ?_, rfl, ?_, ?_⟩
  · refine rows_fill (rawTensor_length hinfo hraw ▸ sizeInBytes_lt info) rfl rfl (fun e _ => ?_) hhost
    refine ⟨_, _, rfl, uadd_lt _ _, uadd_lt _ _, ?_, ?_⟩
    · push_cast [cast_umul, cast_uadd, Window.rowShare]
      ring
    · push_cast [cast_umul, cast_uadd, Window.rowShare]
      ring
  · push_cast [cast_umul, Window.rowShare]
    ring
  · change _ = (List.range shape.nExperts).map fun e =>
      QuantWeight.mk _ qd (umul (shape.dimA / shard.nRanks) (shape.dimB / info.dtype.blockSize * _))
    rw [hwhole]

theorem stackedRow_native (hinfo : file.info name = .ok info) (hrank : shard.rank < shard.nRanks)
    (h : uploadMoeExpertsStackedRowSharded file name shape shard = .ok u) :
    dtypeQmatmulNative info.dtype = true ∧ shape.dimB % shard.nRanks = 0 ∧
      shape.dimB / shard.nRanks % info.dtype.blockSize = 0 ∧
      ∃ raw qd, rawTensor file name = .ok raw ∧ ggmlToQdtype info.dtype = .ok qd ∧
        Writes raw info.dtype.typeSize info.dtype.blockSize id qd
          (.colShare shape.nExperts shape.dimA (shape.dimB / info.dtype.blockSize) ⟨shard.rank, hrank⟩) u := by
  unfold uploadMoeExpertsStackedRowSharded at h
  obtain ⟨_, hranks, h⟩ := Outcome.bind_eq_ok.mp h
  obtain ⟨info', hinfo', h⟩ := Outcome.bind_eq_ok.mp h
  rw [fileInfo_ok, hinfo] at hinfo'
  cases hinfo'
  obtain ⟨_, hnative, h⟩ := Outcome.bind_eq_ok.mp h
  obtain ⟨_, hblock, h⟩ := Outcome.bind_eq_ok.mp h
  obtain ⟨raw, hraw, h⟩ := Outcome.bind_eq_ok.mp h
  obtain ⟨_, -, h⟩ := Outcome.bind_eq_ok.mp h
  obtain ⟨_, -, h⟩ := Outcome.bind_eq_ok.mp h
  obtain ⟨host, hhost, h⟩ := Outcome.bind_eq_ok.mp h
  obtain ⟨qd, hqd, rfl⟩ := wrapExperts_ok h
  have hwhole := blocks_mul (requireMultiple_ok.mp hblock).2
  rw [Nat.div_right_comm] at hhost hwhole
  refine ⟨ensure_ok.mp hnative, (requireMultiple_ok.mp hranks).2, (requireMultiple_ok.mp hblock).2, raw, qd, hraw, hqd,
    host, umul shape.dimA (umul (shape.dimB / info.dtype.blockSize / shard.nRanks) info.dtype.typeSize), ?_, rfl, ?_, ?_⟩
  · refine cols_fill (rawTensor_length hinfo hraw ▸ sizeInBytes_lt info) rfl rfl (fun e _ i _ => ?_) hhost
    refine ⟨_, _, rfl, uadd_lt _ _, uadd_lt _ _, ?_, ?_⟩
    · push_cast [cast_umul, cast_uadd, Window.colShare]
      ring
    · push_cast [cast_umul, cast_uadd, Window.colShare]
      ring
  · push_cast [cast_umul, Window.colShare]
    ring
  · change _ = (List.range shape.nExperts).map fun e => QuantWeight.mk _ qd
      (umul shape.dimA (shape.dimB / info.dtype.blockSize / shard.nRanks * _))
    rw [hwhole, Nat.div_right_comm]

theorem fusedGateUp_native (hinfo : file.info name = .ok info) (hrank : shard.rank < shard.nRanks)
    (h : uploadMoeExpertsFusedGateUpStacked file name shape shard = .ok (gate, up)) :
    dtypeQmatmulNative info.dtype = true ∧ shape.dimA % shard.nRanks = 0 ∧ shape.dimB % info.dtype.blockSize = 0 ∧
      ∃ raw qd, rawTensor file name = .ok raw ∧ ggmlToQdtype info.dtype = .ok qd ∧
        Writes raw info.dtype.typeSize info.dtype.blockSize id qd
          (.rowShare shape.nExperts (2 * shape.dimA) (shape.dimB / info.dtype.blockSize) 0 shape.dimA (by omega)
            ⟨shard.rank, hrank⟩) gate ∧
        Writes raw info.dtype.typeSize info.dtype.blockSize id qd
          (.rowShare shape.nExperts (2 * shape.dimA) (shape.dimB / info.dtype.blockSize) shape.dimA shape.dimA (by omega)
            ⟨shard.rank, hrank⟩) up := by
  unfold uploadMoeExpertsFusedGateUpStacked at h
  obtain ⟨_, hranks, h⟩ := Outcome.bind_eq_ok.mp h
  obtain ⟨info', hinfo', h⟩ := Outcome.bind_eq_ok.mp h
  rw [fileInfo_ok, hinfo] at hinfo'
  cases hinfo'
  obtain ⟨_, hnative, h⟩ := Outcome.bind_eq_ok.mp h
  obtain ⟨_, hblock, h⟩ := Outcome.bind_eq_ok.mp h
  obtain ⟨raw, hraw, h⟩ := Outcome.bind_eq_ok.mp h
  obtain ⟨_, -, h⟩ := Outcome.bind_eq_ok.mp h
  obtain ⟨_, -, h⟩ := Outcome.bind_eq_ok.mp h
  obtain ⟨⟨gateBuf, upBuf⟩, hbufs, h⟩ := Outcome.bind_eq_ok.mp h
  obtain ⟨gate', hgate, h⟩ := Outcome.bind_eq_ok.mp h
  obtain ⟨up', hup, h⟩ := Outcome.bind_eq_ok.mp h
  cases h
  obtain ⟨hgates, hups⟩ := extendBoth_ok hbufs
  obtain ⟨qd, hqd, rfl⟩ := wrapExperts_ok hgate
  obtain ⟨qd', hqd', rfl⟩ := wrapExperts_ok hup
  rw [hqd] at hqd'
  cases hqd'
  have hwhole := blocks_mul (requireMultiple_ok.mp hblock).2
  have hshort := rawTensor_length hinfo hraw ▸ sizeInBytes_lt info
  refine ⟨ensure_ok.mp hnative, (requireMultiple_ok.mp hranks).2, (requireMultiple_ok.mp hblock).2, raw, qd, hraw, hqd,
    ⟨gateBuf, umul (shape.dimA / shard.nRanks) (umul (shape.dimB / info.dtype.blockSize) info.dtype.typeSize),
      rows_fill hshort rfl rfl (fun e _ => ⟨_, _, rfl, uadd_lt _ _, uadd_lt _ _, ?_, ?_⟩) hgates, rfl, ?_, ?_⟩,
    ⟨upBuf, umul (shape.dimA / shard.nRanks) (umul (shape.dimB / info.dtype.blockSize) info.dtype.typeSize),
      rows_fill hshort rfl rfl (fun e _ => ⟨_, _, rfl, uadd_lt _ _, uadd_lt _ _, ?_, ?_⟩) hups, rfl, ?_, ?_⟩⟩
  · push_cast [cast_umul, cast_uadd, Window.rowShare]
    ring
  · push_cast [cast_umul, cast_uadd, Window.rowShare]
    ring
  · push_cast [cast_umul, Window.rowShare]
    ring
  · change _ = (List.range shape.nExperts).map fun e =>
      QuantWeight.mk _ qd (umul (shape.dimA / shard.nRanks) (shape.dimB / info.dtype.blockSize * _))
    rw [hwhole]
  · push_cast [cast_umul, cast_uadd, Window.rowShare]
    ring
  · push_cast [cast_umul, cast_uadd, Window.rowShare]
    ring
  · push_cast [cast_umul, Window.rowShare]
    ring
  · change _ = (List.range shape.nExperts).map fun e =>
      QuantWeight.mk _ qd (umul (shape.dimA / shard.nRanks) (shape.dimB / info.dtype.blockSize * _))
    rw [hwhole]

end Loaders

theorem Writes.all {xs : List α} {code : List α → List UInt8} {ws : List Window} {us : List Upload} (hsize : 0 < size)
    (hxs : xs.length < 2 ^ 64) (h : List.Forall₂ (Writes xs size unit code qd) ws us) :
    List.Forall₂ (Holds xs size unit code qd) ws us ↔ ∀ x ∈ ws, ∀ c ∈ x.cells, (c + 1) * size ≤ xs.length := by
  induction h with
  | nil => exact ⟨fun _ => nofun, fun _ => .nil⟩
  | cons hwrites _ ih => rw [List.forall₂_cons, List.forall_mem_cons, ih, hwrites.holds_iff hsize hxs]

namespace ShardLoad
variable {load : ShardLoad} {w unit : Nat}

/-- The loader's tests of a shape. -/
def Divides (w unit : Nat) : ShardLoad → Prop
  | colSharded nRows nCols => nRows % w = 0 ∧ nCols % unit = 0
  | rowSharded _ nCols => nCols % w = 0 ∧ nCols / w % unit = 0
  | stackedColSharded shape => shape.dimA % w = 0 ∧ shape.dimB % unit = 0
  | stackedRowSharded shape => shape.dimB % w = 0 ∧ shape.dimB / w % unit = 0
  | fusedGateUp shape => shape.dimA % w = 0 ∧ shape.dimB % unit = 0

theorem Divides.one (h : load.Divides w unit) : load.Divides w 1 := by
  cases load
  all_goals exact ⟨h.1, Nat.mod_one _⟩

theorem Divides.eachOnce (h : load.Divides w unit) : load.EachOnce w unit := by
  have hone : ∀ x : Fin w → Window, (fun r => [x r].flatMap Window.cells) = fun r => (x r).cells := fun x => by
    funext r
    exact List.append_nil _
  unfold EachOnce
  cases load with
  | colSharded nRows nCols => exact (hone _).symm ▸ Window.rowShares_perm h.1
  | rowSharded nRows nCols => exact (hone _).symm ▸ Window.colShares_perm (columns_blocked h.1 h.2).2
  | stackedColSharded shape => exact (hone _).symm ▸ Window.rowShares_perm h.1
  | stackedRowSharded shape => exact (hone _).symm ▸ Window.colShares_perm (columns_blocked h.1 h.2).2
  | fusedGateUp shape =>
    have htwo : (fun r : Fin w => ((fusedGateUp shape).windows unit r).flatMap Window.cells) = fun r =>
        (Window.rowShare shape.nExperts (2 * shape.dimA) (shape.dimB / unit) 0 shape.dimA (by omega) r).cells ++
          (Window.rowShare shape.nExperts (2 * shape.dimA) (shape.dimB / unit) shape.dimA shape.dimA (by omega) r).cells := by
      funext r
      exact congrArg (_ ++ ·) (List.append_nil _)
    rw [htwo]
    exact Window.halfShares_perm h.1 (by omega) (by omega)

theorem rowShare_elements {n base m : Nat} {r : Fin w} {fits : base + n ≤ rows} (h : m % unit = 0) :
    ((Window.rowShare stack rows (m / unit) base n fits r).cells.flatMap fun b => span (b * unit) ((b + 1) * unit)) =
      (Window.rowShare stack rows (m / 1) base n fits r).cells := by
  have hwhole : m / unit * unit = m / 1 := by
    rw [Nat.div_one]
    exact Nat.div_mul_cancel (Nat.dvd_of_mod_eq_zero h)
  exact Window.cells_blocks rfl rfl rfl rfl hwhole (Nat.zero_mul unit) hwhole

theorem colShare_elements {m : Nat} {r : Fin w} (hdvd : m % w = 0) (h : m / w % unit = 0) :
    ((Window.colShare stack rows (m / unit) r).cells.flatMap fun b => span (b * unit) ((b + 1) * unit)) =
      (Window.colShare stack rows (m / 1) r).cells := by
  have hwhole : m / unit * unit = m / 1 := by
    rw [Nat.div_one]
    exact Nat.div_mul_cancel (Nat.dvd_of_mod_eq_zero (columns_blocked hdvd h).1)
  have hpart : m / unit / w * unit = m / 1 / w := by
    rw [Nat.div_one, Nat.div_right_comm]
    exact Nat.div_mul_cancel (Nat.dvd_of_mod_eq_zero h)
  refine Window.cells_blocks rfl rfl rfl rfl hwhole ?_ hpart
  change r * (m / unit / w) * unit = r * (m / 1 / w)
  rw [Nat.mul_assoc, hpart]

theorem Divides.sameElements (h : load.Divides w unit) (r : Fin w) : load.SameElements unit r := by
  unfold SameElements
  cases load with
  | colSharded nRows nCols => exact .cons (rowShare_elements h.2) .nil
  | rowSharded nRows nCols => exact .cons (colShare_elements h.1 h.2) .nil
  | stackedColSharded shape => exact .cons (rowShare_elements h.2) .nil
  | stackedRowSharded shape => exact .cons (colShare_elements h.1 h.2) .nil
  | fusedGateUp shape => exact .cons (rowShare_elements h.2) (.cons (rowShare_elements h.2) .nil)

theorem wholeHeads (load : ShardLoad) (r : Fin w) : load.WholeHeads r := by
  rintro heads dim n rfl hheads x hx
  obtain rfl := List.mem_singleton.mp hx
  have hpart : heads * (2 * dim) / w = heads / w * (2 * dim) := by
    rw [Nat.mul_comm, Nat.mul_div_assoc _ (Nat.dvd_of_mod_eq_zero hheads), Nat.mul_comm]
  rw [Window.cells_rows rfl rfl]
  refine (List.append_nil _).trans ?_
  change span ((0 * (heads * (2 * dim)) + (0 + r * (heads * (2 * dim) / w))) * (n / 1))
    ((0 * (heads * (2 * dim)) + (0 + r * (heads * (2 * dim) / w)) + heads * (2 * dim) / w) * (n / 1)) = _
  have hlo : r * (heads / w * (2 * dim)) * n = r * (heads / w) * (2 * dim * n) := by ring
  have hhi : (r * (heads / w * (2 * dim)) + heads / w * (2 * dim)) * n =
      (r * (heads / w) + heads / w) * (2 * dim * n) := by ring
  rw [hpart, Nat.zero_mul, Nat.zero_add, Nat.zero_add, Nat.div_one, hlo, hhi, ← rows_span]
  refine List.flatMap_congr fun h _ => ?_
  have hhead : (h * (2 * dim) + 2 * dim) * n = (h + 1) * (2 * dim * n) := by ring
  rw [span_append (Nat.mul_le_mul_right n (Nat.le_add_right _ _)) (Nat.mul_le_mul_right n (by omega)), hhead,
    Nat.mul_assoc h]

end ShardLoad

instance (info : TensorInfo) (load : ShardLoad) (r : Fin w) : Decidable (load.InTensor info r) :=
  inferInstanceAs (Decidable (if dtypeQmatmulNative info.dtype then
    ∀ x ∈ load.windows info.dtype.blockSize r, ∀ b ∈ x.cells, (b + 1) * info.dtype.typeSize ≤ info.sizeInBytes
    else ∀ x ∈ load.windows 1 r, ∀ e ∈ x.cells, (e + 1) * 1 ≤ load.count 1 % 2 ^ 64))

section Uploads
variable {decode : BlockDecoder F} {ops : F32Ops F} {file : Parsed} {info : TensorInfo} {load : ShardLoad}
  {shard : ShardMode} {uploads : List Upload}

/-- A loader that takes the blocks as they are. -/
theorem uploads_native (hinfo : file.info name = .ok info) (hnative : dtypeQmatmulNative info.dtype = true)
    (hrank : shard.rank < shard.nRanks) (h : load.uploads decode ops file name shard = .ok uploads) :
    load.Divides shard.nRanks info.dtype.blockSize ∧ ∃ raw qd, rawTensor file name = .ok raw ∧
      ggmlToQdtype info.dtype = .ok qd ∧
        List.Forall₂ (Writes raw info.dtype.typeSize info.dtype.blockSize id qd)
          (load.windows info.dtype.blockSize (⟨shard.rank, hrank⟩ : Fin shard.nRanks)) uploads := by
  cases load with
  | colSharded nRows nCols =>
    obtain ⟨u, hu, hout⟩ := Outcome.bind_eq_ok.mp h
    cases hout
    obtain ⟨hdvd, hblock, raw, qd, hraw, hqd, hwrites⟩ := colSharded_native (r := ⟨shard.rank, hrank⟩) hinfo hnative hu
    exact ⟨⟨hdvd, hblock⟩, raw, qd, hraw, hqd, .cons hwrites .nil⟩
  | rowSharded nRows nCols =>
    obtain ⟨u, hu, hout⟩ := Outcome.bind_eq_ok.mp h
    cases hout
    obtain ⟨hdvd, hblock, raw, qd, hraw, hqd, hwrites⟩ := rowSharded_native (r := ⟨shard.rank, hrank⟩) hinfo hnative hu
    exact ⟨⟨hdvd, hblock⟩, raw, qd, hraw, hqd, .cons hwrites .nil⟩
  | stackedColSharded shape =>
    obtain ⟨u, hu, hout⟩ := Outcome.bind_eq_ok.mp h
    cases hout
    obtain ⟨-, hdvd, hblock, raw, qd, hraw, hqd, hwrites⟩ := stackedCol_native hinfo hrank hu
    exact ⟨⟨hdvd, hblock⟩, raw, qd, hraw, hqd, .cons hwrites .nil⟩
  | stackedRowSharded shape =>
    obtain ⟨u, hu, hout⟩ := Outcome.bind_eq_ok.mp h
    cases hout
    obtain ⟨-, hdvd, hblock, raw, qd, hraw, hqd, hwrites⟩ := stackedRow_native hinfo hrank hu
    exact ⟨⟨hdvd, hblock⟩, raw, qd, hraw, hqd, .cons hwrites .nil⟩
  | fusedGateUp shape =>
    obtain ⟨⟨gate, up⟩, hu, hout⟩ := Outcome.bind_eq_ok.mp h
    cases hout
    obtain ⟨-, hdvd, hblock, raw, qd, hraw, hqd, hgate, hup⟩ := fusedGateUp_native hinfo hrank hu
    exact ⟨⟨hdvd, hblock⟩, raw, qd, hraw, hqd, .cons hgate (.cons hup .nil)⟩

/-- A loader that requantises; those of experts do not. -/
theorem uploads_requantised (hinfo : file.info name = .ok info) (hnative : dtypeQmatmulNative info.dtype = false)
    (hrank : shard.rank < shard.nRanks) (h : load.uploads decode ops file name shard = .ok uploads) :
    load.Divides shard.nRanks 1 ∧ ∃ values, dequantizeTensor decode file name = .ok values ∧
      values.length = load.count 1 % 2 ^ 64 ∧ List.Forall₂ (Writes values 1 1 (q80Bytes ops) .q8_0)
        (load.windows 1 (⟨shard.rank, hrank⟩ : Fin shard.nRanks)) uploads := by
  have hcount : ∀ nRows nCols, umul nRows nCols = 1 * nRows * (nCols / 1) % 2 ^ 64 := fun nRows nCols => by
    rw [Nat.one_mul, Nat.div_one]
    rfl
  cases load with
  | colSharded nRows nCols =>
    obtain ⟨u, hu, hout⟩ := Outcome.bind_eq_ok.mp h
    cases hout
    obtain ⟨hdvd, values, hdeq, hlen, hwrites⟩ := colSharded_requantised (r := ⟨shard.rank, hrank⟩) hinfo hnative hu
    exact ⟨⟨hdvd, Nat.mod_one _⟩, values, hdeq, hlen.trans (hcount _ _), .cons hwrites .nil⟩
  | rowSharded nRows nCols =>
    obtain ⟨u, hu, hout⟩ := Outcome.bind_eq_ok.mp h
    cases hout
    obtain ⟨hdvd, values, hdeq, hlen, hwrites⟩ := rowSharded_requantised (r := ⟨shard.rank, hrank⟩) hinfo hnative hu
    exact ⟨⟨hdvd, Nat.mod_one _⟩, values, hdeq, hlen.trans (hcount _ _), .cons hwrites .nil⟩
  | stackedColSharded shape =>
    obtain ⟨u, hu, hout⟩ := Outcome.bind_eq_ok.mp h
    obtain ⟨htrue, -⟩ := stackedCol_native hinfo hrank hu
    rw [hnative] at htrue
    cases htrue
  | stackedRowSharded shape =>
    obtain ⟨u, hu, hout⟩ := Outcome.bind_eq_ok.mp h
    obtain ⟨htrue, -⟩ := stackedRow_native hinfo hrank hu
    rw [hnative] at htrue
    cases htrue
  | fusedGateUp shape =>
    obtain ⟨⟨gate, up⟩, hu, hout⟩ := Outcome.bind_eq_ok.mp h
    obtain ⟨htrue, -⟩ := fusedGateUp_native hinfo hrank hu
    rw [hnative] at htrue
    cases htrue

end Uploads

/-- The buffers that a loader uploads for a rank are the blocks of its rows or columns, each in
one buffer of one rank, exactly where the blocks that the shape gives the rank lie in the
tensor. -/
theorem shards_partition_iff (decode : BlockDecoder F) (ops : F32Ops F) (file : Parsed) (name : String) (info : TensorInfo)
    (load : ShardLoad) (shard : ShardMode) (hrank : shard.rank < shard.nRanks) (uploads : List Upload)
    (hinfo : file.info name = .ok info) (h : load.uploads decode ops file name shard = .ok uploads) :
    load.Sharded decode ops file name info (⟨shard.rank, hrank⟩ : Fin shard.nRanks) uploads ↔
      load.InTensor info (⟨shard.rank, hrank⟩ : Fin shard.nRanks) := by
  unfold ShardLoad.Sharded ShardLoad.InTensor
  rw [and_iff_right (load.wholeHeads _)]
  cases hnative : dtypeQmatmulNative info.dtype with
  | true =>
    obtain ⟨hdvd, raw, qd, hraw, hqd, hwrites⟩ := uploads_native hinfo hnative hrank h
    have hlen := rawTensor_length hinfo hraw
    have hall := Writes.all info.dtype.typeSize_pos (hlen ▸ sizeInBytes_lt info) hwrites
    rw [hlen] at hall
    rw [and_iff_right hdvd.one.eachOnce, if_pos rfl, if_pos rfl, ← hall, and_iff_right hdvd.eachOnce,
      and_iff_right (hdvd.sameElements _)]
    constructor
    · rintro ⟨raw', qd', hraw', hqd', hholds⟩
      rw [hraw] at hraw'
      rw [hqd] at hqd'
      cases hraw'
      cases hqd'
      exact hholds
    · exact fun hholds => ⟨raw, qd, hraw, hqd, hholds⟩
  | false =>
    obtain ⟨hdvd, values, hdeq, hlen, hwrites⟩ := uploads_requantised hinfo hnative hrank h
    have hall := Writes.all Nat.one_pos (hlen ▸ Nat.mod_lt _ (by decide)) hwrites
    rw [hlen] at hall
    rw [and_iff_right hdvd.eachOnce, if_neg (by decide), if_neg (by decide), ← hall]
    constructor
    · rintro ⟨values', hdeq', hholds⟩
      rw [hdeq] at hdeq'
      cases hdeq'
      exact hholds
    · exact fun hholds => ⟨values, hdeq, hholds⟩

theorem no_keys : (([] : List (String × Datum)).map (·.1)).Nodup := List.Pairwise.nil

/-- A file with one tensor of `Q8_0` blocks. -/
def blocksSpec (dims : List Nat) (rank : dims.length < 256 ^ 4) (sizes : ∀ n ∈ dims, n < 256 ^ 8)
    (count : dims.prod < 2 ^ 64) : GgufSpec where
  version := .v3
  metadata := []
  tensors := [⟨"w", .q8_0, dims, 0, plain_w, rank, sizes, count, zero_offset⟩]
  distinctKeys := no_keys
  wellTyped := no_entries
  distinctNames := lone_name _
  alignmentPower := no_alignment
  aligned := first_aligned _ rfl

/-- Whole numbers for floats. -/
def wholeOps : F32Ops Int where
  zero := 0
  abs v := v.natAbs
  max := max
  div127 v := v / 127
  isZero v := v == 0
  recip v := 1 / v
  mul v v' := v * v'
  toF16Bits v := UInt16.ofNat v.natAbs
  round v := v

def byteValues : BlockDecoder Int := fun _ block i => (block.getD i 0).toNat

def twoRowsSpec : GgufSpec := blocksSpec [2, 32] (by decide) (by decide) (by decide)

def twoRowsFile : Parsed := twoRowsSpec.parsed
  ⟨twoRowsSpec.fileBytes (List.replicate 34 1 ++ List.replicate 34 2), by decide +kernel⟩

def oneBlockSpec : GgufSpec := blocksSpec [1, 32] (by decide) (by decide) (by decide)

def oneBlockMmap : Mmap := ⟨oneBlockSpec.fileBytes (List.replicate 34 1), by decide +kernel⟩

theorem second_row_sharded : ShardLoad.Sharded byteValues wholeOps twoRowsFile "w" ⟨"w", .q8_0, [2, 32], 0, 0⟩
    (.colSharded 2 32) (1 : Fin 2) [⟨List.replicate 34 2, [⟨0, .q8_0, 32⟩]⟩] :=
  (shards_partition_iff byteValues wholeOps twoRowsFile "w" ⟨"w", .q8_0, [2, 32], 0, 0⟩ (.colSharded 2 32) (.tp 1 2)
    (by decide) [⟨List.replicate 34 2, [⟨0, .q8_0, 32⟩]⟩] rfl (by decide +kernel)).mpr (by decide +kernel)

/-- A shape of `2 ^ 63` rows asks for as many bytes as no row: the rank has none of its
blocks. -/
theorem wrapped_rows_dropped : ∃ file, parseGgufHeader (hosted 4) oneBlockMmap = .ok file ∧
    (ShardLoad.colSharded (2 ^ 63) 32).uploads byteValues wholeOps file "w" (.tp 0 1) = .ok [⟨[], [⟨0, .q8_0, 0⟩]⟩] ∧
      ¬ ShardLoad.Sharded byteValues wholeOps file "w" ⟨"w", .q8_0, [1, 32], 0, 0⟩ (.colSharded (2 ^ 63) 32) (0 : Fin 1)
        [⟨[], [⟨0, .q8_0, 0⟩]⟩] := by
  refine ⟨oneBlockSpec.parsed oneBlockMmap, oneBlockSpec.parse_file (hosted_roomy 4) (by decide) rfl, by decide +kernel,
    fun h => ?_⟩
  obtain ⟨-, -, h⟩ := h
  rw [if_pos (by decide)] at h
  obtain ⟨-, -, raw, qd, -, -, hholds⟩ := h
  cases hholds with
  | cons hfirst _ =>
    obtain ⟨hlen, hbytes, -⟩ := hfirst
    have hnone := (congrArg List.length hbytes).trans hlen
    rw [Window.length_cells] at hnone
    exact absurd hnone (by decide)

end Flambeau.Forward.Loader
