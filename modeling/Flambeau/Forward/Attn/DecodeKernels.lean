import Flambeau.Forward.Attn.SplitK
import Flambeau.Systems.Softmax
import Flambeau.Systems.Strides

namespace Flambeau.Forward.Attn
open Systems Systems.Softmax

/-! The decode kernels, with exact arithmetic. -/

/-- What a launch of a decode kernel reads. -/
structure DecodeBuffers (R : Type) where
  q : Nat → R
  k : Nat → R
  v : Nat → R
  nHeadsQ : Nat
  nHeadsKv : Nat
  headDim : Nat
  ringDepth : Nat
  scale : R

/-- The six exchanges of a warp: every lane adds what the lane across has. -/
def warpReduce {R : Type} [Add R] (xs : Nat → R) : Nat → R :=
  [32, 16, 8, 4, 2, 1].foldl (fun xs off lane => xs lane + xs (lane ^^^ off)) xs

variable {R : Type} [Field R] [LinearOrder R]

namespace DecodeBuffers

variable (d : DecodeBuffers R) (qHead : Nat)

/-- `kv_row`, for a row of the launch. -/
def kvRow (t : Int) : Nat :=
  (physRow d.ringDepth t.toNat * d.nHeadsKv + qHead / (d.nHeadsQ / d.nHeadsKv)) * d.headDim

/-- A thread's product. -/
def product (t : Int) (tid : Nat) : R :=
  if tid < d.headDim then d.q (qHead * d.headDim + tid) * d.k (d.kvRow qHead t + tid) else 0

/-- `score_parts[warp]`, from lane 0. -/
def scorePart (t : Int) (warp : Nat) : R := warpReduce (fun lane => d.product qHead t (warp * 64 + lane)) 0

/-- The score of a row; a block has a thread for each of `head_dim`. -/
def score (t : Int) : R :=
  (List.range 8).foldl (fun acc warp => if warp < d.headDim / 64 then acc + d.scorePart qHead t warp else acc) 0 *
    d.scale

/-- What thread `tid` has of a row. -/
def row (tid : Nat) (t : Int) : R × R := (d.score qHead t, d.v (d.kvRow qHead t + tid))

end DecodeBuffers

/-- The chunk kernel's loop: four rows at a time, then the last ones. -/
def chunkLoop (exp : R → R) (p : Partial R) : List (R × R) → Partial R
  | r₀ :: r₁ :: r₂ :: r₃ :: rest => chunkLoop exp (p.push4 exp r₀ r₁ r₂ r₃) rest
  | rest => rest.foldl (Partial.push exp) p

/-- `flambeau_attention_decode_f16_splitk_chunk` and `_combine`, for one thread; NaN is none. -/
def attentionDecodeF16Splitk (exp : R → R) (d : DecodeBuffers R) (shape : AttnSplitkShape) (windowSize : Int)
    (qHead tid : Nat) : Option R :=
  combine exp ((List.range (shape.nChunks % 2 ^ 32)).map fun chunk =>
    chunkLoop exp .empty ((shape.chunkRows windowSize chunk).map (d.row qHead tid)))

/-- The rows that the loop of `flambeau_attention_decode_f16` runs over. -/
def singleRows (nTokensKv : Nat) (windowSize : Int) : List Int :=
  let nTokens := asI32 nTokensKv
  let tStart := asI32 (asI32 (asI32 (nTokens - 1) - windowSize) + 1)
  let tStart := if 0 < windowSize then if tStart < 0 then 0 else tStart else 0
  (List.range (nTokens - tStart).toNat).map fun i : Nat => tStart + (i : Int)

/-- `flambeau_attention_decode_f16`, for one thread. -/
def attentionDecodeF16 (exp : R → R) (d : DecodeBuffers R) (nTokensKv : Nat) (windowSize : Int) (qHead tid : Nat) : R :=
  let p := ((singleRows nTokensKv windowSize).map (d.row qHead tid)).foldl (Partial.push exp) .empty
  p.out * (1 / p.sum)

namespace DecodeBuffers

variable (x : DecodeBuffers R) (call : DecodeCall)

/-- The launch on a slot's cache: the pointers are past the rows that have left the window. -/
def launched : DecodeBuffers R :=
  { x with
    k := fun i => x.k (call.offsetTokens * (x.nHeadsKv * x.headDim) + i)
    v := fun i => x.v (call.offsetTokens * (x.nHeadsKv * x.headDim) + i)
    ringDepth := if call.ringActive then x.ringDepth else 0 }

/-- Where the K and V of a head stand in the cache, for the token at a position. -/
def cacheRow (qHead : Nat) (t : Int) : Nat :=
  (physRow (if call.ringActive then x.ringDepth else 0) t.toNat * x.nHeadsKv +
    qHead / (x.nHeadsQ / x.nHeadsKv)) * x.headDim

/-- A token's score and its value at `tid`. -/
def token (qHead tid : Nat) (t : Int) : R × R :=
  (((List.range x.headDim).map fun i => x.q (qHead * x.headDim + i) * x.k (x.cacheRow call qHead t + i)).sum * x.scale,
    x.v (x.cacheRow call qHead t + tid))

/-- The decode branch of `standard_attn_local`, for one element of the output. -/
def standardDecode (exp : R → R) (maxChunks qHead tid : Nat) : Option R :=
  (call.path maxChunks).bind fun path =>
    match path with
    | .single => some (attentionDecodeF16 exp (x.launched call) call.effTokensKv call.kernelWindow qHead tid)
    | .splitk shape => attentionDecodeF16Splitk exp (x.launched call) shape call.kernelWindow qHead tid

end DecodeBuffers

/-! The dot product. -/

/-- The lanes whose values end at one. -/
def spread : List Nat → Nat → List Nat
  | [], lane => [lane]
  | off :: offs, lane => (spread offs lane).flatMap fun l => [l, l ^^^ off]

theorem foldl_spread {A : Type} [AddCommMonoid A] (offs : List Nat) (xs : Nat → A) (lane : Nat) :
    offs.foldl (fun xs off lane => xs lane + xs (lane ^^^ off)) xs lane = ((spread offs lane).map xs).sum := by
  induction offs generalizing xs with
  | nil => simp [spread]
  | cons off offs ih =>
    rw [List.foldl_cons, ih, spread, List.map_flatMap, List.flatMap_def, List.sum_flatten, List.map_map]
    congr 1
    refine List.map_congr_left fun l _ => ?_
    simp

theorem warpReduce_zero {A : Type} [AddCommMonoid A] (xs : Nat → A) :
    warpReduce xs 0 = ((List.range 64).map xs).sum := by
  have hperm : (spread [32, 16, 8, 4, 2, 1] 0).Perm (List.range 64) := by decide
  rw [warpReduce, foldl_spread]
  exact (hperm.map xs).sum_eq

theorem foldl_warps {A : Type} [AddCommMonoid A] (part : Nat → A) (hdim : headDim ∈ [64, 128, 256, 512]) :
    (List.range 8).foldl (fun acc warp => if warp < headDim / 64 then acc + part warp else acc) 0 =
      ((List.range (headDim / 64)).map part).sum := by
  simp only [List.mem_cons, List.not_mem_nil, or_false] at hdim
  rcases hdim with rfl | rfl | rfl | rfl <;> simp [List.range_succ, add_assoc]

namespace DecodeBuffers

variable {d : DecodeBuffers R}

omit [LinearOrder R] in
/-- The score is the scaled dot product of the query and the row. -/
theorem score_eq (hdim : d.headDim ∈ [64, 128, 256, 512]) (qHead : Nat) (t : Int) :
    d.score qHead t = ((List.range d.headDim).map fun i =>
      d.q (qHead * d.headDim + i) * d.k (d.kvRow qHead t + i)).sum * d.scale := by
  have hmul : d.headDim = d.headDim / 64 * 64 := by
    simp only [List.mem_cons, List.not_mem_nil, or_false] at hdim
    omega
  have hparts : ∀ warp, d.scorePart qHead t warp =
      ((List.range 64).map fun lane => d.product qHead t (warp * 64 + lane)).sum := fun warp => warpReduce_zero _
  have hproducts : ((List.range d.headDim).map (d.product qHead t)).sum =
      ((List.range (d.headDim / 64)).map (d.scorePart qHead t)).sum := by
    rw [hmul, List.map_eq_flatMap, range_grid, List.flatMap_def, List.sum_flatten, List.map_map, ← hmul]
    congr 1
    refine List.map_congr_left fun warp _ => ?_
    rw [hparts, Function.comp, ← List.map_eq_flatMap]
  have hall : ∀ i ∈ List.range d.headDim, d.product qHead t i =
      d.q (qHead * d.headDim + i) * d.k (d.kvRow qHead t + i) := fun i hi => if_pos (List.mem_range.mp hi)
  rw [score, foldl_warps _ hdim, ← hproducts, List.map_congr_left hall]

end DecodeBuffers

/-! The loops. -/

variable [IsStrictOrderedRing R] {exp : R → R}

omit [IsStrictOrderedRing R] in
theorem foldl_push_holds (hexp : Exponential exp) (h : Holds exp before p) (rows : List (R × R)) :
    Holds exp (before ++ rows) (rows.foldl (Partial.push exp) p) := by
  induction rows generalizing before p with
  | nil => rwa [List.append_nil]
  | cons r rows ih =>
    have hnext := ih (h.push hexp r)
    rwa [List.append_assoc] at hnext

omit [IsStrictOrderedRing R] in
theorem chunkLoop_holds (hexp : Exponential exp) (h : Holds exp before p) (rows : List (R × R)) :
    Holds exp (before ++ rows) (chunkLoop exp p rows) := by
  induction p, rows using chunkLoop.induct exp generalizing before with
  | case1 p r₀ r₁ r₂ r₃ rest ih =>
    rw [chunkLoop]
    have hnext := ih (h.push4 hexp r₀ r₁ r₂ r₃)
    rwa [List.append_assoc] at hnext
  | case2 p rest hfew =>
    rw [chunkLoop.eq_2 exp p rest hfew]
    exact foldl_push_holds hexp h rest

theorem chunks_average (hexp : Exponential exp) (chunkRows : Nat → List (R × R)) (chunks : List Nat)
    (hne : chunks.flatMap chunkRows ≠ []) :
    combine exp (chunks.map fun chunk => chunkLoop exp .empty (chunkRows chunk)) =
      some (average exp (chunks.flatMap chunkRows)) := by
  have hholds : List.Forall₂ (Holds exp) (chunks.map chunkRows)
      (chunks.map fun chunk => chunkLoop exp .empty (chunkRows chunk)) := by
    rw [List.forall₂_map_left_iff, List.forall₂_map_right_iff, List.forall₂_same]
    exact fun chunk _ => chunkLoop_holds hexp holds_empty _
  exact combine_eq hexp hholds hne

/-- The split kernel averages over the rows of its grid. -/
theorem splitk_average (hexp : Exponential exp) (d : DecodeBuffers R) (shape : AttnSplitkShape) (windowSize : Int)
    (qHead tid : Nat) (hne : shape.rows windowSize ≠ []) :
    attentionDecodeF16Splitk exp d shape windowSize qHead tid =
      some (average exp ((shape.rows windowSize).map (d.row qHead tid))) := by
  rw [attentionDecodeF16Splitk]
  unfold AttnSplitkShape.rows at hne ⊢
  generalize List.range (shape.nChunks % 2 ^ 32) = chunks at hne ⊢
  rw [List.map_flatMap]
  refine chunks_average hexp (fun chunk => (shape.chunkRows windowSize chunk).map (d.row qHead tid)) chunks fun hnil => ?_
  rw [← List.map_flatMap, List.map_eq_nil_iff] at hnil
  exact hne hnil

theorem single_average (hexp : Exponential exp) (d : DecodeBuffers R) (nTokensKv : Nat) (windowSize : Int)
    (qHead tid : Nat) (hne : singleRows nTokensKv windowSize ≠ []) :
    attentionDecodeF16 exp d nTokensKv windowSize qHead tid =
      average exp ((singleRows nTokensKv windowSize).map (d.row qHead tid)) := by
  have hholds := foldl_push_holds hexp holds_empty ((singleRows nTokensKv windowSize).map (d.row qHead tid))
  rw [List.nil_append] at hholds
  exact (hholds.average hexp fun hnil => hne (List.map_eq_nil_iff.mp hnil)).2

/-! The rows. -/

theorem singleRows_eq (hpos : 0 < nTokensKv) (hint : nTokensKv < 2 ^ 31) (hlo : -2 ^ 31 ≤ windowSize)
    (hhi : windowSize < 2 ^ 31) : singleRows nTokensKv windowSize = (decodeKeys nTokensKv windowSize).map Int.ofNat := by
  have hstart : (if 0 < windowSize then
      if asI32 (asI32 (asI32 ((nTokensKv : Int) - 1) - windowSize) + 1) < 0 then 0
      else asI32 (asI32 (asI32 ((nTokensKv : Int) - 1) - windowSize) + 1) else 0) =
        ((windowStart windowSize (nTokensKv - 1) : Nat) : Int) := by
    unfold windowStart
    by_cases hwindow : 0 < windowSize
    · rw [asI32_eq (x := (nTokensKv : Int) - 1) (by omega) (by omega),
        asI32_eq (x := (nTokensKv : Int) - 1 - windowSize) (by omega) (by omega),
        asI32_eq (x := (nTokensKv : Int) - 1 - windowSize + 1) (by omega) (by omega), if_pos hwindow, if_pos hwindow]
      split <;> omega
    · rw [if_neg hwindow, if_neg hwindow]
      rfl
  unfold singleRows decodeKeys span
  dsimp only
  rw [asI32_eq (x := (nTokensKv : Int)) (by omega) (by omega), hstart, List.range'_eq_map_range, List.map_map]
  have hlen : ((nTokensKv : Int) - (windowStart windowSize (nTokensKv - 1) : Nat)).toNat =
      nTokensKv - windowStart windowSize (nTokensKv - 1) := by
    omega
  rw [hlen]
  apply List.map_congr_left
  intro i _
  simp only [Function.comp, Int.ofNat_eq_natCast, Int.natCast_add]

namespace DecodeBuffers

variable {x : DecodeBuffers R} {call : DecodeCall}

omit [LinearOrder R] [IsStrictOrderedRing R] in
/-- A row of the launch is the token that is so many rows further in the cache. -/
theorem launched_row (hdim : x.headDim ∈ [64, 128, 256, 512]) (qHead tid n : Nat) :
    (x.launched call).row qHead tid (Int.ofNat n) = x.token call qHead tid (Int.ofNat n + (call.offsetTokens : Int)) := by
  have hrow : call.offsetTokens * (x.nHeadsKv * x.headDim) + (x.launched call).kvRow qHead (Int.ofNat n) =
      x.cacheRow call qHead (Int.ofNat n + (call.offsetTokens : Int)) := by
    have hphys : call.offsetTokens + physRow (x.launched call).ringDepth n =
        physRow (if call.ringActive then x.ringDepth else 0) (n + call.offsetTokens) := by
      unfold launched
      cases hring : call.ringActive with
      | true =>
        have hzero : call.offsetTokens = 0 := by
          unfold DecodeCall.offsetTokens DecodeCall.slid
          rw [hring]
          rfl
        rw [hzero, Nat.zero_add]
        rfl
      | false => exact Nat.add_comm _ _
    have hsum : (Int.ofNat n + (call.offsetTokens : Int)).toNat = n + call.offsetTokens := rfl
    rw [cacheRow, hsum, ← hphys, Nat.add_mul call.offsetTokens, Nat.add_assoc, Nat.add_mul, Nat.mul_assoc]
    rfl
  have hat : ∀ i, call.offsetTokens * (x.nHeadsKv * x.headDim) + ((x.launched call).kvRow qHead (Int.ofNat n) + i) =
      x.cacheRow call qHead (Int.ofNat n + (call.offsetTokens : Int)) + i := by
    intro i
    rw [← Nat.add_assoc, hrow]
  have hk : ∀ i, (x.launched call).k ((x.launched call).kvRow qHead (Int.ofNat n) + i) =
      x.k (x.cacheRow call qHead (Int.ofNat n + (call.offsetTokens : Int)) + i) := fun i => congrArg x.k (hat i)
  have hv : (x.launched call).v ((x.launched call).kvRow qHead (Int.ofNat n) + tid) =
      x.v (x.cacheRow call qHead (Int.ofNat n + (call.offsetTokens : Int)) + tid) := congrArg x.v (hat tid)
  have hdim' : (x.launched call).headDim ∈ [64, 128, 256, 512] := hdim
  rw [row, score_eq hdim', token, hv]
  simp only [hk]
  rfl

omit [LinearOrder R] [IsStrictOrderedRing R] in
theorem launched_rows (hdim : x.headDim ∈ [64, 128, 256, 512]) (qHead tid : Nat) :
    ((decodeKeys call.effTokensKv call.kernelWindow).map Int.ofNat).map ((x.launched call).row qHead tid) =
      call.liveRows.map (x.token call qHead tid) := by
  rw [← call.decodeKeys_offset, List.map_map, List.map_map, List.map_map]
  exact List.map_congr_left fun n _ => launched_row hdim qHead tid n

end DecodeBuffers

theorem real_exponential : Exponential Real.exp := ⟨Real.exp_add, Real.exp_pos⟩

end Flambeau.Forward.Attn
