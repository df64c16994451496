import Mathlib
import Flambeau.Forward.Attn.Kernels

namespace Flambeau.Forward.Attn
open Systems

/-- `splitk_chunk_size` on the machine's `usize`, whose round-up can wrap. -/
def splitkChunkSizeWord (nTokensKv maxChunks : Nat) : Nat :=
  if nTokensKv ≤ 256 then nTokensKv
  else
    let base := if nTokensKv ≤ 1024 then 128 else if nTokensKv ≤ 2048 then 256 else 512
    if divCeil nTokensKv base ≤ maxChunks then base
    else nextMultipleOf (divCeil nTokensKv maxChunks) 32 % 2 ^ 64

/-- `x as i32`, and what the kernel's `int` arithmetic leaves of `x`. -/
def asI32 (x : Int) : Int := (x + 2 ^ 31) % 2 ^ 32 - 2 ^ 31

namespace AttnSplitkShape

/-- The range a block of the chunk kernel runs over, clamped to the tokens and to the
window. -/
def chunkRange (shape : AttnSplitkShape) (windowSize : Int) (chunk : Nat) : Int × Int :=
  let nTokens := asI32 shape.nTokensKv
  let chunkSize := asI32 shape.chunkSize
  let tStart := asI32 (asI32 shape.chunkBase + asI32 (asI32 chunk * chunkSize))
  let tEnd := asI32 (tStart + chunkSize)
  let tEnd := if nTokens < tEnd then nTokens else tEnd
  let qpos := asI32 (nTokens - 1)
  let swaMin := asI32 (asI32 (qpos - windowSize) + 1)
  let swaMin := if swaMin < 0 then 0 else swaMin
  let tStart := if 0 < windowSize then if tStart < swaMin then swaMin else tStart else tStart
  (if tEnd < tStart then tEnd else tStart, tEnd)

def chunkRows (shape : AttnSplitkShape) (windowSize : Int) (chunk : Nat) : List Int :=
  let range := shape.chunkRange windowSize chunk
  (List.range (range.2 - range.1).toNat).map fun i : Nat => range.1 + (i : Int)

/-- The rows of the whole grid, chunk by chunk. -/
def rows (shape : AttnSplitkShape) (windowSize : Int) : List Int :=
  (List.range (shape.nChunks % 2 ^ 32)).flatMap (shape.chunkRows windowSize)

end AttnSplitkShape

/-- What `standard_attn_local` knows when it decodes one token. -/
structure DecodeCall where
  nTokensKv : UInt64
  windowSize : Int32
  ringActive : Bool
  /-- `splitk_partials_m` is allocated. -/
  partials : Bool
deriving Repr, DecidableEq

inductive DecodePath where
  | single
  | splitk (shape : AttnSplitkShape)
deriving Repr, DecidableEq

namespace DecodeCall

variable (call : DecodeCall)

def window : Nat := call.windowSize.toInt.toNat

def slid : Bool :=
  !call.ringActive && decide (0 < call.windowSize.toInt) &&
    decide (call.window < call.nTokensKv.toNat)

def effTokensKv : Nat := if call.slid then call.window else call.nTokensKv.toNat

/-- How many rows the cache pointers are moved. -/
def offsetTokens : Nat := if call.slid then call.nTokensKv.toNat - call.window else 0

def kernelWindow : Int := if call.ringActive then call.windowSize.toInt else 0

def chunkBase : Nat :=
  if call.ringActive && decide (0 < call.windowSize.toInt) then call.effTokensKv - call.window
  else 0

def chunkLen : Nat := call.effTokensKv - call.chunkBase

/-- The decision between the two decode kernels; a chunk of 0 tokens is a division by
zero. -/
def path (maxChunks : Nat) : Option DecodePath :=
  let chunkSize := splitkChunkSizeWord call.chunkLen maxChunks
  if chunkSize = 0 then none
  else
    let nChunks := divCeil call.chunkLen chunkSize
    if 256 < call.effTokensKv ∧ 1 < nChunks ∧ nChunks ≤ maxChunks ∧ call.partials then
      some (.splitk ⟨call.effTokensKv, chunkSize, call.chunkBase⟩)
    else some .single

/-- Where the last chunk ends before the kernel clamps it. -/
def lastEnd (maxChunks : Nat) : Nat :=
  let chunkSize := splitkChunkSize call.chunkLen maxChunks
  call.chunkBase + divCeil call.chunkLen chunkSize * chunkSize

/-- The rows of the cache the query may see. -/
def liveRows : List Int :=
  (decodeKeys call.nTokensKv.toNat call.windowSize.toInt).map Int.ofNat

/-- The chunk size is positive, and a split-K launch visits every live row once and
fits the partial buffers. -/
def Tiles (maxChunks : Nat) : Prop :=
  0 < splitkChunkSizeWord call.nTokensKv.toNat maxChunks ∧
    ∀ shape, call.path maxChunks = some (.splitk shape) →
      (shape.rows call.kernelWindow).map (fun t : Int => t + (call.offsetTokens : Int)) =
          call.liveRows ∧
        shape.nChunks ≤ maxChunks

/-- The round-up of the chunk size stays in its word, and a launch of more than one chunk
ends below the `int` range's end. -/
def Fits (maxChunks : Nat) : Prop :=
  (maxChunks = 1 → call.nTokensKv.toNat ≤ 2 ^ 64 - 32) ∧
    (call.partials = true → splitkChunkSize call.chunkLen maxChunks < call.chunkLen →
      call.lastEnd maxChunks < 2 ^ 31)

end DecodeCall

theorem asI32_eq (hlo : -2 ^ 31 ≤ x) (hhi : x < 2 ^ 31) : asI32 x = x := by
  unfold asI32
  omega

theorem asI32_lt (x : Int) : asI32 x < 2 ^ 31 := by
  unfold asI32
  omega

theorem asI32_past (hlo : 2 ^ 31 ≤ x) (hhi : x < 2 ^ 32) : asI32 x < 0 := by
  unfold asI32
  omega

/-- The word's chunk size is the exact one unless the round-up wraps, and that takes a
single chunk. -/
theorem splitkChunkSizeWord_eq (hn : nTokensKv < 2 ^ 64) (hmax : 0 < maxChunks)
    (hfits : maxChunks = 1 → nTokensKv ≤ 2 ^ 64 - 32) :
    splitkChunkSizeWord nTokensKv maxChunks = splitkChunkSize nTokensKv maxChunks := by
  have hround : nextMultipleOf (divCeil nTokensKv maxChunks) 32 < 2 ^ 64 := by
    have hceil : divCeil nTokensKv maxChunks ≤ 2 ^ 64 - 32 := by
      unfold divCeil
      by_cases hone : maxChunks = 1
      · subst hone
        have := hfits rfl
        omega
      · have htwo : (nTokensKv + maxChunks - 1) / maxChunks ≤ nTokensKv / 2 + 1 := by
          apply Nat.div_le_of_le_mul
          have hpair : 2 * (nTokensKv / 2) ≤ maxChunks * (nTokensKv / 2) :=
            Nat.mul_le_mul_right _ (by omega)
          rw [Nat.mul_add]
          omega
        omega
    unfold nextMultipleOf divCeil
    unfold divCeil at hceil
    omega
  unfold splitkChunkSizeWord splitkChunkSize
  rw [Nat.mod_eq_of_lt hround]

theorem splitkChunkSizeWord_wraps (hn : nTokensKv < 2 ^ 64) (h : 2 ^ 64 - 32 < nTokensKv) :
    splitkChunkSizeWord nTokensKv 1 = 0 := by
  have hmany : ¬ divCeil nTokensKv 512 ≤ 1 := by
    unfold divCeil
    omega
  unfold splitkChunkSizeWord
  rw [if_neg (by omega)]
  simp only [show ¬ nTokensKv ≤ 1024 by omega, show ¬ nTokensKv ≤ 2048 by omega, if_false,
    if_neg hmany]
  unfold nextMultipleOf divCeil
  omega

/-- The chunk size is positive exactly when the round-up does not wrap. -/
theorem splitkChunkSizeWord_pos (hn : nTokensKv < 2 ^ 64) (hpos : 0 < nTokensKv)
    (hmax : 0 < maxChunks) :
    0 < splitkChunkSizeWord nTokensKv maxChunks ↔
      (maxChunks = 1 → nTokensKv ≤ 2 ^ 64 - 32) := by
  constructor
  · intro h hone
    subst hone
    refine Nat.le_of_not_lt fun hlong => ?_
    rw [splitkChunkSizeWord_wraps hn hlong] at h
    exact Nat.lt_irrefl 0 h
  · intro h
    rw [splitkChunkSizeWord_eq hn hmax h]
    exact splitkChunkSize_pos hpos hmax

theorem divCeil_mul_lt (h : 0 < size) (n : Nat) : divCeil n size * size < n + size := by
  have hle := Nat.div_mul_le_self (n + size - 1) size
  unfold divCeil
  omega

theorem one_lt_divCeil (h : 0 < size) : 1 < divCeil n size ↔ size < n := by
  unfold divCeil
  rw [Nat.lt_iff_add_one_le, Nat.le_div_iff_mul_le h]
  omega

/-- The chunk size grows with the length, so that the count stays within the capacity of
the partial buffers. -/
theorem splitkChunkSize_capacity (hn : 0 < nTokensKv) (hmax : 0 < maxChunks) :
    divCeil nTokensKv (splitkChunkSize nTokensKv maxChunks) ≤ maxChunks := by
  have hpos := splitkChunkSize_pos hn hmax
  unfold splitkChunkSize at hpos ⊢
  by_cases hshort : nTokensKv ≤ 256
  · rw [if_pos hshort]
    have hone : ¬ 1 < divCeil nTokensKv nTokensKv := by
      rw [one_lt_divCeil hn]
      exact Nat.lt_irrefl _
    omega
  · rw [if_neg hshort] at hpos ⊢
    dsimp only at hpos ⊢
    generalize (if nTokensKv ≤ 1024 then 128 else if nTokensKv ≤ 2048 then 256 else 512) = base
      at hpos ⊢
    by_cases hbase : divCeil nTokensKv base ≤ maxChunks
    · rw [if_pos hbase]
      exact hbase
    · rw [if_neg hbase] at hpos ⊢
      have hround := le_divCeil_mul (show 0 < 32 by omega) (divCeil nTokensKv maxChunks)
      have hcover := le_divCeil_mul hmax nTokensKv
      have hwide : nTokensKv ≤ maxChunks * nextMultipleOf (divCeil nTokensKv maxChunks) 32 := by
        refine Nat.le_trans hcover ?_
        rw [Nat.mul_comm]
        exact Nat.mul_le_mul_left _ hround
      have hlast := divCeil_mul_lt hpos nTokensKv
      refine Nat.le_of_lt_succ (Nat.lt_of_mul_lt_mul_right
        (a := nextMultipleOf (divCeil nTokensKv maxChunks) 32) ?_)
      rw [Nat.succ_mul]
      omega

namespace AttnSplitkShape

variable {shape : AttnSplitkShape}

theorem tokens_le (hsize : 0 < shape.chunkSize) :
    shape.nTokensKv ≤ shape.chunkBase + shape.nChunks * shape.chunkSize := by
  have hcover := le_divCeil_mul hsize (shape.nTokensKv - shape.chunkBase)
  unfold nChunks
  omega

theorem chunk_end_le (hchunk : chunk < shape.nChunks) :
    chunk * shape.chunkSize + shape.chunkSize ≤ shape.nChunks * shape.chunkSize := by
  rw [← Nat.succ_mul]
  exact Nat.mul_le_mul_right _ hchunk

/-- Below the `int` range's end the kernel's arithmetic is exact. -/
theorem chunkRange_eq (hsize : 0 < shape.chunkSize) (hpos : 0 < shape.nTokensKv)
    (hend : shape.chunkBase + shape.nChunks * shape.chunkSize < 2 ^ 31)
    (hlo : -2 ^ 31 ≤ windowSize) (hhi : windowSize < 2 ^ 31) (hchunk : chunk < shape.nChunks) :
    shape.chunkRange windowSize chunk =
      (((min (max (shape.chunkBase + chunk * shape.chunkSize)
          (windowStart windowSize (shape.nTokensKv - 1)))
          (min (shape.chunkBase + chunk * shape.chunkSize + shape.chunkSize)
            shape.nTokensKv) : Nat) : Int),
        ((min (shape.chunkBase + chunk * shape.chunkSize + shape.chunkSize)
          shape.nTokensKv : Nat) : Int)) := by
  have htokens := tokens_le hsize
  have hlast := chunk_end_le hchunk
  have hindex : chunk ≤ chunk * shape.chunkSize := Nat.le_mul_of_pos_right _ hsize
  unfold chunkRange windowStart
  dsimp only
  rw [asI32_eq (x := (shape.nTokensKv : Int)) (by omega) (by omega),
    asI32_eq (x := (shape.chunkSize : Int)) (by omega) (by omega),
    asI32_eq (x := (shape.chunkBase : Int)) (by omega) (by omega),
    asI32_eq (x := (chunk : Int)) (by omega) (by omega), ← Int.natCast_mul]
  generalize chunk * shape.chunkSize = start at hlast hindex ⊢
  rw [asI32_eq (x := (start : Int)) (by omega) (by omega),
    asI32_eq (x := (shape.chunkBase : Int) + (start : Int)) (by omega) (by omega),
    asI32_eq (x := (shape.nTokensKv : Int) - 1) (by omega) (by omega),
    asI32_eq (x := (shape.chunkBase : Int) + start + shape.chunkSize) (by omega) (by omega)]
  by_cases hwindow : 0 < windowSize
  · rw [asI32_eq (x := (shape.nTokensKv : Int) - 1 - windowSize) (by omega) (by omega),
      asI32_eq (x := (shape.nTokensKv : Int) - 1 - windowSize + 1) (by omega) (by omega)]
    simp only [if_pos hwindow, Prod.mk.injEq]
    constructor
    · split <;> split <;> split <;> split <;> omega
    · split <;> omega
  · simp only [if_neg hwindow, Prod.mk.injEq]
    constructor
    · split <;> split <;> omega
    · split <;> omega

/-- Below the `int` range's end the grid visits the rows of the exact chunks. -/
theorem rows_eq (hsize : 0 < shape.chunkSize) (hpos : 0 < shape.nTokensKv)
    (hend : shape.chunkBase + shape.nChunks * shape.chunkSize < 2 ^ 31)
    (hlo : -2 ^ 31 ≤ windowSize) (hhi : windowSize < 2 ^ 31) :
    shape.rows windowSize = (shape.keys windowSize).map Int.ofNat := by
  have hcount : shape.nChunks ≤ shape.nChunks * shape.chunkSize :=
    Nat.le_mul_of_pos_right _ hsize
  unfold rows keys
  rw [Nat.mod_eq_of_lt (by omega), List.map_flatMap]
  apply List.flatMap_congr
  intro chunk hchunk
  unfold chunkRows chunkKeys span
  dsimp only
  rw [chunkRange_eq hsize hpos hend hlo hhi (List.mem_range.mp hchunk), List.range'_eq_map_range,
    List.map_map]
  have hlen : ∀ lo hi : Nat, ((hi : Int) - (lo : Int)).toNat = hi - lo := by
    intro lo hi
    omega
  rw [hlen]
  apply List.map_congr_left
  intro i _
  simp only [Function.comp, Int.ofNat_eq_natCast, Int.natCast_add]

theorem chunkRange_end_le (shape : AttnSplitkShape) (windowSize : Int) (chunk : Nat) :
    (shape.chunkRange windowSize chunk).2 ≤ asI32 shape.nTokensKv := by
  unfold chunkRange
  dsimp only
  split <;> omega

theorem mem_chunkRows (h : t ∈ shape.chunkRows windowSize chunk) :
    t < (shape.chunkRange windowSize chunk).2 := by
  unfold chunkRows at h
  obtain ⟨i, hi, rfl⟩ := List.mem_map.mp h
  have hi := List.mem_range.mp hi
  omega

theorem chunkRows_empty
    (h : (shape.chunkRange windowSize chunk).2 ≤ (shape.chunkRange windowSize chunk).1) :
    shape.chunkRows windowSize chunk = [] := by
  unfold chunkRows
  dsimp only
  rw [Int.toNat_of_nonpos (by omega)]
  rfl

/-- A chunk before the last stops before the last token. -/
theorem last_not_mem_early (hsize : 0 < shape.chunkSize) (htokens : shape.nTokensKv < 2 ^ 31)
    (hlt : shape.chunkBase < shape.nTokensKv)
    (hchunk : chunk + 1 < shape.nChunks) :
    (shape.nTokensKv : Int) - 1 ∉ shape.chunkRows windowSize chunk := by
  intro hmem
  have hrow := mem_chunkRows hmem
  have hlast := chunk_end_le hchunk
  have hround := divCeil_mul_lt hsize (shape.nTokensKv - shape.chunkBase)
  have hindex : chunk ≤ chunk * shape.chunkSize := Nat.le_mul_of_pos_right _ hsize
  rw [Nat.succ_mul] at hlast
  unfold nChunks at hlast
  unfold chunkRange at hrow
  dsimp only at hrow
  rw [asI32_eq (x := (shape.chunkSize : Int)) (by omega) (by omega),
    asI32_eq (x := (shape.chunkBase : Int)) (by omega) (by omega),
    asI32_eq (x := (chunk : Int)) (by omega) (by omega), ← Int.natCast_mul] at hrow
  generalize chunk * shape.chunkSize = start at hlast hindex hrow
  rw [asI32_eq (x := (start : Int)) (by omega) (by omega),
    asI32_eq (x := (shape.chunkBase : Int) + (start : Int)) (by omega) (by omega),
    asI32_eq (x := (shape.chunkBase : Int) + start + shape.chunkSize) (by omega) (by omega)]
    at hrow
  split at hrow <;> omega

/-- The last chunk is empty when its end is past the `int` range. -/
theorem last_chunk_empty (hsize : 0 < shape.chunkSize) (htokens : shape.nTokensKv < 2 ^ 31)
    (hlt : shape.chunkBase < shape.nTokensKv)
    (hmany : 1 < shape.nChunks) (hchunk : chunk + 1 = shape.nChunks)
    (hend : 2 ^ 31 ≤ shape.chunkBase + shape.nChunks * shape.chunkSize) :
    shape.chunkRows windowSize chunk = [] := by
  have hround := divCeil_mul_lt hsize (shape.nTokensKv - shape.chunkBase)
  have hindex : chunk ≤ chunk * shape.chunkSize := Nat.le_mul_of_pos_right _ hsize
  have hone : shape.chunkSize ≤ chunk * shape.chunkSize :=
    Nat.le_mul_of_pos_left _ (by omega)
  rw [← hchunk, Nat.succ_mul] at hend
  change shape.nChunks * shape.chunkSize < _ at hround
  rw [← hchunk, Nat.succ_mul] at hround
  apply chunkRows_empty
  unfold chunkRange
  dsimp only
  rw [asI32_eq (x := (shape.nTokensKv : Int)) (by omega) (by omega),
    asI32_eq (x := (shape.chunkSize : Int)) (by omega) (by omega),
    asI32_eq (x := (shape.chunkBase : Int)) (by omega) (by omega),
    asI32_eq (x := (chunk : Int)) (by omega) (by omega), ← Int.natCast_mul]
  generalize chunk * shape.chunkSize = start at hround hindex hone hend ⊢
  rw [asI32_eq (x := (start : Int)) (by omega) (by omega),
    asI32_eq (x := (shape.chunkBase : Int) + (start : Int)) (by omega) (by omega)]
  have hpast := asI32_past (x := (shape.chunkBase : Int) + start + shape.chunkSize) (by omega)
    (by omega)
  generalize asI32 ((shape.chunkBase : Int) + start + shape.chunkSize) = tEnd at hpast ⊢
  generalize asI32 (asI32 (asI32 ((shape.nTokensKv : Int) - 1) - windowSize) + 1) = swaMin
  generalize (if swaMin < 0 then 0 else swaMin) = swaMin
  have hstart : (shape.chunkBase : Int) + start ≤
      if 0 < windowSize then
        if (shape.chunkBase : Int) + start < swaMin then swaMin else shape.chunkBase + start
      else shape.chunkBase + start := by
    split
    · split <;> omega
    · exact Int.le_refl _
  exact Int.le_of_eq
    (by rw [if_neg (show ¬ (shape.nTokensKv : Int) < tEnd by omega), if_pos (by omega)])

/-- Past the `int` range's end the grid misses the last token. -/
theorem last_not_mem (hsize : 0 < shape.chunkSize) (hlt : shape.chunkBase < shape.nTokensKv)
    (hmany : 1 < shape.nChunks)
    (hend : 2 ^ 31 ≤ shape.chunkBase + shape.nChunks * shape.chunkSize) :
    (shape.nTokensKv : Int) - 1 ∉ shape.rows windowSize := by
  intro hmem
  obtain ⟨chunk, hchunk, hrow⟩ := List.mem_flatMap.mp hmem
  have hchunk : chunk < shape.nChunks :=
    Nat.lt_of_lt_of_le (List.mem_range.mp hchunk) (Nat.mod_le _ _)
  by_cases htokens : shape.nTokensKv < 2 ^ 31
  · by_cases hlast : chunk + 1 = shape.nChunks
    · rw [last_chunk_empty hsize htokens hlt hmany hlast hend] at hrow
      exact List.not_mem_nil hrow
    · exact last_not_mem_early hsize htokens hlt (by omega) hrow
  · have hbound := mem_chunkRows hrow
    have hle := shape.chunkRange_end_le windowSize chunk
    have hint := asI32_lt shape.nTokensKv
    omega

end AttnSplitkShape

namespace DecodeCall

variable {call : DecodeCall}

theorem kernelWindow_bounds (call : DecodeCall) :
    -2 ^ 31 ≤ call.kernelWindow ∧ call.kernelWindow < 2 ^ 31 := by
  have hlo := call.windowSize.le_toInt
  have hhi := call.windowSize.toInt_lt
  unfold kernelWindow
  split <;> omega

theorem effTokensKv_le (call : DecodeCall) : call.effTokensKv ≤ call.nTokensKv.toNat := by
  unfold effTokensKv
  split
  · rename_i hslid
    have hlt : call.window < call.nTokensKv.toNat := by simpa using (Bool.and_eq_true_iff.mp hslid).2
    omega
  · exact Nat.le_refl _

theorem effTokensKv_pos (hn : 1 ≤ call.nTokensKv.toNat) : 0 < call.effTokensKv := by
  unfold effTokensKv
  split
  · rename_i hslid
    have hpos : 0 < call.windowSize.toInt := by
      simpa using (Bool.and_eq_true_iff.mp (Bool.and_eq_true_iff.mp hslid).1).2
    unfold window
    omega
  · exact hn

/-- The rows past the moved pointer are the last of the cache. -/
theorem effTokensKv_offset (call : DecodeCall) :
    call.effTokensKv + call.offsetTokens = call.nTokensKv.toNat := by
  have hle := call.effTokensKv_le
  unfold effTokensKv at hle
  unfold effTokensKv offsetTokens
  split
  · rename_i hslid
    rw [if_pos hslid] at hle
    omega
  · rfl

/-- The first chunk begins where the kernel's window does. -/
theorem chunkBase_eq (hn : 1 ≤ call.nTokensKv.toNat) :
    call.chunkBase = windowStart call.kernelWindow (call.effTokensKv - 1) := by
  have hpos := effTokensKv_pos hn
  unfold chunkBase kernelWindow windowStart
  by_cases hring : call.ringActive = true
  · simp only [hring, Bool.true_and, decide_eq_true_eq, if_true]
    split
    · unfold window
      omega
    · rfl
  · simp [hring]

theorem chunkBase_lt (hn : 1 ≤ call.nTokensKv.toNat) : call.chunkBase < call.effTokensKv := by
  have hpos := effTokensKv_pos hn
  have hle := windowStart_le call.kernelWindow (call.effTokensKv - 1)
  rw [← chunkBase_eq hn] at hle
  omega

/-- The rows the kernel's window leaves, at their place in the cache, are the live rows. -/
theorem decodeKeys_offset (call : DecodeCall) :
    ((decodeKeys call.effTokensKv call.kernelWindow).map Int.ofNat).map
      (fun t : Int => t + (call.offsetTokens : Int)) = call.liveRows := by
  have hshift : ∀ lo hi k : Nat, ((span lo hi).map Int.ofNat).map (fun t : Int => t + (k : Int)) =
      (span (lo + k) (hi + k)).map Int.ofNat := by
    intro lo hi k
    rw [Nat.add_comm lo, Nat.add_comm hi, ← span_map_add, List.map_map, List.map_map]
    apply List.map_congr_left
    intro t _
    simp only [Function.comp, Int.ofNat_eq_natCast, Int.natCast_add]
    exact Int.add_comm _ _
  have hsum := call.effTokensKv_offset
  unfold liveRows decodeKeys
  rw [hshift, hsum]
  congr 2
  unfold effTokensKv offsetTokens kernelWindow slid windowStart window
  generalize call.windowSize.toInt = w
  cases call.ringActive with
  | true => simp
  | false =>
    by_cases hwindow : 0 < w
    · by_cases hslid : w.toNat < call.nTokensKv.toNat
      · simp [hwindow, hslid]
        omega
      · simp [hwindow, hslid]
        omega
    · simp [hwindow]

/-- A split-K launch is of a window longer than its chunk. -/
theorem path_splitk (hpath : call.path maxChunks = some (.splitk shape)) :
    shape = ⟨call.effTokensKv, splitkChunkSizeWord call.chunkLen maxChunks, call.chunkBase⟩ ∧
      0 < shape.chunkSize ∧ 1 < shape.nChunks ∧ shape.nChunks ≤ maxChunks ∧
        call.partials = true := by
  unfold path at hpath
  dsimp only at hpath
  split at hpath
  · cases hpath
  · rename_i hsize
    split at hpath
    · rename_i htaken
      cases hpath
      exact ⟨rfl, Nat.pos_of_ne_zero hsize, htaken.2.1, htaken.2.2.1, htaken.2.2.2⟩
    · cases hpath

theorem path_of_long (hmax : 1 ≤ maxChunks)
    (hword : splitkChunkSizeWord call.chunkLen maxChunks =
      splitkChunkSize call.chunkLen maxChunks)
    (hpartials : call.partials = true)
    (hlong : splitkChunkSize call.chunkLen maxChunks < call.chunkLen) :
    call.path maxChunks = some (.splitk
      ⟨call.effTokensKv, splitkChunkSize call.chunkLen maxChunks, call.chunkBase⟩) := by
  have hpos : 0 < call.chunkLen := by omega
  have hsize := splitkChunkSize_pos hpos hmax
  have hlen : 256 < call.chunkLen := by
    refine Nat.lt_of_not_le fun hshort => ?_
    unfold splitkChunkSize at hlong
    rw [if_pos hshort] at hlong
    exact Nat.lt_irrefl _ hlong
  have heff : 256 < call.effTokensKv := by
    unfold chunkLen at hlen
    omega
  unfold path
  dsimp only
  rw [hword, if_neg (by omega), if_pos]
  exact ⟨heff, (one_lt_divCeil hsize).mpr hlong, splitkChunkSize_capacity hpos hmax, hpartials⟩

theorem chunkSize_word (hmax : 1 ≤ maxChunks)
    (hround : maxChunks = 1 → call.nTokensKv.toNat ≤ 2 ^ 64 - 32) :
    splitkChunkSizeWord call.chunkLen maxChunks = splitkChunkSize call.chunkLen maxChunks := by
  have hlen : call.chunkLen ≤ call.nTokensKv.toNat :=
    Nat.le_trans (Nat.sub_le _ _) call.effTokensKv_le
  have hword := call.nTokensKv.toNat_lt
  exact splitkChunkSizeWord_eq (by omega) hmax fun hone => Nat.le_trans hlen (hround hone)

/-- A last chunk that ends past the `int` range leaves the last token out. -/
theorem lastEnd_of_tiles (hn : 1 ≤ call.nTokensKv.toNat) (hmax : 1 ≤ maxChunks)
    (h : call.Tiles maxChunks) (hpartials : call.partials = true)
    (hlong : splitkChunkSize call.chunkLen maxChunks < call.chunkLen) :
    call.lastEnd maxChunks < 2 ^ 31 := by
  have hround := (splitkChunkSizeWord_pos call.nTokensKv.toNat_lt hn hmax).mp h.1
  refine Nat.lt_of_not_le fun hend => ?_
  have hpath := path_of_long hmax (chunkSize_word hmax hround) hpartials hlong
  have hsize := splitkChunkSize_pos (show 0 < call.chunkLen by omega) hmax
  have hmiss : (call.effTokensKv : Int) - 1 ∉ AttnSplitkShape.rows
      ⟨call.effTokensKv, splitkChunkSize call.chunkLen maxChunks, call.chunkBase⟩
      call.kernelWindow :=
    AttnSplitkShape.last_not_mem hsize (chunkBase_lt hn) ((one_lt_divCeil hsize).mpr hlong) hend
  have hlast : (call.nTokensKv.toNat : Int) - 1 ∈ call.liveRows := by
    refine List.mem_map.mpr ⟨call.nTokensKv.toNat - 1, ?_, ?_⟩
    · have hle := windowStart_le call.windowSize.toInt (call.nTokensKv.toNat - 1)
      exact mem_span.mpr ⟨hle, by omega⟩
    · simp only [Int.ofNat_eq_natCast]
      omega
  rw [← (h.2 _ hpath).1] at hlast
  obtain ⟨t, ht, hat⟩ := List.mem_map.mp hlast
  have hsum := call.effTokensKv_offset
  have hrow : t = (call.effTokensKv : Int) - 1 := by omega
  exact hmiss (hrow ▸ ht)

/-- The chunk size is positive and a split-K launch tiles the live rows exactly when the
chunk size's round-up does not wrap and the last chunk ends below the `int` range's end. -/
theorem tiles_iff_fits (call : DecodeCall) (maxChunks : UInt64)
    (hn : 1 ≤ call.nTokensKv.toNat) (hmax : 1 ≤ maxChunks.toNat) :
    call.Tiles maxChunks.toNat ↔ call.Fits maxChunks.toNat := by
  have hwindow := call.kernelWindow_bounds
  have heff := effTokensKv_pos hn
  constructor
  · intro h
    have hround := (splitkChunkSizeWord_pos call.nTokensKv.toNat_lt hn hmax).mp h.1
    exact ⟨hround, lastEnd_of_tiles hn hmax h⟩
  · rintro ⟨hround, hend⟩
    have hword := chunkSize_word hmax hround
    refine ⟨(splitkChunkSizeWord_pos call.nTokensKv.toNat_lt hn hmax).mpr hround, ?_⟩
    intro shape hpath
    obtain ⟨rfl, hsize, hmany, hcapacity, hpartials⟩ := path_splitk hpath
    rw [hword] at hsize hmany hcapacity ⊢
    have hlong := (one_lt_divCeil hsize).mp hmany
    refine ⟨?_, hcapacity⟩
    rw [AttnSplitkShape.rows_eq hsize heff (hend hpartials hlong) hwindow.1 hwindow.2,
      AttnSplitkShape.keys_eq _ hsize (chunkBase_eq hn)]
    exact call.decodeKeys_offset

/-- 1000 tokens under a window of 300 in a wrapped ring. -/
theorem ring_window_tiled :
    DecodeCall.Tiles ⟨1000, 300, true, true⟩ 32 :=
  (tiles_iff_fits ⟨1000, 300, true, true⟩ 32 (by decide) (by decide)).mpr
    ⟨by decide, fun _ _ => by decide⟩

/-- The longest `usize` in one chunk is a chunk of no tokens, and 2147483643 tokens in 32
chunks lose the last chunk. -/
theorem last_chunk_overflows :
    ¬ DecodeCall.Tiles ⟨18446744073709551615, 0, false, true⟩ 1 ∧
      ¬ DecodeCall.Tiles ⟨2147483643, 0, false, true⟩ 32 := by
  constructor
  · intro h
    have hzero := splitkChunkSizeWord_wraps (show 18446744073709551615 < 2 ^ 64 by decide)
      (by decide)
    exact absurd h.1 (hzero ▸ Nat.lt_irrefl 0)
  · intro h
    exact absurd (lastEnd_of_tiles (by decide) (by decide) h rfl (by decide)) (by decide)

end DecodeCall

end Flambeau.Forward.Attn
