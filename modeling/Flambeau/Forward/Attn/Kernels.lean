import Flambeau.Systems.Spans

namespace Flambeau.Forward.Attn
open Systems

/-- The window and the ring a kernel is launched with; 0 is none. -/
structure AttnKnobs where
  windowSize : Int
  ringDepth : Nat
deriving Repr, DecidableEq

/-- `(ring_depth > 0) ? (t % ring_depth) : t`. -/
def physRow (ringDepth t : Nat) : Nat := if 0 < ringDepth then t % ringDepth else t

/-- `max(0, qpos - window_size + 1)` under a window. -/
def windowStart (windowSize : Int) (qpos : Nat) : Nat :=
  if 0 < windowSize then qpos + 1 - windowSize.toNat else 0

/-- The positions whose keys the query at `qpos` is for. -/
def liveWindow (windowSize : Int) (qpos : Nat) : List Nat :=
  span (windowStart windowSize qpos) (qpos + 1)

/-- `(phys_row, src_row, n_rows)` twice; the second is the wrap tail. -/
def ringAppendSegments (writePos nTokens ringDepth : Nat) : List (Nat × Nat × Nat) :=
  if ringDepth = 0 then [(writePos, 0, nTokens), (0, 0, 0)]
  else
    let physStart := writePos % ringDepth
    let first := min (ringDepth - physStart) nTokens
    [(physStart, 0, first), (0, first, nTokens - first)]

/-- Source row and physical row of each row the segments copy. -/
def appendRows (writePos nTokens ringDepth : Nat) : List (Nat × Nat) :=
  (ringAppendSegments writePos nTokens ringDepth).flatMap fun seg =>
    (List.range seg.2.2).map fun i => (seg.2.1 + i, seg.1 + i)

/-- Rows that a ring-buffer attention read can touch. -/
def ringCacheRows (nTokens ringDepth : Nat) : Nat :=
  if 0 < ringDepth then min nTokens ringDepth else nTokens

/-- `attention_decode_f16`, its Q8 sibling and one slot of the batched kernel: the
query is the last of `nTokens`. -/
def decodeKeys (nTokens : Nat) (windowSize : Int) : List Nat :=
  span (windowStart windowSize (nTokens - 1)) nTokens

def maxSplitkChunks : Nat := 32

/-- `n.next_multiple_of(m)`. -/
def nextMultipleOf (n m : Nat) : Nat := divCeil n m * m

def splitkChunkSize (nTokensKv maxChunks : Nat) : Nat :=
  if nTokensKv ≤ 256 then nTokensKv
  else
    let base := if nTokensKv ≤ 1024 then 128 else if nTokensKv ≤ 2048 then 256 else 512
    if divCeil nTokensKv base ≤ maxChunks then base
    else nextMultipleOf (divCeil nTokensKv maxChunks) 32

structure AttnSplitkShape where
  nTokensKv : Nat
  chunkSize : Nat
  chunkBase : Nat
deriving Repr, DecidableEq

namespace AttnSplitkShape

def nChunks (shape : AttnSplitkShape) : Nat :=
  divCeil (shape.nTokensKv - shape.chunkBase) shape.chunkSize

/-- One chunk, raised to the window's start; one before the window is empty. -/
def chunkKeys (shape : AttnSplitkShape) (windowSize : Int) (chunk : Nat) : List Nat :=
  let tStart := shape.chunkBase + chunk * shape.chunkSize
  let tEnd := min (tStart + shape.chunkSize) shape.nTokensKv
  span (min (max tStart (windowStart windowSize (shape.nTokensKv - 1))) tEnd) tEnd

/-- The combine pass merges the chunks in order. -/
def keys (shape : AttnSplitkShape) (windowSize : Int) : List Nat :=
  (List.range shape.nChunks).flatMap (shape.chunkKeys windowSize)

end AttnSplitkShape

structure AttnPrefillShape where
  nQTokens : Nat
  nKTokens : Nat
  qOffset : Nat
deriving Repr, DecidableEq

namespace AttnPrefillShape

/-- Query `q` attends to keys before it. -/
def limit (shape : AttnPrefillShape) (q : Nat) : Nat :=
  min (shape.qOffset + q + 1) shape.nKTokens

/-- The oracle kernel: one block for each query. -/
def keys (shape : AttnPrefillShape) (windowSize : Int) (q : Nat) : List Nat :=
  span (windowStart windowSize (shape.qOffset + q)) (shape.limit q)

end AttnPrefillShape

/-- A flash tile: `br` queries share the `bc` rows of K and V staged in LDS. -/
structure Tile where
  br : Nat
  bc : Nat
deriving Repr, DecidableEq

namespace Tile

variable (tile : Tile) (shape : AttnPrefillShape) (windowSize : Int)

/-- The cutoff of the tile's last query. -/
def blockLimit (qTile : Nat) : Nat :=
  min (shape.qOffset + min (qTile * tile.br + tile.br - 1) (shape.nQTokens - 1) + 1)
    shape.nKTokens

/-- The window of the tile's first query. -/
def blockSwaMin (qTile : Nat) : Nat := windowStart windowSize (shape.qOffset + qTile * tile.br)

/-- The rows that the chunk loop of a tile goes over. -/
def chunkRows (qTile : Nat) : List Nat :=
  (span (tile.blockSwaMin shape windowSize qTile / tile.bc)
      (divCeil (tile.blockLimit shape qTile) tile.bc)).flatMap fun chunk =>
    span (chunk * tile.bc) (chunk * tile.bc + tile.bc)

/-- The rows loaded into LDS; those past the cutoff are zeros. -/
def staged (qTile : Nat) : List Nat :=
  (tile.chunkRows shape windowSize qTile).filter (· < tile.blockLimit shape qTile)

/-- The rows that are not masked for query `q`. -/
def keys (q : Nat) : List Nat :=
  (tile.chunkRows shape windowSize (q / tile.br)).filter fun row =>
    decide (windowStart windowSize (shape.qOffset + q) ≤ row) && decide (row < shape.limit q)

end Tile

theorem appendRows_absolute (writePos nTokens : Nat) :
    appendRows writePos nTokens 0 =
      (List.range nTokens).map fun i => (i, writePos + i) := by
  simp [appendRows, ringAppendSegments]

/-- The two segments of a chunk that fits the ring put each row at its own place. -/
theorem appendRows_ring (hring : 0 < ringDepth) (hfits : nTokens ≤ ringDepth) :
    appendRows writePos nTokens ringDepth =
      (List.range nTokens).map fun i => (i, (writePos + i) % ringDepth) := by
  have hphys := Nat.mod_lt writePos hring
  unfold appendRows ringAppendSegments
  rw [if_neg (Nat.pos_iff_ne_zero.mp hring)]
  simp only [List.flatMap_cons, List.flatMap_nil, List.append_nil]
  have hsplit : nTokens = min (ringDepth - writePos % ringDepth) nTokens +
      (nTokens - min (ringDepth - writePos % ringDepth) nTokens) := by omega
  conv => rhs; rw [hsplit]
  rw [List.range_add, List.map_append, List.map_map]
  congr 1
  · apply List.map_congr_left
    intro i hi
    have hi := List.mem_range.mp hi
    have hmod : (writePos + i) % ringDepth = writePos % ringDepth + i := by
      rw [Nat.add_mod, Nat.mod_eq_of_lt (show i < ringDepth by omega)]
      exact Nat.mod_eq_of_lt (by omega)
    rw [hmod, Nat.zero_add]
  · apply List.map_congr_left
    intro i hi
    have hi := List.mem_range.mp hi
    have hfirst : min (ringDepth - writePos % ringDepth) nTokens =
        ringDepth - writePos % ringDepth := by omega
    simp only [Function.comp, hfirst, Nat.zero_add, Prod.mk.injEq, true_and]
    have hdiv := Nat.div_add_mod writePos ringDepth
    have hwrap : writePos + (ringDepth - writePos % ringDepth + i) =
        i + ringDepth * (writePos / ringDepth + 1) := by
      rw [Nat.mul_add, Nat.mul_one]
      omega
    rw [hwrap, Nat.add_mul_mod_self_left]
    exact (Nat.mod_eq_of_lt (by omega)).symm

theorem appendRows_phys (hfits : 0 < ringDepth → nTokens ≤ ringDepth) :
    appendRows writePos nTokens ringDepth =
      (List.range nTokens).map fun i => (i, physRow ringDepth (writePos + i)) := by
  unfold physRow
  by_cases hring : 0 < ringDepth
  · simp only [if_pos hring]
    exact appendRows_ring hring (hfits hring)
  · simp only [if_neg hring]
    have hzero : ringDepth = 0 := by omega
    rw [hzero]
    exact appendRows_absolute writePos nTokens

theorem divCeil_pos (hn : 0 < n) (hsize : 0 < size) : 0 < divCeil n size :=
  Nat.div_pos (by omega) hsize

theorem splitkChunkSize_pos (h : 0 < nTokensKv) (hmax : 0 < maxChunks) :
    0 < splitkChunkSize nTokensKv maxChunks := by
  unfold splitkChunkSize
  by_cases hshort : nTokensKv ≤ 256
  · rw [if_pos hshort]
    exact h
  · rw [if_neg hshort]
    have hmany : 0 < nextMultipleOf (divCeil nTokensKv maxChunks) 32 := by
      have hceil := divCeil_pos h hmax
      exact Nat.mul_pos (divCeil_pos hceil (by omega)) (by omega)
    dsimp only
    repeat' split
    all_goals omega

theorem windowStart_mono (windowSize : Int) (h : p ≤ q) :
    windowStart windowSize p ≤ windowStart windowSize q := by
  unfold windowStart
  split
  · omega
  · exact Nat.le_refl 0

theorem windowStart_le (windowSize : Int) (qpos : Nat) : windowStart windowSize qpos ≤ qpos := by
  unfold windowStart
  split <;> omega

theorem decodeKeys_last (windowSize : Int) (qpos : Nat) :
    decodeKeys (qpos + 1) windowSize = liveWindow windowSize qpos := by
  unfold decodeKeys liveWindow
  rw [Nat.add_sub_cancel]

/-- Split-K from the window's start covers what the single-block kernel covers. -/
theorem AttnSplitkShape.keys_eq (shape : AttnSplitkShape) (hsize : 0 < shape.chunkSize)
    (hbase : shape.chunkBase = windowStart windowSize (shape.nTokensKv - 1)) :
    shape.keys windowSize = decodeKeys shape.nTokensKv windowSize := by
  have hchunk : ∀ c, shape.chunkKeys windowSize c =
      span (shape.chunkBase + c * shape.chunkSize)
        (min (shape.chunkBase + (c + 1) * shape.chunkSize) shape.nTokensKv) := by
    intro c
    unfold AttnSplitkShape.chunkKeys
    simp only [← hbase]
    rw [Nat.max_eq_left (Nat.le_add_right ..), Nat.succ_mul, ← Nat.add_assoc]
    by_cases hend : shape.chunkBase + c * shape.chunkSize ≤ shape.nTokensKv
    · rw [Nat.min_eq_left (by omega)]
    · rw [span_empty (by omega), span_empty (by omega)]
  have hcover := le_divCeil_mul hsize (shape.nTokensKv - shape.chunkBase)
  unfold AttnSplitkShape.keys AttnSplitkShape.nChunks decodeKeys
  rw [← hbase, funext hchunk, span_chunks, Nat.min_eq_right (by omega)]

/-- For a query of the batch the tile keeps the rows that the oracle kernel visits. -/
theorem Tile.keys_eq (tile : Tile) (shape : AttnPrefillShape) (windowSize : Int)
    (hbr : 0 < tile.br) (hbc : 0 < tile.bc) (hq : q < shape.nQTokens) :
    tile.keys shape windowSize q = shape.keys windowSize q := by
  unfold Tile.keys Tile.chunkRows AttnPrefillShape.keys
  rw [span_blocks]
  have htile := Nat.div_add_mod q tile.br
  have hlast := Nat.mod_lt q hbr
  rw [Nat.mul_comm] at htile
  apply span_filter
  · have hmin : tile.blockSwaMin shape windowSize (q / tile.br) ≤
        windowStart windowSize (shape.qOffset + q) := by
      apply windowStart_mono
      omega
    exact Nat.le_trans (Nat.div_mul_le_self _ _) hmin
  · have hlimit : shape.limit q ≤ tile.blockLimit shape (q / tile.br) := by
      unfold AttnPrefillShape.limit Tile.blockLimit
      omega
    exact Nat.le_trans hlimit (le_divCeil_mul hbc _)

/-- The rows a tile stages are before its last query's cutoff. -/
theorem Tile.staged_lt (tile : Tile) (h : row ∈ tile.staged shape windowSize qTile) :
    row < tile.blockLimit shape qTile := by
  unfold Tile.staged at h
  simpa using (List.mem_filter.mp h).2

end Flambeau.Forward.Attn
