import Flambeau.Forward.Loader.WeightShards
import Flambeau.Forward.Attn.SplitK

namespace Flambeau.Ops
open Systems Forward Forward.Attn

/-- Elements of a weight block, 32 or the 256 of a super-block. -/
def blockElems : QDtype → Nat
  | .q8_0 | .q4_0 | .q4_1 | .q5_0 | .q5_1 => 32
  | .q2_K | .q3_K | .q4_K | .q5_K | .q6_K | .q8_K => 256
  | .iq4_NL => 32
  | .iq4_XS => 256
  | .iq3_XXS | .iq3_S => 256
  | .iq2_XXS | .iq2_XS | .iq2_S | .iq1_S | .iq1_M => 256

/-- Blocks of 36 bytes row by row, or of 144 bytes (four of the former) column by column. -/
inductive ActLayout where
  | q8_1
  | q8_1Mmq
deriving DecidableEq

/-- The kernels by their stem; the batched ones have an entry for each number of slots. -/
inductive Kernel where
  | mmvqQ41Batched (slots : Nat)
  | mmvqQ80RowTileBatched (slots : Nat)
  | mmvqQ4KBatched (slots : Nat)
  | mmvqQ6KBatched (slots : Nat)
  | mmvqQ40RowTileBatched (slots : Nat)
  | mmvqQ5KRowTileBatched (slots : Nat)
  | mmvqQ40
  | mmvqQ50
  | mmvqQ51
  | mmvqQ80T128Vdr2
  | mmvqQ4KR2Dp4a
  | mmvqIq4XsDp4a
  | mmqIq4XsWave64
  | mmvqIq4NlDp4a
  | mmvqIq3XxsDp4a
  | mmvqIq3SDp4a
  | mmqIq3SWave64
  | mmvqIq2XxsDp4a
  | mmvqIq2XsDp4a
  | mmvqIq2SDp4a
  | mmvqIq1SDp4a
  | mmvqIq1MDp4a
  | mmvqQ41T128
  | mmvqQ5KDp4a
  | mmvqQ5KR2
  | mmqQ5KWave64
  | mmvqQ6KDp4a
  | mmvqQ8K
  | mmvqQ2KR2Dp4a
  | mmvqQ3KR2Dp4a
  | mmqQ80Wave64Tile16
  | mmqQ41Wave64
  | mmqQ414warpLds
  | mmqQ404warpLds
  | mmqQ40Wave64
  | mmqQ50Wave64
  | mmqQ51Wave64
  | mmqQ4KTurbo
  | mmqQ4KWave64
  | mmqQ6KWave64
  | mmqQ8KWave64
  | mmqQ2KWave64
  | mmqQ3KWave64
  | mmqQ80Oracle
  | mmqIq4NlWave64
  | mmqIq3XxsWave64
  | mmqIq2XxsWave64
  | mmqIq2XsWave64
  | mmqIq2SWave64
  | mmqIq1SWave64
  | mmqIq1MWave64
deriving DecidableEq

/-- What a kernel's source fixes. -/
structure KernelShape where
  /-- The type of its weight blocks. -/
  weight : QDtype
  threads : Nat
  /-- Weight rows of a block. -/
  rows : Nat
  /-- Activation rows of a block. -/
  cols : Nat
  /-- Rows past the last one are not stored. -/
  checked : Bool
  layout : ActLayout
deriving DecidableEq

namespace Kernel

def mmvqShape (weight : QDtype) (threads rows : Nat) : KernelShape :=
  ⟨weight, threads, rows, 1, true, .q8_1⟩

def batchedShape (weight : QDtype) (threads rows slots : Nat) : KernelShape :=
  ⟨weight, threads, rows, slots, true, .q8_1⟩

def wave64Shape (weight : QDtype) (cols : Nat) : KernelShape := ⟨weight, 64, 64, cols, true, .q8_1⟩

def ldsShape (weight : QDtype) (cols : Nat) (checked : Bool) : KernelShape :=
  ⟨weight, 256, 128, cols, checked, .q8_1Mmq⟩

def shape : Kernel → KernelShape
  | .mmvqQ41Batched slots => batchedShape .q4_1 256 1 slots
  | .mmvqQ80RowTileBatched slots => batchedShape .q8_0 256 4 slots
  | .mmvqQ4KBatched slots => batchedShape .q4_K 64 1 slots
  | .mmvqQ6KBatched slots => batchedShape .q6_K 64 1 slots
  | .mmvqQ40RowTileBatched slots => batchedShape .q4_0 256 4 slots
  | .mmvqQ5KRowTileBatched slots => batchedShape .q5_K 256 8 slots
  | .mmvqQ40 => mmvqShape .q4_0 256 1
  | .mmvqQ50 => mmvqShape .q5_0 256 1
  | .mmvqQ51 => mmvqShape .q5_1 256 1
  | .mmvqQ80T128Vdr2 => mmvqShape .q8_0 128 1
  | .mmvqQ4KR2Dp4a => mmvqShape .q4_K 64 2
  | .mmvqIq4XsDp4a => mmvqShape .iq4_XS 256 1
  | .mmqIq4XsWave64 => wave64Shape .iq4_XS 8
  | .mmvqIq4NlDp4a => mmvqShape .iq4_NL 256 1
  | .mmvqIq3XxsDp4a => mmvqShape .iq3_XXS 256 1
  | .mmvqIq3SDp4a => mmvqShape .iq3_S 256 1
  | .mmqIq3SWave64 => wave64Shape .iq3_S 8
  | .mmvqIq2XxsDp4a => mmvqShape .iq2_XXS 256 1
  | .mmvqIq2XsDp4a => mmvqShape .iq2_XS 256 1
  | .mmvqIq2SDp4a => mmvqShape .iq2_S 256 1
  | .mmvqIq1SDp4a => mmvqShape .iq1_S 256 1
  | .mmvqIq1MDp4a => mmvqShape .iq1_M 256 1
  | .mmvqQ41T128 => mmvqShape .q4_1 128 1
  | .mmvqQ5KDp4a => mmvqShape .q5_K 256 1
  | .mmvqQ5KR2 => mmvqShape .q5_K 64 2
  | .mmqQ5KWave64 => wave64Shape .q5_K 8
  | .mmvqQ6KDp4a => mmvqShape .q6_K 64 1
  | .mmvqQ8K => mmvqShape .q8_K 256 1
  | .mmvqQ2KR2Dp4a => mmvqShape .q2_K 64 2
  | .mmvqQ3KR2Dp4a => mmvqShape .q3_K 64 2
  | .mmqQ80Wave64Tile16 => wave64Shape .q8_0 16
  | .mmqQ41Wave64 => wave64Shape .q4_1 8
  | .mmqQ414warpLds => ldsShape .q4_1 64 false
  | .mmqQ404warpLds => ldsShape .q4_0 64 false
  | .mmqQ40Wave64 => wave64Shape .q4_0 8
  | .mmqQ50Wave64 => wave64Shape .q5_0 8
  | .mmqQ51Wave64 => wave64Shape .q5_1 8
  | .mmqQ4KTurbo => ldsShape .q4_K 16 true
  | .mmqQ4KWave64 => wave64Shape .q4_K 8
  | .mmqQ6KWave64 => wave64Shape .q6_K 8
  | .mmqQ8KWave64 => wave64Shape .q8_K 8
  | .mmqQ2KWave64 => wave64Shape .q2_K 8
  | .mmqQ3KWave64 => wave64Shape .q3_K 8
  | .mmqQ80Oracle => ⟨.q8_0, 256, 1, 1, true, .q8_1⟩
  | .mmqIq4NlWave64 => wave64Shape .iq4_NL 8
  | .mmqIq3XxsWave64 => wave64Shape .iq3_XXS 8
  | .mmqIq2XxsWave64 => wave64Shape .iq2_XXS 8
  | .mmqIq2XsWave64 => wave64Shape .iq2_XS 8
  | .mmqIq2SWave64 => wave64Shape .iq2_S 8
  | .mmqIq1SWave64 => wave64Shape .iq1_S 8
  | .mmqIq1MWave64 => wave64Shape .iq1_M 8

end Kernel

inductive ImplId where
  | q80MmvqSingleRow
  | q4KMmvqDp4a
  | iq4XsMmvqDp4a
  | iq4XsMmqWave64
  | iq4NlMmvqDp4a
  | iq3XxsMmvqDp4a
  | iq3SMmvqDp4a
  | iq3SMmqWave64
  | iq2XxsMmvqDp4a
  | iq2XsMmvqDp4a
  | iq2SMmvqDp4a
  | iq1SMmvqDp4a
  | iq1MMmvqDp4a
  | q41MmvqT128
  | q5KMmvqDp4a
  | q5KMmvqNw1R2
  | q5KMmqWave64
  | q6KMmvqDp4a
  | q8KMmvqSingleRow
  | q2KMmvqR2Dp4a
  | q3KMmvqR2Dp4a
  | q80MmqWave64Tile16
  | q41MmqWave64
  | q41Mmq4warpLds
  | q40Mmq4warpLds
  | q40MmqWave64
  | q50MmqWave64
  | q51MmqWave64
  | q4KMmqTurbo
  | q4KMmqWave64
  | q6KMmqWave64
  | q8KMmqWave64
  | q2KMmqWave64
  | q3KMmqWave64
  | q80MmqOracle
  | iq4NlMmqWave64
  | iq3XxsMmqWave64
  | iq2XxsMmqWave64
  | iq2XsMmqWave64
  | iq2SMmqWave64
  | iq1SMmqWave64
  | iq1MMmqWave64
deriving DecidableEq

inductive RecipeKind where
  | mmvq
  | mmqOracle
  | mmq4Warp
  | mmqLdsX64
  | mmqWave64
deriving DecidableEq

structure Recipe where
  kind : RecipeKind
  stem : Kernel
  threads : Nat
  rowsPerBlock : Nat
  mmqTile : Nat × Nat
deriving DecidableEq

/-- `Recipe::from_impl_id`; the single-row `Q8_0` entry is an alias. -/
def Recipe.fromImplId : ImplId → Recipe
  | .q80MmvqSingleRow => ⟨.mmvq, .mmvqQ80T128Vdr2, 128, 1, (0, 0)⟩
  | .q4KMmvqDp4a => ⟨.mmvq, .mmvqQ4KR2Dp4a, 64, 2, (0, 0)⟩
  | .iq4XsMmvqDp4a => ⟨.mmvq, .mmvqIq4XsDp4a, 256, 1, (0, 0)⟩
  | .iq4XsMmqWave64 => ⟨.mmqWave64, .mmqIq4XsWave64, 64, 0, (64, 8)⟩
  | .iq4NlMmvqDp4a => ⟨.mmvq, .mmvqIq4NlDp4a, 256, 1, (0, 0)⟩
  | .iq3XxsMmvqDp4a => ⟨.mmvq, .mmvqIq3XxsDp4a, 256, 1, (0, 0)⟩
  | .iq3SMmvqDp4a => ⟨.mmvq, .mmvqIq3SDp4a, 256, 1, (0, 0)⟩
  | .iq3SMmqWave64 => ⟨.mmqWave64, .mmqIq3SWave64, 64, 0, (64, 8)⟩
  | .iq2XxsMmvqDp4a => ⟨.mmvq, .mmvqIq2XxsDp4a, 256, 1, (0, 0)⟩
  | .iq2XsMmvqDp4a => ⟨.mmvq, .mmvqIq2XsDp4a, 256, 1, (0, 0)⟩
  | .iq2SMmvqDp4a => ⟨.mmvq, .mmvqIq2SDp4a, 256, 1, (0, 0)⟩
  | .iq1SMmvqDp4a => ⟨.mmvq, .mmvqIq1SDp4a, 256, 1, (0, 0)⟩
  | .iq1MMmvqDp4a => ⟨.mmvq, .mmvqIq1MDp4a, 256, 1, (0, 0)⟩
  | .q41MmvqT128 => ⟨.mmvq, .mmvqQ41T128, 128, 1, (0, 0)⟩
  | .q5KMmvqDp4a => ⟨.mmvq, .mmvqQ5KDp4a, 256, 1, (0, 0)⟩
  | .q5KMmvqNw1R2 => ⟨.mmvq, .mmvqQ5KR2, 64, 2, (0, 0)⟩
  | .q5KMmqWave64 => ⟨.mmqWave64, .mmqQ5KWave64, 64, 0, (64, 8)⟩
  | .q6KMmvqDp4a => ⟨.mmvq, .mmvqQ6KDp4a, 64, 1, (0, 0)⟩
  | .q8KMmvqSingleRow => ⟨.mmvq, .mmvqQ8K, 256, 1, (0, 0)⟩
  | .q2KMmvqR2Dp4a => ⟨.mmvq, .mmvqQ2KR2Dp4a, 64, 2, (0, 0)⟩
  | .q3KMmvqR2Dp4a => ⟨.mmvq, .mmvqQ3KR2Dp4a, 64, 2, (0, 0)⟩
  | .q80MmqWave64Tile16 => ⟨.mmqWave64, .mmqQ80Wave64Tile16, 64, 0, (64, 16)⟩
  | .q41MmqWave64 => ⟨.mmqWave64, .mmqQ41Wave64, 64, 0, (64, 8)⟩
  | .q41Mmq4warpLds => ⟨.mmqLdsX64, .mmqQ414warpLds, 0, 0, (128, 64)⟩
  | .q40Mmq4warpLds => ⟨.mmqLdsX64, .mmqQ404warpLds, 0, 0, (128, 64)⟩
  | .q40MmqWave64 => ⟨.mmqWave64, .mmqQ40Wave64, 64, 0, (64, 8)⟩
  | .q50MmqWave64 => ⟨.mmqWave64, .mmqQ50Wave64, 64, 0, (64, 8)⟩
  | .q51MmqWave64 => ⟨.mmqWave64, .mmqQ51Wave64, 64, 0, (64, 8)⟩
  | .q4KMmqTurbo => ⟨.mmqLdsX64, .mmqQ4KTurbo, 0, 0, (128, 16)⟩
  | .q4KMmqWave64 => ⟨.mmqWave64, .mmqQ4KWave64, 64, 0, (64, 8)⟩
  | .q6KMmqWave64 => ⟨.mmqWave64, .mmqQ6KWave64, 64, 0, (64, 8)⟩
  | .q8KMmqWave64 => ⟨.mmqWave64, .mmqQ8KWave64, 64, 0, (64, 8)⟩
  | .q2KMmqWave64 => ⟨.mmqWave64, .mmqQ2KWave64, 64, 0, (64, 8)⟩
  | .q3KMmqWave64 => ⟨.mmqWave64, .mmqQ3KWave64, 64, 0, (64, 8)⟩
  | .q80MmqOracle => ⟨.mmqOracle, .mmqQ80Oracle, 256, 0, (1, 1)⟩
  | .iq4NlMmqWave64 => ⟨.mmqWave64, .mmqIq4NlWave64, 64, 0, (64, 8)⟩
  | .iq3XxsMmqWave64 => ⟨.mmqWave64, .mmqIq3XxsWave64, 64, 0, (64, 8)⟩
  | .iq2XxsMmqWave64 => ⟨.mmqWave64, .mmqIq2XxsWave64, 64, 0, (64, 8)⟩
  | .iq2XsMmqWave64 => ⟨.mmqWave64, .mmqIq2XsWave64, 64, 0, (64, 8)⟩
  | .iq2SMmqWave64 => ⟨.mmqWave64, .mmqIq2SWave64, 64, 0, (64, 8)⟩
  | .iq1SMmqWave64 => ⟨.mmqWave64, .mmqIq1SWave64, 64, 0, (64, 8)⟩
  | .iq1MMmqWave64 => ⟨.mmqWave64, .mmqIq1MWave64, 64, 0, (64, 8)⟩

structure KernelDescriptor where
  implId : ImplId
  dtypeWeight : QDtype
  mLo : Nat
  mHi : Nat
deriving DecidableEq

def usizeMax : Nat := 2 ^ 64 - 1

/-- `QMATMUL_GFX906`. -/
def qmatmulGfx906 : List KernelDescriptor := [
  ⟨.q80MmvqSingleRow, .q8_0, 1, 3⟩,
  ⟨.q4KMmvqDp4a, .q4_K, 1, 127⟩,
  ⟨.iq4XsMmvqDp4a, .iq4_XS, 1, 31⟩,
  ⟨.iq4XsMmqWave64, .iq4_XS, 32, usizeMax⟩,
  ⟨.iq4NlMmvqDp4a, .iq4_NL, 1, 31⟩,
  ⟨.iq3XxsMmvqDp4a, .iq3_XXS, 1, 31⟩,
  ⟨.iq3SMmvqDp4a, .iq3_S, 1, 31⟩,
  ⟨.iq3SMmqWave64, .iq3_S, 32, usizeMax⟩,
  ⟨.iq2XxsMmvqDp4a, .iq2_XXS, 1, 31⟩,
  ⟨.iq2XsMmvqDp4a, .iq2_XS, 1, 31⟩,
  ⟨.iq2SMmvqDp4a, .iq2_S, 1, 31⟩,
  ⟨.iq1SMmvqDp4a, .iq1_S, 1, 31⟩,
  ⟨.iq1MMmvqDp4a, .iq1_M, 1, 31⟩,
  ⟨.q41MmvqT128, .q4_1, 1, 31⟩,
  ⟨.q5KMmvqDp4a, .q5_K, 1, 31⟩,
  ⟨.q5KMmvqNw1R2, .q5_K, usizeMax, usizeMax⟩,
  ⟨.q5KMmqWave64, .q5_K, 32, usizeMax⟩,
  ⟨.q6KMmvqDp4a, .q6_K, 1, 31⟩,
  ⟨.q8KMmvqSingleRow, .q8_K, 1, 31⟩,
  ⟨.q2KMmvqR2Dp4a, .q2_K, 1, 31⟩,
  ⟨.q3KMmvqR2Dp4a, .q3_K, 1, 31⟩,
  ⟨.q80MmqWave64Tile16, .q8_0, 32, usizeMax⟩,
  ⟨.q41MmqWave64, .q4_1, 32, 127⟩,
  ⟨.q41Mmq4warpLds, .q4_1, 128, usizeMax⟩,
  ⟨.q40Mmq4warpLds, .q4_0, 128, usizeMax⟩,
  ⟨.q40MmqWave64, .q4_0, 32, 127⟩,
  ⟨.q50MmqWave64, .q5_0, 32, usizeMax⟩,
  ⟨.q51MmqWave64, .q5_1, 32, usizeMax⟩,
  ⟨.q4KMmqTurbo, .q4_K, 128, usizeMax⟩,
  ⟨.q4KMmqWave64, .q4_K, 32, 127⟩,
  ⟨.q6KMmqWave64, .q6_K, 32, usizeMax⟩,
  ⟨.q8KMmqWave64, .q8_K, 32, usizeMax⟩,
  ⟨.q2KMmqWave64, .q2_K, 32, usizeMax⟩,
  ⟨.q3KMmqWave64, .q3_K, 32, usizeMax⟩,
  ⟨.q80MmqOracle, .q8_0, 4, 31⟩,
  ⟨.iq4NlMmqWave64, .iq4_NL, 32, usizeMax⟩,
  ⟨.iq3XxsMmqWave64, .iq3_XXS, 32, usizeMax⟩,
  ⟨.iq2XxsMmqWave64, .iq2_XXS, 32, usizeMax⟩,
  ⟨.iq2XsMmqWave64, .iq2_XS, 32, usizeMax⟩,
  ⟨.iq2SMmqWave64, .iq2_S, 32, usizeMax⟩,
  ⟨.iq1SMmqWave64, .iq1_S, 32, usizeMax⟩,
  ⟨.iq1MMmqWave64, .iq1_M, 32, usizeMax⟩]

def KernelDescriptor.fits (d : KernelDescriptor) (dtype : QDtype) (m : Nat) : Bool :=
  d.mLo ≤ m && m ≤ d.mHi && d.dtypeWeight = dtype

/-- `first_match` of a release build, which keeps the last match. -/
def dispatchQmatmul (dtype : QDtype) (m : Nat) : Option KernelDescriptor :=
  qmatmulGfx906.foldl (fun hit d => if d.fits dtype m then some d else hit) none

/-- The scalar arguments of a launch. -/
inductive KernelArgs where
  | mmvq (nRows nUnits : Int)
  | mmq (nRows nBatches nBlocksPerRow : Int)
  | wave64 (ncolsX nrowsX ncolsY nrowsY nrowsDst : Int)
  | lds (ncolsX nrowsX ncolsY strideColY strideRowX nrowsDst : Int)
deriving DecidableEq

/-- A launch: its kernel, the activation buffer it is given, and byte offsets into that
buffer and into `dst`. -/
structure Launch where
  kernel : Kernel
  act : ActLayout
  actOffset : Nat
  dstOffset : Nat
  gridX : Nat
  gridY : Nat
  threads : Nat
  args : KernelArgs
deriving DecidableEq

/-- A store of a kernel: the place in `dst`, the first weight block and the number of weight
blocks, the first activation block and the distance to the next. -/
structure Store where
  dst : Int
  weightBlock : Int
  nBlocks : Int
  actBlock : Int
  actStride : Int
deriving DecidableEq

namespace Launch

def shape (l : Launch) : KernelShape := l.kernel.shape

/-- What block `(gx, gy)` stores for its weight row `r` and its activation row `c`, in the
kernel's `int` arithmetic. -/
def kernelStore (l : Launch) (gx gy r c : Nat) : Option Store :=
  let block := blockElems l.shape.weight
  let row := asI32 (gx * l.shape.rows + r : Nat)
  let col := asI32 (gy * l.shape.cols + c : Nat)
  let dst := ((l.dstOffset / 4 : Nat) : Int)
  let act := ((l.actOffset / 36 : Nat) : Int)
  match l.args with
  | .mmvq nRows nUnits =>
    if row < nRows then
      some ⟨dst + (c * nRows + row), row * nUnits, nUnits, act + c * (nUnits * (block / 32 : Nat)), 1⟩
    else none
  | .mmq nRows nBatches nBlocksPerRow =>
    if row < nRows ∧ col < nBatches then
      some ⟨dst + (col * nRows + row), row * nBlocksPerRow, nBlocksPerRow,
        act + col * nBlocksPerRow, 1⟩
    else none
  | .wave64 ncolsX nrowsX ncolsY nrowsY nrowsDst =>
    if row < nrowsX ∧ col < ncolsY ∧ row < nrowsDst then
      some ⟨dst + (col * nrowsDst + row), row * (ncolsX.tdiv block), ncolsX.tdiv block,
        act + col * (nrowsY.tdiv 32), 1⟩
    else none
  | .lds ncolsX nrowsX ncolsY strideColY strideRowX nrowsDst =>
    if (l.shape.checked → row < nrowsX ∧ row < nrowsDst) ∧ col < ncolsY then
      let weight :=
        if l.shape.checked then asI32 (row * strideRowX)
        else asI32 ((gx * l.shape.rows : Nat) * strideRowX) + asI32 (r * strideRowX)
      some ⟨dst + (col * nrowsDst + row), weight, ncolsX.tdiv block,
        (asI32 ((gy * l.shape.cols : Nat) * 36)).tdiv 36 + c, strideColY⟩
    else none

/-- The store at one place of the grid. -/
def storeAt (l : Launch) (gx gy r c : Nat) : Option Store :=
  if gx < l.gridX ∧ gy < l.gridY ∧ r < l.shape.rows ∧ c < l.shape.cols then
    l.kernelStore gx gy r c
  else none

end Launch

inductive Outcome where
  /-- `Err`. -/
  | failed
  | panicked
  | launched (launches : List Launch)
deriving DecidableEq

/-- The module has the kernel, and the launch succeeds. -/
structure Device where
  accepts : Launch → Bool

/-- Launches one after the other, each with a `?`. -/
def launchAll (dev : Device) (launches : List Launch) : Outcome :=
  if launches.all dev.accepts then .launched launches else .failed

/-- The arguments of `qmatmul`; `k` is made of whole blocks. -/
structure QmatmulCall where
  dtypeWeight : QDtype
  m : Nat
  k : Nat
  n : Nat
  /-- The pointer to the activations in the other layout, 0 for none. -/
  actQ81Mmq : Nat
  m_pos : 1 ≤ m
  n_pos : 1 ≤ n
  m_le : m ≤ usizeMax
  k_blocks : blockElems dtypeWeight ∣ k

namespace QmatmulCall

variable (c : QmatmulCall)

def asU32 (x : Nat) : Nat := x % 2 ^ 32

/-- The batched launches: all activation rows at once, `units` per weight row. -/
def batched (kernel : Nat → Kernel) (units rowsPerBlock threads : Nat) (dev : Device) : Outcome :=
  if 2 ≤ c.m ∧ c.m ≤ 4 then
    launchAll dev [{
      kernel := kernel c.m
      act := .q8_1
      actOffset := 0
      dstOffset := 0
      gridX := divCeil (asU32 c.n) rowsPerBlock
      gridY := 1
      threads := threads
      args := .mmvq (asI32 c.n) (asI32 units) }]
  else .failed

def mmvqQ41Batched : Device → Outcome := c.batched .mmvqQ41Batched (c.k / 32 : Nat) 1 256

def mmvqQ80RowTileBatched : Device → Outcome :=
  c.batched .mmvqQ80RowTileBatched (c.k / 32 : Nat) 4 256

def mmvqQ4KBatched : Device → Outcome := c.batched .mmvqQ4KBatched (c.k / 256 : Nat) 1 64

def mmvqQ6KBatched : Device → Outcome := c.batched .mmvqQ6KBatched (c.k / 256 : Nat) 1 64

def mmvqQ40RowTileBatched : Device → Outcome :=
  c.batched .mmvqQ40RowTileBatched (c.k / 32 : Nat) 4 256

def mmvqQ5KRowTileBatched : Device → Outcome :=
  c.batched .mmvqQ5KRowTileBatched (c.k / 256 : Nat) 8 256

/-- Row `i` of a loop of single-row launches, of `mmvq_simple_launch` and of `mmvq_launch`. -/
def mmvqRow (kernel : Kernel) (units rowsPerBlock threads i : Nat) : Launch where
  kernel := kernel
  act := .q8_1
  actOffset := i * (c.k / 32 * 36)
  dstOffset := i * (c.n * 4)
  gridX := divCeil (asU32 c.n) rowsPerBlock
  gridY := 1
  threads := threads
  args := .mmvq (asI32 c.n) (asI32 units)

def mmqLaunch (r : Recipe) : Launch where
  kernel := r.stem
  act := .q8_1
  actOffset := 0
  dstOffset := 0
  gridX := divCeil (asU32 c.n) r.mmqTile.1
  gridY := divCeil (asU32 c.m) r.mmqTile.2
  threads := r.threads
  args := .mmq (asI32 c.n) (asI32 c.m) (asI32 (c.k / blockElems c.dtypeWeight : Nat))

/-- The weight block elements of `mmq_lds_x64_params`. -/
def mmqLdsX64Elems : Kernel → Option Nat
  | .mmqQ404warpLds | .mmqQ414warpLds => some 32
  | .mmqQ4KTurbo => some 256
  | _ => none

def mmqLdsX64Launch (r : Recipe) (elems : Nat) : Launch where
  kernel := r.stem
  act := .q8_1Mmq
  actOffset := 0
  dstOffset := 0
  gridX := divCeil (asU32 c.n) r.mmqTile.1
  gridY := divCeil (asU32 c.m) r.mmqTile.2
  threads := 64 * 4
  args := .lds (asI32 (c.k / blockElems c.dtypeWeight * elems : Nat)) (asI32 c.n) (asI32 c.m)
    (asI32 c.m) (asI32 (c.k / blockElems c.dtypeWeight : Nat)) (asI32 c.n)

def mmqWave64Launch (r : Recipe) : Launch where
  kernel := r.stem
  act := .q8_1
  actOffset := 0
  dstOffset := 0
  gridX := divCeil (asU32 c.n) r.mmqTile.1
  gridY := divCeil (asU32 c.m) r.mmqTile.2
  threads := r.threads
  args := .wave64 (asI32 c.k) (asI32 c.n) (asI32 c.m) (asI32 c.k) (asI32 c.n)

def runRecipe (r : Recipe) (dev : Device) : Outcome :=
  match r.kind with
  | .mmvq => launchAll dev ((List.range c.m).map
      (c.mmvqRow r.stem (c.k / blockElems c.dtypeWeight) r.rowsPerBlock r.threads))
  | .mmqOracle | .mmq4Warp => launchAll dev [c.mmqLaunch r]
  | .mmqLdsX64 =>
    if c.actQ81Mmq = 0 then .failed
    else match mmqLdsX64Elems r.stem with
      | none => .failed
      | some elems => launchAll dev [c.mmqLdsX64Launch r elems]
  | .mmqWave64 => launchAll dev [c.mmqWave64Launch r]

/-- The single-row kernel of the three types that never take the table's rows for few or
unaligned rows. -/
def simpleKernel : QDtype → Option Kernel
  | .q4_0 => some .mmvqQ40
  | .q5_0 => some .mmvqQ50
  | .q5_1 => some .mmvqQ51
  | _ => none

/-- The table's recipe, or that for one row where the tiled kernel cannot take `k`. -/
def tableRecipe : Option Recipe :=
  match dispatchQmatmul c.dtypeWeight c.m with
  | none => none
  | some desc =>
    let recipe := Recipe.fromImplId desc.implId
    if recipe.kind = .mmqLdsX64 ∧ c.k % 128 ≠ 0 then
      (dispatchQmatmul c.dtypeWeight 1).map fun desc => Recipe.fromImplId desc.implId
    else some recipe

def qmatmul (dev : Device) : Outcome :=
  if c.dtypeWeight = .q4_1 ∧ 2 ≤ c.m ∧ c.m ≤ 4 then c.mmvqQ41Batched dev
  else if c.dtypeWeight = .q8_0 ∧ 2 ≤ c.m ∧ c.m ≤ 4 then c.mmvqQ80RowTileBatched dev
  else if c.dtypeWeight = .q4_K ∧ 2 ≤ c.m ∧ c.m ≤ 4 then c.mmvqQ4KBatched dev
  else if c.dtypeWeight = .q6_K ∧ 2 ≤ c.m ∧ c.m ≤ 4 then c.mmvqQ6KBatched dev
  else match (if c.m < 32 ∨ c.k % 128 ≠ 0 ∨ c.n % 128 ≠ 0 then simpleKernel c.dtypeWeight else none) with
    | some kernel =>
      if c.dtypeWeight = .q4_0 ∧ 2 ≤ c.m ∧ c.m ≤ 4 then c.mmvqQ40RowTileBatched dev
      else if c.k % 32 ≠ 0 then .panicked
      else launchAll dev ((List.range c.m).map (c.mmvqRow kernel (c.k / 32) 1 256))
    | none =>
      if c.dtypeWeight = .q5_K ∧ 2 ≤ c.m ∧ c.m ≤ 4 then c.mmvqQ5KRowTileBatched dev
      else match c.tableRecipe with
        | none => .failed
        | some recipe => c.runRecipe recipe dev

/-- The store that output `(i, j)` needs: activation row `i` and weight row `j`, all blocks. -/
def output (layout : ActLayout) (i j : Nat) : Store where
  dst := (i * c.n + j : Nat)
  weightBlock := (j * (c.k / blockElems c.dtypeWeight) : Nat)
  nBlocks := (c.k / blockElems c.dtypeWeight : Nat)
  actBlock := match layout with
    | .q8_1 => (i * (c.k / 32) : Nat)
    | .q8_1Mmq => i
  actStride := match layout with
    | .q8_1 => 1
    | .q8_1Mmq => c.m

/-- Every output is stored once, by the whole grid of all launches, from its own rows. -/
def StoresOnce (launches : List Launch) : Prop :=
  ∀ i < c.m, ∀ j < c.n, ∃ t gx gy r s : Nat, ∃ l : Launch, launches[t]? = some l ∧
    l.storeAt gx gy r s = some (c.output l.act i j) ∧
    ∀ t' gx' gy' r' s' : Nat, ∀ l' : Launch, ∀ w : Store, launches[t']? = some l' →
      l'.storeAt gx' gy' r' s' = some w → w.dst = (i * c.n + j : Nat) →
        (t', gx', gy', r', s') = (t, gx, gy, r, s)

def isLds : KernelArgs → Bool
  | .lds .. => true
  | _ => false

/-- The kernel decodes the weights' type, reads the layout that its buffer has, and has the
threads it is written for. -/
def KernelFits (l : Launch) : Prop :=
  l.shape.weight = c.dtypeWeight ∧ l.shape.layout = l.act ∧ l.shape.threads = l.threads

/-- Dispatch is sound: an error, or every output once from kernels that fit, and the tiled
kernel only where it may be. -/
def Sound : Outcome → Prop
  | .failed => True
  | .panicked => False
  | .launched launches => c.StoresOnce launches ∧ (∀ l ∈ launches, c.KernelFits l) ∧
      ∀ l ∈ launches, isLds l.args = true → c.k % 128 = 0 ∧ c.n % 128 = 0 ∧ c.actQ81Mmq ≠ 0

end QmatmulCall

end Flambeau.Ops
