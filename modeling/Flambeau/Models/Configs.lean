import Flambeau.Forward.Scratch

namespace Flambeau.Models
open Flambeau.Forward

/-- Attention dims of a layer. A positive window makes it a sliding-window layer. -/
structure LayerAttnDims where
  headDim : Nat
  windowSize : Int
deriving Repr, DecidableEq

/-- Routed-expert dims. -/
structure MoeDims where
  numExperts : Nat
  expertsPerTok : Nat
  moeIntermediate : Nat
deriving Repr, DecidableEq

/-- Per-layer vectors have one entry a layer. -/
structure Gemma4V2Config where
  hidden : Nat
  intermediate : Nat
  numLayers : Nat
  numHeads : Nat
  numKvHeads : List Nat
  attn : List LayerAttnDims
  contextLength : Nat
  vocabSize : Nat
  moe : Option MoeDims
  /-- Width of the per-layer side channel. -/
  perLayerEmbd : Option Nat
  kvHeads_length : numKvHeads.length = numLayers
  attn_length : attn.length = numLayers

namespace Gemma4V2Config

def headDimAt (config : Gemma4V2Config) (li : Nat) : Nat :=
  (config.attn[li]?).elim 0 LayerAttnDims.headDim

def windowSizeAt (config : Gemma4V2Config) (li : Nat) : Int :=
  (config.attn[li]?).elim 0 LayerAttnDims.windowSize

/-- A layer with fewer KV heads than ranks is replicated, the rest are sharded. -/
def kvWidthAt (config : Gemma4V2Config) (li nRanks : Nat) : Nat :=
  let kvh := config.numKvHeads.getD li 0
  let kvhLocal := if kvh < nRanks then kvh else kvh / nRanks
  kvhLocal * config.headDimAt li

/-- A sliding-window layer is a ring of one window and one prefill batch. -/
def kvDepthAt (config : Gemma4V2Config) (li maxSeqLen prefillUbatch : Nat) : Nat :=
  let window := config.windowSizeAt li
  if 0 < window then min (window.toNat + prefillUbatch) maxSeqLen else maxSeqLen

def scratchShape (config : Gemma4V2Config) : ScratchShape where
  numLayers := config.numLayers
  kvWidthAt := config.kvWidthAt
  headDimAt := config.headDimAt
  windowSizeAt := config.windowSizeAt
  kvDepthAt := config.kvDepthAt
  hidden := config.hidden
  vocab := config.vocabSize
  maxSeqLen := config.contextLength
  intermediatePerRank nRanks :=
    match config.moe with
    | some m => m.moeIntermediate / nRanks
    | none => config.intermediate / nRanks
  qWidthPerRank nRanks :=
    (config.attn.map fun a => config.numHeads / nRanks * a.headDim).foldl max 0
  moePerRank nRanks :=
    config.moe.map fun m => ⟨m.numExperts, m.expertsPerTok, config.intermediate / nRanks⟩
  gdnPerRank _ := none
  attnQGated := false
  perLayerEmbd := config.perLayerEmbd.getD 0

end Gemma4V2Config

/-- Full attention at every `full_attention_interval`-th layer, GDN elsewhere. -/
structure Qwen35V2Config where
  numLayers : Nat
  nHeads : Nat
  nKvHeads : Nat
  headDim : Nat
  fullAttentionInterval : Nat
  interval_pos : 0 < fullAttentionInterval

namespace Qwen35V2Config

def isRecurrent (config : Qwen35V2Config) (il : Nat) : Bool :=
  (il + 1) % config.fullAttentionInterval != 0

def kvWidthAt (config : Qwen35V2Config) (li nRanks : Nat) : Nat :=
  if config.isRecurrent li then 0 else config.nKvHeads / nRanks * config.headDim

end Qwen35V2Config

end Flambeau.Models
