import Flambeau.Forward.Gdn.Kernels
import Flambeau.Forward.Loader.GdnLayer

namespace Flambeau.Forward.Gdn
open Systems

/-- The weights of a GDN block as functions of one row: the projections of a token (with
`attn_norm` before them), the pointwise steps and, at the end, `ssm_norm`, the gate and
`ssm_out`. -/
structure GdnWeights (X Z Y R : Type) (numVHeads : Nat) where
  attnQkv : X → Nat → R
  attnGate : X → Z
  ssmAlpha : X → Nat → R
  ssmBeta : X → Nat → R
  ssmConv1d : Nat → Nat → R
  silu : R → R
  l2Norm : (Fin sV → R) → Fin sV → R
  qScale : R → R
  step : StepOps R
  ssmOut : Z → (Fin numVHeads × Fin sV → R) → Y

/-- A GDN layer that `DeltaNetLayer::new` builds. -/
structure GdnLayer (X Z Y R : Type) where
  config : ScratchConfig
  dims : GdnDims
  weights : GdnWeights X Z Y R dims.numVHeads
  repInnerLayout : Bool
  pooled : config.gdn = some dims
  builds : deltaNetBuilds dims = true
  /-- The state step takes `H / n_rep` K heads a token. -/
  groups : dims.numKHeads ∣ dims.numVHeads
  kernel_pos : 0 < dims.convKernel

/-- A slot's recurrent state and its last `conv_kernel - 1` conv inputs. -/
structure GdnSlot (dims : GdnDims) (R : Type) where
  state : State dims.numVHeads R
  history : List (Nat → R)
  rows : history.length = dims.convKernel - 1

theorem GdnSlot.ext {dims : GdnDims} {s t : GdnSlot dims R} (hstate : s.state = t.state)
    (hhistory : s.history = t.history) : s = t := by
  cases s
  cases t
  cases hstate
  cases hhistory
  rfl

structure GdnToken (X : Type) where
  slot : Nat
  x : X

namespace GdnLayer

variable {X Z Y R : Type} [Zero R] [Add R] [Mul R] [Sub R] (layer : GdnLayer X Z Y R)

/-- `silu_out`, sliced into `[Q | K | V]` heads; Q and K are normalised by head and Q is
scaled. -/
def stepInputs (siluOut alpha beta : List (Nat → R)) : StepInputs R :=
  let numK := layer.dims.numKHeads
  let numV := layer.dims.numVHeads
  let qkSize := numK * sV
  let head := fun offset n r (i : Fin sV) => rowAt siluOut (r / n) (offset + r % n * sV + i)
  { q := fun r i => layer.weights.qScale (layer.weights.l2Norm (head 0 numK r) i)
    k := fun r => layer.weights.l2Norm (head qkSize numK r)
    v := head (2 * qkSize) numV
    alphaIn := fun r => rowAt alpha (r / numV) (r % numV)
    betaIn := fun r => rowAt beta (r / numV) (r % numV) }

abbrev stepShape (l : Nat) : GdnStepShape where
  hV := layer.dims.numVHeads
  l := l
  nRep := layer.dims.numVHeads / layer.dims.numKHeads
  repInnerLayout := layer.repInnerLayout

/-- `forward_decode_with_ar_hook`. -/
def forwardDecode (s : GdnSlot layer.dims R) (x : X) : GdnSlot layer.dims R × Y :=
  let w := layer.weights
  let convKernel := layer.dims.convKernel
  let convInput := assembleConvInput s.history [w.attnQkv x]
  let convOut := causalConv1d convInput w.ssmConv1d 1 convKernel
  let siluOut := convOut.map fun row c => w.silu (row c)
  let inputs := layer.stepInputs siluOut [w.ssmAlpha x] [w.ssmBeta x]
  let after := gdnStateStep w.step (layer.stepShape 1) inputs s.state
  ({ state := after.1
     history := (convInput.drop 1).take (convKernel - 1)
     rows := by
      have hrows := s.rows
      simp only [convInput, assembleConvInput, List.length_take, List.length_drop,
        List.length_append, List.length_singleton]
      omega },
    w.ssmOut (w.attnGate x) (after.2 0))

/-- `forward_prefill_with_ar_hook` on the rows of one slot. -/
def forwardPrefill (s : GdnSlot layer.dims R) (xs : List X) : GdnSlot layer.dims R × List Y :=
  let w := layer.weights
  let convKernel := layer.dims.convKernel
  let nTokens := xs.length
  let convInput := assembleConvInput s.history (xs.map w.attnQkv)
  let convOut := causalConv1d convInput w.ssmConv1d nTokens convKernel
  let siluOut := convOut.map fun row c => w.silu (row c)
  let inputs := layer.stepInputs siluOut (xs.map w.ssmAlpha) (xs.map w.ssmBeta)
  let after := gdnStateStep w.step (layer.stepShape nTokens) inputs s.state
  ({ state := after.1
     history := (convInput.drop nTokens).take (convKernel - 1)
     rows := by
      have hrows := s.rows
      simp only [convInput, nTokens, assembleConvInput, List.length_take, List.length_drop,
        List.length_append, List.length_map]
      omega },
    xs.mapIdx fun t x => w.ssmOut (w.attnGate x) (after.2 t))

/-- `forward_decode_with_ar_hook_batched_slots`: every slot's state and history are read
through its pointers before the launch stores any of them. -/
def forwardDecodeBatchedSlots (slots : Nat → GdnSlot layer.dims R) (tokens : List (Nat × X)) :
    (Nat → GdnSlot layer.dims R) × List Y :=
  let w := layer.weights
  let convKernel := layer.dims.convKernel
  let conv := fun token : Nat × X =>
    convTrioDecode (slots token.1).history (w.attnQkv token.2) w.ssmConv1d convKernel
  let siluOut := tokens.map fun token c => w.silu ((conv token).1 c)
  let inputs := layer.stepInputs siluOut (tokens.map fun token => w.ssmAlpha token.2)
    (tokens.map fun token => w.ssmBeta token.2)
  let after := fun (i : Nat) (token : Nat × X) =>
    gdnStateStepBatchedSlots w.step (layer.stepShape 1) inputs i (slots token.1).state
  (tokens.zipIdx.foldl (fun slots' r =>
      setLane slots' r.1.1
        { state := (after r.2 r.1).1
          history := (conv r.1).2
          rows := by
            simp only [conv, convTrioDecode, List.length_map, List.length_range]
            exact (slots r.1.1).rows }) slots,
    tokens.mapIdx fun i token => w.ssmOut (w.attnGate token.2) ((after i token).2 0))

/-- All rows on one slot, more than one of them. -/
def prefillShape (tokens : List (Nat × X)) : Bool :=
  decide (1 < tokens.length) &&
    tokens.all fun token => some token.1 == tokens.head?.map Prod.fst

/-- `gdn_layer_local`. The batched kernels have their scratch from two slots on and
assert the length of the conv kernel. `fused` is a topology that adds a single row's
result to the residual itself. -/
def gdnLayerLocal (fused : Bool) (slots : Nat → GdnSlot layer.dims R) (tokens : List (Nat × X)) :
    Option ((Nat → GdnSlot layer.dims R) × List Y) :=
  match tokens with
  | [] => none
  | (slot, x) :: rest =>
    let nTokens := rest.length + 1
    if !(tokens.all fun token => token.1 < layer.config.nSlots) then none
    else if prefillShape tokens then
      if 1 < layer.config.maxPrefillTokens ∧ nTokens ≤ layer.config.maxPrefillTokens then
        let after := layer.forwardPrefill (slots slot) (tokens.map Prod.snd)
        some (setLane slots slot after.1, after.2)
      else none
    else if nTokens = 1 ∧ fused = true then
      let after := layer.forwardDecode (slots slot) x
      some (setLane slots slot after.1, [after.2])
    else if 1 < layer.config.nSlots then
      if nTokens ≤ layer.config.nSlots ∧ layer.dims.convKernel ≤ convTrioKernelMax then
        some (layer.forwardDecodeBatchedSlots slots tokens)
      else none
    else some (feed (atLane layer.forwardDecode) slots tokens)

/-- The two parts of `gdn_layer_mixed_local`, which needs the scratch of both. -/
def gdnLayerMixedLocal (slots : Nat → GdnSlot layer.dims R) (tokens : List (Nat × X))
    (prefillRows : Nat) : Option ((Nat → GdnSlot layer.dims R) × List Y) :=
  match tokens with
  | [] => none
  | (slot, _) :: _ =>
    let nDec := tokens.length - prefillRows
    let prefill := tokens.take prefillRows
    let decode := tokens.drop prefillRows
    if prefillRows = 0 ∨ tokens.length ≤ prefillRows then none
    else if !(prefill.all (·.1 == slot) && decode.all (·.1 != slot) &&
        tokens.all fun token => token.1 < layer.config.nSlots) then none
    else if 1 < layer.config.maxPrefillTokens ∧ 1 < layer.config.nSlots ∧
        nDec ≤ layer.config.nSlots ∧ prefillRows ≤ layer.config.maxPrefillTokens ∧
        layer.dims.convKernel ≤ convTrioKernelMax then
      let chunk := layer.forwardPrefill (slots slot) (prefill.map Prod.snd)
      let batch := layer.forwardDecodeBatchedSlots (setLane slots slot chunk.1) decode
      some (batch.1, chunk.2 ++ batch.2)
    else none

end GdnLayer

end Flambeau.Forward.Gdn
