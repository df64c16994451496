import Flambeau.Systems.Feed

namespace Flambeau.Forward.Gdn
open Systems

/-- The head width the state step is built for. -/
abbrev sV : Nat := 128

section Conv

variable {R : Type} [Zero R] [Add R] [Mul R]

/-- A row of a buffer, by channel. -/
def rowAt (rows : List (Nat → R)) (t : Nat) : Nat → R := rows[t]?.getD fun _ => 0

/-- `[history, current]`, in one kernel at decode and by two copies at prefill. -/
def assembleConvInput (history current : List (Nat → R)) : List (Nat → R) := history ++ current

/-- `y[t, c] = Σ_k w[c, k] * conv_input[t + k, c]`. -/
def convThread (convInput : List (Nat → R)) (weight : Nat → Nat → R) (convKernel t c : Nat) : R :=
  (List.range convKernel).foldl (fun acc k => acc + rowAt convInput (t + k) c * weight c k) 0

/-- `causal_conv1d_f32`. -/
def causalConv1d (convInput : List (Nat → R)) (weight : Nat → Nat → R) (nNew convKernel : Nat) :
    List (Nat → R) :=
  (List.range nNew).map (convThread convInput weight convKernel)

/-- `CONV_TRIO_KERNEL_MAX`. -/
def convTrioKernelMax : Nat := 8

/-- `gdn_conv_trio_decode_f32_batched_slots` for one slot: the conv row and the history
as the registers are stored back. -/
def convTrioDecode (history : List (Nat → R)) (newVal : Nat → R) (weight : Nat → Nat → R)
    (convKernel : Nat) : (Nat → R) × List (Nat → R) :=
  let histRows := convKernel - 1
  let acc := fun c =>
    (List.range (convTrioKernelMax - 1)).foldl
      (fun acc k => if k < histRows then acc + rowAt history k c * weight c k else acc) 0
  (fun c => acc c + newVal c * weight c histRows,
    (List.range history.length).map fun k =>
      if k < convTrioKernelMax - 1 ∧ k < histRows then
        if k + 1 < histRows then rowAt history (k + 1) else newVal
      else rowAt history k)

end Conv

section StateStep

variable {R : Type} [Zero R] [Add R] [Mul R] [Sub R]

/-- The recurrent state of a slot: for a head and a column of it, `S_v` numbers. -/
abbrev State (numVHeads : Nat) (R : Type) := Fin numVHeads × Fin sV → Fin sV → R

/-- What the state step reads for the tokens of a launch: rows of one head each, and one
number a head for alpha and beta. -/
structure StepInputs (R : Type) where
  q : Nat → Fin sV → R
  k : Nat → Fin sV → R
  v : Nat → Fin sV → R
  alphaIn : Nat → R
  betaIn : Nat → R

/-- The layer's constants and the device functions of the state step. -/
structure StepOps (R : Type) where
  ssmDtBias : Nat → R
  ssmA : Nat → R
  softplus : R → R
  exp : R → R
  sigmoid : R → R

structure GdnStepShape where
  hV : Nat
  l : Nat
  nRep : Nat
  repInnerLayout : Bool
deriving Repr, DecidableEq

/-- The reduction of a warp; in exact arithmetic its order does not matter. -/
def warpSum (f : Fin sV → R) : R := (List.finRange sV).foldl (fun acc i => acc + f i) 0

variable (ops : StepOps R) (shape : GdnStepShape)

/-- Token `t` of batch `b` at one column of one head. -/
def stepColumn (inputs : StepInputs R) (b : Nat) (cell : Fin shape.hV × Fin sV)
    (s : Fin sV → R) (t : Nat) : (Fin sV → R) × R :=
  let h := cell.1.val
  let hKv := shape.hV / shape.nRep
  let kvHead := if shape.repInnerLayout then h / shape.nRep else h % hKv
  let q := inputs.q (b * (shape.l * hKv) + (t * hKv + kvHead))
  let k := inputs.k (b * (shape.l * hKv) + (t * hKv + kvHead))
  let v := inputs.v (b * (shape.l * shape.hV) + (t * shape.hV + h))
  let aRaw := inputs.alphaIn (b * (shape.l * shape.hV) + (t * shape.hV + h)) + ops.ssmDtBias h
  let g := ops.exp (ops.softplus aRaw * ops.ssmA h)
  let beta := ops.sigmoid (inputs.betaIn (b * (shape.l * shape.hV) + (t * shape.hV + h)))
  let kv := warpSum fun i => s i * k i
  let delta := (v cell.2 - g * kv) * beta
  let s' := fun i => g * s i + k i * delta
  (s', warpSum fun i => s' i * q i)

/-- Batch `b` of a launch: every column goes over the tokens by itself. -/
def stepBatch (inputs : StepInputs R) (b : Nat) (state : State shape.hV R) :
    State shape.hV R × (Nat → Fin shape.hV × Fin sV → R) :=
  let column := fun cell =>
    feed (stepColumn ops shape inputs b cell) (state cell) (List.range shape.l)
  (fun cell => (column cell).1, fun t cell => (column cell).2[t]?.getD 0)

/-- `gdn_state_step_alphabeta_f32_s128` on the state of one slot. -/
def gdnStateStep (inputs : StepInputs R) (state : State shape.hV R) :
    State shape.hV R × (Nat → Fin shape.hV × Fin sV → R) :=
  stepBatch ops shape inputs 0 state

/-- `gdn_state_step_alphabeta_f32_s128_batched_slots` at one of its state pointers. -/
def gdnStateStepBatchedSlots (inputs : StepInputs R) (b : Nat) (stateIn : State shape.hV R) :
    State shape.hV R × (Nat → Fin shape.hV × Fin sV → R) :=
  stepBatch ops shape inputs b stateIn

end StateStep

end Flambeau.Forward.Gdn
