import Mathlib.Algebra.BigOperators.Group.Finset.Basic
import Mathlib.Data.Fintype.Basic
import Mathlib.Logic.Function.Basic
import Flambeau.Systems.Fallible

namespace Flambeau.Forward.FusedResidual
open Systems Fallible
open Function (update)

/-- The buffers of a pool that carry the residual and a block's output. -/
inductive Loc where
  | residA
  | residB
  /-- `dst` of the edge that a later stage starts from. -/
  | edge
  | norm
  | normQ8
  /-- What the output projection reads, seen through its weights. -/
  | act
  /-- `attn_proj_f32` or `down_f32`. -/
  | proj
  | delta
  | shared
deriving DecidableEq

/-- A block between its normed input and a rank's share of its output; `C` is what it
keeps in KV and recurrent state. -/
structure Kernel (R C ι : Type) where
  share : C → ι → R → R
  advance : C → (ι → R) → C

structure Weights (R W E C ι : Type) where
  /-- `attn_norm` or `ffn_norm`. -/
  norm : W
  /-- `post_attn_norm` or `post_ffn_norm`. -/
  postNorm : Option W
  rmsEps : E
  /-- `supports_decode_to_f16` of the output projection. -/
  decodesToF16 : Bool
  kernel : Kernel R C ι

inductive Kind (R ι : Type) where
  | standardAttn
  | standardAttnMixed
  | gdnLayer
  | denseFfn
  | moeFfn (shared : Option (ι → R → R))
  /-- `moe_ffn` with a `pre_router_weight_f16`: five norms of its own, nothing fused. -/
  | moeCascade (delta : R → R)

/-- A model's call of a composite, and what it does to the residual before the next one. -/
structure Call (R W E C ι : Type) where
  kind : Kind R ι
  w : Weights R W E C ι
  next : Option W
  after : List (R → R)

/-- The topology's hooks and the rows of a forward. -/
structure Setup (R W E : Type) where
  rmsnorm : W → E → R → R
  supportsArResidual : Bool
  supportsArResidualRmsnorm : Bool
  n : Nat

/-- Which launches fail, and what the projection's buffer holds after a kernel that uses
it as scratch. -/
structure Device (R ι : Type) where
  fault : Nat → Bool
  scratch : Nat → ι → R

structure State (R C ι : Type) where
  inputPreNormed : Bool
  fusedResidualAlreadyDone : Bool
  currentResidualIsA : Bool
  /-- Each rank's buffers. -/
  mem : Loc → ι → R
  cache : C
  launches : Nat
  /-- Each block's normed input, and the residual rows after it. -/
  trace : List (ι → R)

namespace State

variable {R C ι : Type}

def tick (s : State R C ι) : State R C ι := { s with launches := s.launches + 1 }

def store (loc : Loc) (v : State R C ι → ι → R) (s : State R C ι) : State R C ι :=
  { s with mem := update s.mem loc (v s) }

end State

section Composites

variable {R W E C ι : Type} [AddCommMonoid R] [Fintype ι] (S : Setup R W E) (D : Device R ι)

abbrev Act (R C ι α : Type) : Type := Fallible (State R C ι) α

/-- A kernel launch, a copy, a hook or a run of checks. -/
def launch (f : State R C ι → State R C ι) : Act R C ι Unit :=
  guarded (fun s => D.fault s.launches) State.tick f

def takePreNormed : Act R C ι Bool :=
  always fun s => (s.inputPreNormed, { s with inputPreNormed := false })

def setPreNormed : Act R C ι Unit := always fun s => ((), { s with inputPreNormed := true })

def nextResidualSlot : Act R C ι Loc :=
  always fun s => (if s.currentResidualIsA then .residB else .residA,
    { s with currentResidualIsA := !s.currentResidualIsA })

section Hooks

def arSumF32 (buf : Loc) : Act R C ι Unit := launch D (State.store buf fun s _ => ∑ r, s.mem buf r)

def arResidualF16 (input : Loc) : Act R C ι Unit :=
  launch D (State.store input fun s r => s.mem input r + ∑ r, s.mem .delta r)

def arResidualRmsnormF16 (input : Loc) (weight : W) (eps : E) : Act R C ι Unit :=
  launch D fun s =>
    (s.store input fun s r => s.mem input r + ∑ r, s.mem .delta r).store .norm fun s r =>
      S.rmsnorm weight eps (s.mem input r)

end Hooks

variable (w : Weights R W E C ι) (input : Loc) (next : Option W)

def rmsnormF16 : Act R C ι Unit :=
  launch D (State.store .norm fun s r => S.rmsnorm w.norm w.rmsEps (s.mem input r))

def quantizeNorm : Act R C ι Unit := launch D (State.store .normQ8 fun s => s.mem .norm)

def rmsnormQuant : Act R C ι Unit :=
  launch D (State.store .normQ8 fun s r => S.rmsnorm w.norm w.rmsEps (s.mem input r))

/-- The head of `standard_attn` and `dense_ffn`. -/
def normalise (inputPreNormed : Bool) : Act R C ι Unit :=
  if inputPreNormed && S.n == 1 then quantizeNorm D
  else if 1 < S.n then do
    rmsnormF16 S D w input
    quantizeNorm D
  else rmsnormQuant S D w input

/-- From the normed input to the activation before the output projection. -/
def runKernel : Act R C ι Unit :=
  launch D fun s =>
    { s with
      mem := update (update s.mem .act fun r => w.kernel.share s.cache r (s.mem .normQ8 r)) .proj
        (D.scratch s.launches)
      cache := w.kernel.advance s.cache (s.mem .normQ8)
      trace := s.trace ++ [s.mem .normQ8] }

def project (dst : Loc) : Act R C ι Unit := launch D (State.store dst fun s => s.mem .act)

def castToDelta : Act R C ι Unit := launch D (State.store .delta fun s => s.mem .proj)

/-- `rmsnorm_f32_to_f16_add_residual` into the next residual slot. -/
def postNormAdd (post : W) : Act R C ι (Option Loc) := do
  let new ← nextResidualSlot
  launch D (State.store new fun s r => s.mem input r + S.rmsnorm post w.rmsEps (s.mem .proj r))
  always fun s => ((), { s with fusedResidualAlreadyDone := true })
  pure (some new)

/-- After `ar_sum_f32`. -/
def finishSum : Act R C ι (Option Loc) := do
  arSumF32 D .proj
  match w.postNorm with
  | some post => postNormAdd S D w input post
  | none =>
    castToDelta D
    pure (some .delta)

def f16Fast : Bool :=
  S.n == 1 && w.postNorm.isNone && w.decodesToF16 &&
    (S.supportsArResidualRmsnorm || S.supportsArResidual)

/-- The F16 share that the fused hooks add up. -/
def shareF16 : Act R C ι Unit := if f16Fast S w then project D .delta else castToDelta D

/-- The output projection and its all-reduce, in `standard_attn` and `dense_ffn`. -/
def outputPath : Act R C ι (Option Loc) := do
  skipWhen (f16Fast S w) (project D .proj)
  match next.filter fun _ => S.n == 1 && w.postNorm.isNone && S.supportsArResidualRmsnorm with
  | some nextW =>
    shareF16 S D w
    arResidualRmsnormF16 S D input nextW w.rmsEps
    setPreNormed
    pure none
  | none =>
    if S.supportsArResidual && w.postNorm.isNone then do
      shareF16 S D w
      arResidualF16 D input
      pure none
    else finishSum S D w input

def standardAttnLocal : Act R C ι (Option Loc) := do
  let inputPreNormed ← takePreNormed
  launch D id
  normalise S D w input inputPreNormed
  runKernel D w
  outputPath S D w input next

def denseFfnLocal : Act R C ι (Option Loc) := do
  let inputPreNormed ← takePreNormed
  normalise S D w input inputPreNormed
  runKernel D w
  outputPath S D w input next

def standardAttnMixedLocal : Act R C ι (Option Loc) := do
  let inputPreNormed ← takePreNormed
  launch D id
  skipWhen inputPreNormed (rmsnormF16 S D w input)
  quantizeNorm D
  runKernel D w
  project D .proj
  if S.supportsArResidual && next.isNone && w.postNorm.isNone then do
    castToDelta D
    arResidualF16 D input
    pure none
  else finishSum S D w input

/-- The all-reduce of a share in `delta` with the residual, and with the next norm where
the caller names one. -/
def foldDelta : Act R C ι (Option Loc) :=
  match next with
  | some nextW =>
    if S.supportsArResidualRmsnorm then do
      arResidualRmsnormF16 S D input nextW w.rmsEps
      setPreNormed
      pure none
    else do
      arResidualF16 D input
      pure none
  | none => do
    arResidualF16 D input
    pure none

/-- The norm is the block's own; a folded one is dropped. -/
def gdnLayerLocal : Act R C ι (Option Loc) := do
  let _ ← takePreNormed
  launch D id
  rmsnormQuant S D w input
  runKernel D w
  if S.n == 1 && S.supportsArResidual then do
    project D .delta
    foldDelta S D w input next
  else do
    project D .proj
    arSumF32 D .proj
    castToDelta D
    pure (some .delta)

/-- The shared expert, added to `delta`. -/
def sharedExpert (shared : Option (ι → R → R)) (synced : Bool) : Act R C ι Unit :=
  match shared with
  | none => pure ()
  | some expert => do
    launch D (State.store .shared fun s r => expert r (s.mem .norm r))
    skipWhen (!synced) (arSumF32 D .shared)
    launch D (State.store .delta fun s r => s.mem .delta r + s.mem .shared r)

def postNormDelta : Act R C ι Unit :=
  match w.postNorm with
  | some post => launch D (State.store .delta fun s r => S.rmsnorm post w.rmsEps (s.mem .delta r))
  | none => pure ()

/-- `moe_ffn` without the fused all-reduce, for one token and for a batch. -/
def moeSum (shared : Option (ι → R → R)) : Act R C ι (Option Loc) := do
  arSumF32 D .proj
  castToDelta D
  sharedExpert D shared true
  postNormDelta S D w
  pure (some .delta)

def moeFfnLocal (shared : Option (ι → R → R)) : Act R C ι (Option Loc) := do
  let inputPreNormed ← takePreNormed
  launch D id
  skipWhen (S.n == 1 && inputPreNormed) (rmsnormF16 S D w input)
  quantizeNorm D
  runKernel D w
  project D .proj
  if S.n == 1 && S.supportsArResidual && w.postNorm.isNone then do
    castToDelta D
    sharedExpert D shared false
    foldDelta S D w input next
  else moeSum S D w shared

def moeCascadeLocal (delta : R → R) : Act R C ι (Option Loc) := do
  let _ ← takePreNormed
  launch D fun s =>
    { s with
      mem := update s.mem .delta fun r => delta (s.mem input r)
      trace := s.trace ++ [s.mem input] }
  pure (some .delta)

def composite (call : Call R W E C ι) (input : Loc) : Act R C ι (Option Loc) :=
  match call.kind with
  | .standardAttn => standardAttnLocal S D call.w input call.next
  | .standardAttnMixed => standardAttnMixedLocal S D call.w input call.next
  | .gdnLayer => gdnLayerLocal S D call.w input call.next
  | .denseFfn => denseFfnLocal S D call.w input call.next
  | .moeFfn shared => moeFfnLocal S D call.w input call.next shared
  | .moeCascade delta => moeCascadeLocal D input delta

/-- `residual_add_local`. -/
def residualAddLocal (a b : Loc) : Act R C ι Loc :=
  branch (fun s => s.fusedResidualAlreadyDone)
    (always fun s => (b, { s with fusedResidualAlreadyDone := false }))
    (do
      let out ← nextResidualSlot
      launch D (State.store out fun s r => s.mem a r + s.mem b r)
      pure out)

def addDelta (resid : Loc) : Option Loc → Act R C ι Loc
  | some b => residualAddLocal D resid b
  | none => pure resid

/-- In-place work on the residual between two composites. -/
def rework (resid : Loc) : List (R → R) → Act R C ι Unit
  | [] => pure ()
  | f :: fs => do
    launch D (State.store resid fun s r => f (s.mem resid r))
    rework resid fs

/-- A composite and, where it has not folded the residual in, the add. -/
def runCall (call : Call R W E C ι) (input : Loc) : Act R C ι Loc := do
  let delta ← composite S D call input
  let resid ← addDelta D input delta
  always fun s => ((), { s with trace := s.trace ++ [s.mem resid] })
  rework D resid call.after
  pure resid

def runCalls : List (Call R W E C ι) → Loc → Act R C ι Loc
  | [], resid => pure resid
  | call :: calls, resid => do
    let resid ← runCall S D call resid
    runCalls calls resid

/-- The first stage looks its rows up, a later one receives them. -/
def embed (isFirst : Bool) (rows : R) : Act R C ι Loc :=
  if isFirst then do
    let dst ← nextResidualSlot
    launch D (State.store dst fun _ _ => rows)
    pure dst
  else do
    launch D (State.store .edge fun _ _ => rows)
    pure .edge

/-- A model's forward on a stage, to its output head or its hand-off. -/
def forward (calls : List (Call R W E C ι)) (isFirst : Bool) (rows : R) : Act R C ι Unit := do
  let resid ← embed D isFirst rows
  let _ ← runCalls S D calls resid
  launch D id

end Composites

section Models

variable {R W E C ι : Type}

/-- An owned layer: attention or GDN, an FFN and, in gemma4, the per-layer embedding and
`layer_output_scale` behind it. -/
structure Layer (R W E C ι : Type) where
  mixer : Kind R ι
  attn : Weights R W E C ι
  ffn : Kind R ι
  ffnWeights : Weights R W E C ι
  after : List (R → R)

def Layer.mix (l : Layer R W E C ι) (next : Option W) : Call R W E C ι :=
  ⟨l.mixer, l.attn, next, []⟩

def Layer.feed (l : Layer R W E C ι) (next : Option W) (after : List (R → R)) : Call R W E C ι :=
  ⟨l.ffn, l.ffnWeights, next, after⟩

def qwen35Calls : List (Layer R W E C ι) → List (Call R W E C ι)
  | [] => []
  | l :: ls => l.mix (some l.ffnWeights.norm) :: l.feed none [] :: qwen35Calls ls

def qwen35MoeCalls : List (Layer R W E C ι) → List (Call R W E C ι)
  | [] => []
  | l :: ls =>
    l.mix (some l.ffnWeights.norm) :: l.feed (ls.head?.map fun l => l.attn.norm) [] :: qwen35MoeCalls ls

def gemma4Calls : List (Layer R W E C ι) → List (Call R W E C ι)
  | [] => []
  | l :: ls => l.mix none :: l.feed none l.after :: gemma4Calls ls

end Models

/-- What a model promises of the norms that it names ahead: each is the next composite's,
under the same epsilon, and nothing stands between. -/
def Linked {R W E C ι : Type} : List (Call R W E C ι) → Prop
  | [] => True
  | call :: calls =>
    (∀ weight, call.next = some weight → call.after = [] ∧
      ∃ d ds, calls = d :: ds ∧ d.w.norm = weight ∧ d.w.rmsEps = call.w.rmsEps) ∧
    Linked calls

section Linking

variable {R W E C ι : Type} {layers : List (Layer R W E C ι)}

/-- The loaders give every norm the model's `rms_eps`. -/
def OneEps (layers : List (Layer R W E C ι)) : Prop :=
  ∃ eps, ∀ l ∈ layers, l.attn.rmsEps = eps ∧ l.ffnWeights.rmsEps = eps

theorem OneEps.tail {l : Layer R W E C ι} (h : OneEps (l :: layers)) : OneEps layers :=
  ⟨h.choose, fun d hd => h.choose_spec d (List.mem_cons_of_mem _ hd)⟩

theorem OneEps.head {l : Layer R W E C ι} (h : OneEps (l :: layers)) :
    l.ffnWeights.rmsEps = l.attn.rmsEps :=
  (h.choose_spec l List.mem_cons_self).2.trans (h.choose_spec l List.mem_cons_self).1.symm

theorem qwen35_linked (h : OneEps layers) : Linked (qwen35Calls layers) := by
  induction layers with
  | nil => trivial
  | cons l ls ih =>
    refine ⟨fun weight hweight => ⟨rfl, _, _, rfl, Option.some.inj hweight, h.head⟩, nofun, ih h.tail⟩

theorem qwen35Moe_linked (h : OneEps layers) : Linked (qwen35MoeCalls layers) := by
  induction layers with
  | nil => trivial
  | cons l ls ih =>
    refine ⟨fun weight hweight => ⟨rfl, _, _, rfl, Option.some.inj hweight, h.head⟩, ?_, ih h.tail⟩
    intro weight hweight
    cases ls with
    | nil => cases hweight
    | cons d ds =>
      obtain ⟨eps, heps⟩ := h
      refine ⟨rfl, _, _, rfl, Option.some.inj hweight, ?_⟩
      exact (heps d (List.mem_cons_of_mem _ List.mem_cons_self)).1.trans
        (heps l List.mem_cons_self).2.symm

theorem gemma4_linked (layers : List (Layer R W E C ι)) : Linked (gemma4Calls layers) := by
  induction layers with
  | nil => trivial
  | cons l ls ih =>
    exact ⟨nofun, nofun, ih⟩

end Linking

end Flambeau.Forward.FusedResidual
