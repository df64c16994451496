import Flambeau.Forward.Attn.Mixed
import Flambeau.Forward.Gdn.Mixed

namespace Flambeau.Models.Qwen35
open Systems Forward Forward.Attn Forward.Gdn

/-- A full-attention layer: F16 rows of its own for every position. -/
structure FullAttn (config : ScratchConfig) (X Q R W : Type) where
  layer : F16Layer
  proj : Projections X Q R W
  /-- The output gate, `attn_output` and the cast back. -/
  attnOutput : X → Attended R W → X
  config_eq : layer.config = config
  ownKv : layer.weights.kvShareSrc = none
  depth_eq : layer.kv.depth = config.maxSeqLen

structure GdnMixer (config : ScratchConfig) (X Z R : Type) where
  layer : GdnLayer X Z X R
  config_eq : layer.config = config

/-- The mixer of a layer, by `LayerKind`, with what it keeps between forwards. -/
inductive Mixer (config : ScratchConfig) (X Q R W Z : Type) where
  | fullAttn (attn : FullAttn config X Q R W) (slab : Nat → R × R)
  | gdn (gdn : GdnMixer config X Z R) (slots : Nat → GdnSlot gdn.layer.dims R)

structure Layer (config : ScratchConfig) (X Q R W Z : Type) where
  mixer : Mixer config X Q R W Z
  /-- `dense_ffn`, a function of each row. -/
  ffn : X → X

structure EmbeddingWeights (X : Type) where
  hidden : Nat
  vocabSize : Nat
  nElems : Nat
  tokenEmbd : Nat → X

structure LmHeadWeights (X L : Type) where
  hidden : Nat
  /-- Norm, LM head and softcap of a row. -/
  logits : X → L

/-- A token of a forward. -/
structure TokenRow where
  token : Nat
  position : Nat
  slot : Nat
deriving Repr, DecidableEq

def TokenRow.row (r : TokenRow) : Nat × Nat := (r.slot, r.position)

section Ops

variable {config : ScratchConfig} {X Q R W Z L : Type}

/-- `embed_local`: a row of the table for each token. -/
def embedLocal (config : ScratchConfig) (weights : EmbeddingWeights X) (rows : List TokenRow) :
    Option (List (AttnToken X)) :=
  if config.hidden != weights.hidden then none
  else if rows.isEmpty then none
  else if rows.any fun r => weights.vocabSize ≤ r.token then none
  else if weights.nElems < weights.vocabSize * config.hidden then none
  else some (rows.map fun r => ⟨r.slot, r.position, weights.tokenEmbd r.token⟩)

def residualAdd [Add X] (resid : List (AttnToken X)) (delta : List X) : List (AttnToken X) :=
  List.zipWith (fun row d => { row with x := row.x + d }) resid delta

/-- `output_head_local`: every row if the slots differ, else the last one. -/
def outputHeadLocal (config : ScratchConfig) (lmHead : LmHeadWeights X L) (input : List X)
    (slotIds : List Nat) : Option (List L) :=
  let nTokens := slotIds.length
  let emitAll := decide (1 < nTokens) && slotIds.any fun s => some s != slotIds.head?
  let nEmit := if emitAll then nTokens else 1
  if config.hidden != lmHead.hidden then none
  else if slotIds.isEmpty then none
  else if config.nSlots < nEmit then none
  else
    let inputSlice := (if emitAll then input else input.drop (nTokens - 1)).take nEmit
    some (inputSlice.map lmHead.logits)

variable [Zero R] [Add R] [Mul R] [Sub R]

namespace Mixer

/-- The block before its residual add. A single device never adds it itself. -/
def forward (mixer : Mixer config X Q R W Z) (resid : List (AttnToken X)) :
    Option (Mixer config X Q R W Z × List X) :=
  match mixer with
  | .fullAttn attn slab =>
    (attnCall attn.layer attn.proj slab resid).map fun after =>
      (.fullAttn attn after.1,
        List.zipWith (fun row out => attn.attnOutput row.x out) resid after.2)
  | .gdn deltaNet slots =>
    (deltaNet.layer.gdnLayerLocal false slots (resid.map fun row => (row.slot, row.x))).map
      fun after => (.gdn deltaNet after.1, after.2)

def forwardMixed (mixer : Mixer config X Q R W Z) (resid : List (AttnToken X))
    (prefillRows : Nat) : Option (Mixer config X Q R W Z × List X) :=
  match mixer with
  | .fullAttn attn slab =>
    (attnCallMixed attn.layer attn.proj slab resid prefillRows).map fun after =>
      (.fullAttn attn after.1,
        List.zipWith (fun row out => attn.attnOutput row.x out) resid after.2)
  | .gdn deltaNet slots =>
    (deltaNet.layer.gdnLayerMixedLocal slots (resid.map fun row => (row.slot, row.x))
      prefillRows).map fun after => (.gdn deltaNet after.1, after.2)

end Mixer

variable [Add X]

namespace Layer

/-- The residual after the mixer, then after the FFN. -/
def finish (layer : Layer config X Q R W Z) (resid : List (AttnToken X)) (delta : List X) :
    List (AttnToken X) :=
  let resid := residualAdd resid delta
  residualAdd resid (resid.map fun row => layer.ffn row.x)

def forward (layer : Layer config X Q R W Z) (resid : List (AttnToken X)) :
    Option (Layer config X Q R W Z × List (AttnToken X)) :=
  (layer.mixer.forward resid).map fun after =>
    ({ layer with mixer := after.1 }, layer.finish resid after.2)

def forwardMixed (prefillRows : Nat) (layer : Layer config X Q R W Z)
    (resid : List (AttnToken X)) : Option (Layer config X Q R W Z × List (AttnToken X)) :=
  (layer.mixer.forwardMixed resid prefillRows).map fun after =>
    ({ layer with mixer := after.1 }, layer.finish resid after.2)

end Layer

end Ops

/-- The weights outside the layers. -/
structure Model (config : ScratchConfig) (X L : Type) where
  embedding : EmbeddingWeights X
  lmHead : LmHeadWeights X L

namespace Model

variable {config : ScratchConfig} {X Q R W Z L : Type} [Zero R] [Add R] [Mul R] [Sub R] [Add X]
  (model : Model config X L)

/-- `forward` over the layers of one device. -/
def forward (layers : List (Layer config X Q R W Z)) (rows : List TokenRow) :
    Option (List (Layer config X Q R W Z) × List L) :=
  (embedLocal config model.embedding rows).bind fun resid =>
    (chain Layer.forward layers resid).bind fun after =>
      (outputHeadLocal config model.lmHead (after.2.map (·.x)) (rows.map (·.slot))).map
        fun logits => (after.1, logits)

/-- The rows that `forward_mixed` hands to its output head: the last of the chunk, then
the decode rows. -/
def emitRows (rows : List α) (prefillRows : Nat) : List α :=
  (rows.drop (prefillRows - 1)).take (rows.length - prefillRows + 1)

def emitSlots (slotIds : List Nat) (prefillRows : Nat) : List Nat :=
  slotIds.take 1 ++ slotIds.drop prefillRows

def forwardMixed (layers : List (Layer config X Q R W Z)) (rows : List TokenRow)
    (prefillRows : Nat) : Option (List (Layer config X Q R W Z) × List L) :=
  if prefillRows = 0 ∨ rows.length ≤ prefillRows then none
  else
    (embedLocal config model.embedding rows).bind fun resid =>
      (chain (Layer.forwardMixed prefillRows) layers resid).bind fun after =>
        (outputHeadLocal config model.lmHead (emitRows (after.2.map (·.x)) prefillRows)
          (emitSlots (rows.map (·.slot)) prefillRows)).map fun logits => (after.1, logits)

end Model

end Flambeau.Models.Qwen35
