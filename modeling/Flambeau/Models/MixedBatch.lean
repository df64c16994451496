import Flambeau.Models.Qwen35

namespace Flambeau.Models.Qwen35
open Systems Forward Forward.Attn Forward.Gdn

section Layers

variable {config : ScratchConfig} {X Q R W Z L : Type} [Zero R] [Add R] [Mul R] [Sub R]

namespace Mixer

/-- A block that returns gives a delta for each row. -/
theorem forward_length {mixer : Mixer config X Q R W Z} {resid : List (AttnToken X)}
    (h : mixer.forward resid = some after) : after.2.length = resid.length := by
  cases mixer with
  | fullAttn attn slab =>
    obtain ⟨out, hout, rfl⟩ := Option.map_eq_some_iff.mp h
    have hlen := attnCall_length attn.layer attn.proj hout
    rw [List.length_zipWith, hlen, Nat.min_self]
  | gdn deltaNet slots =>
    obtain ⟨out, hout, rfl⟩ := Option.map_eq_some_iff.mp h
    have hlen := deltaNet.layer.gdnLayerLocal_length hout
    rwa [List.length_map] at hlen

theorem forwardMixed_length {mixer : Mixer config X Q R W Z} {resid : List (AttnToken X)}
    (h : mixer.forwardMixed resid prefillRows = some after) :
    after.2.length = resid.length := by
  cases mixer with
  | fullAttn attn slab =>
    obtain ⟨out, hout, rfl⟩ := Option.map_eq_some_iff.mp h
    have hlen := attnCallMixed_length attn.layer attn.proj hout
    rw [List.length_zipWith, hlen, Nat.min_self]
  | gdn deltaNet slots =>
    obtain ⟨out, hout, rfl⟩ := Option.map_eq_some_iff.mp h
    have hlen := deltaNet.layer.gdnLayerMixedLocal_length hout
    rwa [List.length_map] at hlen

end Mixer

/-- A batch with one row on each slot that decodes. -/
theorem singles_of_rows {calls : List (List (AttnToken X))} {rows : List (Nat × Nat)}
    (h : calls.map (List.map AttnToken.row) = rows.map fun r => [r]) :
    ∃ tokens : List (AttnToken X), calls = tokens.map (fun token => [token]) ∧ tokens.map AttnToken.row = rows := by
  induction calls generalizing rows with
  | nil =>
    rw [List.map_nil] at h
    exact ⟨[], rfl, (List.map_eq_nil_iff.mp h.symm).symm⟩
  | cons call calls ih =>
    cases rows with
    | nil => cases h
    | cons r rows =>
      obtain ⟨hcall, hcalls⟩ := List.cons.inj h
      obtain ⟨token, rfl, hrow⟩ := List.map_eq_singleton_iff.mp hcall
      obtain ⟨tokens, rfl, hrows⟩ := ih hcalls
      exact ⟨token :: tokens, rfl, by rw [List.map_cons, hrow, hrows]⟩

/-- The calls that a mixed batch stands for: its chunk, then each decode row. -/
structure Calls (config : ScratchConfig) (slot start : Nat) (prefill decodes : List (Nat × Nat))
    (calls : List (List (AttnToken X))) : Prop where
  rows : calls.map (List.map AttnToken.row) = prefill :: decodes.map fun r => [r]
  mixed : MixedRows slot start prefill decodes
  count : (prefill ++ decodes).length ≤ config.maxPrefillTokens
  few : decodes.length ≤ 32

theorem Calls.parts {calls : List (List (AttnToken X))}
    (h : Calls config slot start prefillRows decodeRows calls) :
    ∃ prefill decodes : List (AttnToken X), calls = prefill :: decodes.map (fun token => [token]) ∧
      prefill.map AttnToken.row = prefillRows ∧ decodes.map AttnToken.row = decodeRows := by
  have hrows := h.rows
  cases calls with
  | nil => cases hrows
  | cons prefill calls =>
    obtain ⟨hprefill, hcalls⟩ := List.cons.inj hrows
    obtain ⟨decodes, rfl, hdecodes⟩ := singles_of_rows hcalls
    exact ⟨prefill, decodes, rfl, hprefill, hdecodes⟩

theorem flatten_singles (decodes : List α) :
    (decodes.map fun token => [token]).flatten = decodes := by
  rw [← List.flatMap_def, ← List.map_eq_flatMap, List.map_id']

theorem lengths_of_tryFeed {step : σ → List ι → Option (σ × List ο)} {s : σ}
    {calls : List (List ι)}
    (h : ∀ s call out, step s call = some out → out.2.length = call.length)
    (hrun : tryFeed step s calls = some after) :
    calls.map List.length = after.2.map List.length :=
  (tryFeed_keeps step h hrun).symm

namespace Mixer

/-- The mixed call of a block is its calls one at a time. -/
theorem forwardMixed_eq (hpaged : config.pagedKv = none) (mixer : Mixer config X Q R W Z)
    {calls : List (List (AttnToken X))}
    (h : Calls config slot start prefillRows decodeRows calls) :
    mixer.forwardMixed calls.flatten prefillRows.length =
      (tryFeed Mixer.forward mixer calls).map fun after => (after.1, after.2.flatten) := by
  obtain ⟨prefill, decodes, rfl, rfl, rfl⟩ := h.parts
  have hcount := h.count
  rw [← List.map_append, List.length_map] at hcount
  have hfew := h.few
  rw [List.length_map] at hfew
  rw [List.length_map, List.flatten_cons, flatten_singles]
  cases mixer with
  | fullAttn attn slab =>
    have hmixed := attnCallMixed_eq attn.layer attn.proj slab h.mixed attn.ownKv
      (by rw [attn.config_eq, hpaged]) (Nat.le_of_eq (by rw [attn.config_eq, attn.depth_eq]))
      (by rwa [attn.config_eq]) hfew
    have hstep := tryFeed_view
      (fun slab resid => (attnCall attn.layer attn.proj slab resid).map fun after =>
        (after.1, List.zipWith (fun row out => attn.attnOutput row.x out) resid after.2))
      (show ∀ slab resid, Mixer.forward (Z := Z) (Mixer.fullAttn attn slab) resid = _ by
        intro slab resid
        unfold forward
        rw [Option.map_map]
        rfl) slab (prefill :: decodes.map fun token => [token])
    rw [tryFeed_out (attnCall attn.layer attn.proj)
      (List.zipWith fun row out => attn.attnOutput row.x out)] at hstep
    rw [hstep]
    unfold forwardMixed
    dsimp only
    rw [hmixed, Option.map_map, Option.map_map, Option.map_map]
    apply Option.map_congr
    intro after hafter
    have hlen := lengths_of_tryFeed (fun s call out hout => attnCall_length _ _ hout) hafter
    simp only [Function.comp]
    rw [flatten_zipWith _ hlen, List.flatten_cons, flatten_singles]
  | gdn deltaNet slots =>
    have hstep := tryFeed_view
      (fun slots (resid : List (AttnToken X)) =>
        deltaNet.layer.gdnLayerLocal false slots (resid.map fun row => (row.slot, row.x)))
      (show ∀ slots resid, Mixer.forward (Q := Q) (W := W) (Mixer.gdn deltaNet slots) resid = _ from
        fun slots resid => rfl) slots (prefill :: decodes.map fun token => [token])
    have hslots := h.mixed.slots
    have hmixed := deltaNet.layer.gdnLayerMixedLocal_eq slots
      (show prefill.map (fun row => (row.slot, row.x)) ≠ [] by simpa using h.mixed.prefill_ne)
      (show decodes.map (fun row => (row.slot, row.x)) ≠ [] by simpa using h.mixed.decodes_ne)
      (show ∀ token ∈ prefill.map (fun row => (row.slot, row.x)), token.1 = slot by
        intro token hmem
        obtain ⟨row, hrow, rfl⟩ := List.mem_map.mp hmem
        exact h.mixed.slot_eq _ (List.mem_map.mpr ⟨row, hrow, rfl⟩))
      (by
        rw [List.map_map] at hslots ⊢
        exact hslots)
      (by
        intro token hmem
        obtain ⟨row, hrow, rfl⟩ := List.mem_map.mp hmem
        exact h.mixed.others _ (List.mem_map.mpr ⟨row, hrow, rfl⟩))
      (by rwa [← List.map_append, List.length_map, deltaNet.config_eq])
    rw [← List.map_append, List.length_map] at hmixed
    have hcalls : (prefill.map fun row => (row.slot, row.x)) ::
        (decodes.map fun row => (row.slot, row.x)).map (fun token => [token]) =
        (prefill :: decodes.map fun token => [token]).map
          (List.map fun row => (row.slot, row.x)) := by
      rw [List.map_cons, List.map_map, List.map_map]
      rfl
    rw [hcalls, tryFeed_map] at hmixed
    rw [hstep]
    unfold forwardMixed
    dsimp only
    rw [hmixed, Option.map_map, Option.map_map]
    rfl

end Mixer

/-- A slot past the pool's fails every block. -/
theorem Mixer.forward_invalid {resid : List (AttnToken X)} (hmem : row ∈ resid)
    (h : config.nSlots ≤ row.slot) (mixer : Mixer config X Q R W Z) :
    mixer.forward resid = none := by
  cases mixer with
  | fullAttn attn slab =>
    have hinvalid : ¬attn.layer.valid (resid.map AttnToken.row) := by
      intro hvalid
      have hlt : row.slot < attn.layer.config.nSlots :=
        (hvalid _ (List.mem_map.mpr ⟨row, hmem, rfl⟩)).2
      rw [attn.config_eq] at hlt
      omega
    unfold forward
    dsimp only
    rw [attnCall_invalid attn.layer attn.proj hinvalid]
    rfl
  | gdn deltaNet slots =>
    have hrow : (row.slot, row.x) ∈ resid.map fun row => (row.slot, row.x) :=
      List.mem_map.mpr ⟨row, hmem, rfl⟩
    have hslot : deltaNet.layer.config.nSlots ≤ row.slot := by
      rw [deltaNet.config_eq]
      exact h
    unfold forward
    dsimp only
    rw [deltaNet.layer.gdnLayerLocal_invalid false hrow hslot]
    rfl

variable [Add X]

namespace Layer

def finishRow (layer : Layer config X Q R W Z) (row : AttnToken X) (delta : X) : AttnToken X :=
  let row := { row with x := row.x + delta }
  { row with x := row.x + layer.ffn row.x }

omit [Zero R] [Add R] [Mul R] [Sub R] in
theorem finish_eq (layer : Layer config X Q R W Z) (resid : List (AttnToken X)) (delta : List X) :
    layer.finish resid delta = List.zipWith layer.finishRow resid delta := by
  induction resid generalizing delta with
  | nil => rfl
  | cons row resid ih =>
    cases delta with
    | nil => rfl
    | cons d delta =>
      rw [List.zipWith_cons_cons, ← ih]
      rfl

omit [Zero R] [Add R] [Mul R] [Sub R] in
theorem finish_rows (layer : Layer config X Q R W Z) {resid : List (AttnToken X)} {delta : List X}
    (h : delta.length = resid.length) :
    (layer.finish resid delta).map AttnToken.row = resid.map AttnToken.row := by
  rw [finish_eq]
  apply List.ext_getElem
  · simp [h]
  · intro i _ _
    simp [finishRow, AttnToken.row]

/-- A layer keeps the slot and the position of every row. -/
theorem forward_rows {layer : Layer config X Q R W Z} {resid : List (AttnToken X)}
    (h : layer.forward resid = some after) :
    after.2.map AttnToken.row = resid.map AttnToken.row := by
  obtain ⟨out, hout, rfl⟩ := Option.map_eq_some_iff.mp h
  exact layer.finish_rows (Mixer.forward_length hout)

theorem forwardMixed_rows {layer : Layer config X Q R W Z} {resid : List (AttnToken X)}
    (h : layer.forwardMixed prefillRows resid = some after) :
    after.2.map AttnToken.row = resid.map AttnToken.row := by
  obtain ⟨out, hout, rfl⟩ := Option.map_eq_some_iff.mp h
  exact layer.finish_rows (Mixer.forwardMixed_length hout)

/-- The mixed call of a layer is its calls one at a time. -/
theorem forwardMixed_eq (hpaged : config.pagedKv = none) (layer : Layer config X Q R W Z)
    {calls : List (List (AttnToken X))}
    (h : Calls config slot start prefillRows decodeRows calls) :
    layer.forwardMixed prefillRows.length calls.flatten =
      (tryFeed Layer.forward layer calls).map fun after => (after.1, after.2.flatten) := by
  have hstep := tryFeed_view
    (fun (mixer : Mixer config X Q R W Z) resid => (mixer.forward resid).map fun after =>
      (after.1, layer.finish resid after.2))
    (show ∀ (mixer : Mixer config X Q R W Z) resid, Layer.forward { layer with mixer } resid = _ by
      intro mixer resid
      unfold forward
      rw [Option.map_map]
      rfl) layer.mixer calls
  rw [tryFeed_out Mixer.forward layer.finish] at hstep
  have hlayer : { layer with mixer := layer.mixer } = layer := rfl
  rw [hlayer] at hstep
  rw [hstep]
  unfold forwardMixed
  rw [layer.mixer.forwardMixed_eq hpaged h, Option.map_map, Option.map_map, Option.map_map]
  apply Option.map_congr
  intro after hafter
  have hlen := lengths_of_tryFeed (fun s call out hout => Mixer.forward_length hout) hafter
  have hfinish : ∀ (xss : List (List (AttnToken X))) (yss : List (List X)),
      List.zipWith layer.finish xss yss =
        List.zipWith (List.zipWith layer.finishRow) xss yss := by
    intro xss yss
    congr 1
    funext xs ys
    exact layer.finish_eq xs ys
  simp only [Function.comp]
  rw [hfinish, flatten_zipWith _ hlen, ← finish_eq]

end Layer

/-- The mixed forward of a stack of layers is its forwards one at a time. -/
theorem layers_mixed (hpaged : config.pagedKv = none) (layers : List (Layer config X Q R W Z))
    {calls : List (List (AttnToken X))}
    (h : Calls config slot start prefillRows decodeRows calls) :
    chain (Layer.forwardMixed prefillRows.length) layers calls.flatten =
      (tryFeed (chain Layer.forward) layers calls).map fun after =>
        (after.1, after.2.flatten) := by
  apply chain_joint Layer.forward _ _ layers h
  · intro layer calls h
    exact layer.forwardMixed_eq hpaged h
  · intro layer calls after h hafter
    refine { h with rows := ?_ }
    rw [← h.rows]
    exact tryFeed_keeps Layer.forward (fun s x out hout => Layer.forward_rows hout) hafter

end Layers

section Head

variable {config : ScratchConfig} {X L : Type}

def embedRow (weights : EmbeddingWeights X) (r : TokenRow) : AttnToken X :=
  ⟨r.slot, r.position, weights.tokenEmbd r.token⟩

/-- The table is the pool's, and as long as its vocabulary says. -/
def tableOk (config : ScratchConfig) (weights : EmbeddingWeights X) : Bool :=
  config.hidden == weights.hidden && decide (weights.vocabSize * config.hidden ≤ weights.nElems)

theorem embedLocal_some {weights : EmbeddingWeights X} (htable : tableOk config weights = true)
    {rows : List TokenRow} (hne : rows ≠ []) (hvocab : ∀ r ∈ rows, r.token < weights.vocabSize) :
    embedLocal config weights rows = some (rows.map (embedRow weights)) := by
  have hany : (rows.any fun r => decide (weights.vocabSize ≤ r.token)) = false := by
    rw [List.any_eq_false]
    intro r hr
    simpa using hvocab r hr
  unfold tableOk at htable
  simp only [Bool.and_eq_true, beq_iff_eq, decide_eq_true_eq] at htable
  obtain ⟨hhidden, hsize⟩ := htable
  rw [hhidden] at hsize
  unfold embedLocal
  rw [hhidden, bne_self_eq_false, if_neg (by simp), List.isEmpty_eq_false_iff.mpr hne,
    if_neg (by simp), hany, if_neg (by simp), if_neg (Nat.not_lt.mpr hsize)]
  rfl

theorem embedLocal_table {weights : EmbeddingWeights X} (h : tableOk config weights = false)
    (rows : List TokenRow) : embedLocal config weights rows = none := by
  unfold tableOk at h
  unfold embedLocal
  by_cases hhidden : config.hidden = weights.hidden
  · rw [hhidden, beq_self_eq_true, Bool.true_and, decide_eq_false_iff_not] at h
    rw [hhidden, if_pos (Nat.not_le.mp h)]
    simp
  · rw [if_pos (bne_iff_ne.mpr hhidden)]

theorem embedLocal_vocab {weights : EmbeddingWeights X} {rows : List TokenRow} (hmem : r ∈ rows)
    (h : weights.vocabSize ≤ r.token) : embedLocal config weights rows = none := by
  have hany : (rows.any fun r => decide (weights.vocabSize ≤ r.token)) = true :=
    List.any_eq_true.mpr ⟨r, hmem, decide_eq_true h⟩
  unfold embedLocal
  rw [hany]
  simp

/-- The last row. -/
def lastRow (input : List α) : List α := input.drop (input.length - 1)

/-- The head of a forward for one slot emits the last row. -/
theorem outputHead_one {lmHead : LmHeadWeights X L} (hhidden : config.hidden = lmHead.hidden)
    {input : List X} {slotIds : List Nat} (hlen : input.length = slotIds.length)
    (hne : slotIds ≠ []) (hslot : ∀ s ∈ slotIds, s = slot) :
    outputHeadLocal config lmHead input slotIds = some ((lastRow input).map lmHead.logits) := by
  have hpos := List.length_pos_iff.mpr hne
  have hsame : (slotIds.any fun s => some s != slotIds.head?) = false := by
    rw [List.any_eq_false]
    intro s hs
    rw [List.head?_eq_some_head hne, hslot s hs, hslot _ (List.head_mem hne)]
    simp
  have hslots : ¬config.nSlots < 1 := by
    unfold ScratchConfig.nSlots
    omega
  unfold outputHeadLocal lastRow
  dsimp only
  rw [hhidden, bne_self_eq_false, List.isEmpty_eq_false_iff.mpr hne, hsame, Bool.and_false,
    if_neg (by simp), if_neg (by simp), if_neg (by simpa using hslots)]
  simp only [Bool.false_eq_true, if_false]
  rw [hlen, List.take_of_length_le]
  rw [List.length_drop, hlen]
  omega

/-- The head of a batch of several slots emits every row. -/
theorem outputHead_all {lmHead : LmHeadWeights X L} (hhidden : config.hidden = lmHead.hidden)
    {input : List X} {slotIds : List Nat} (hlen : input.length = slotIds.length)
    (hslots : slotIds.Nodup) (hmany : 1 < slotIds.length)
    (hfits : slotIds.length ≤ config.nSlots) :
    outputHeadLocal config lmHead input slotIds = some (input.map lmHead.logits) := by
  have hdiffer : (slotIds.any fun s => some s != slotIds.head?) = true := by
    obtain ⟨first, rest, rfl⟩ := List.exists_cons_of_length_pos (Nat.lt_trans Nat.zero_lt_one hmany)
    obtain ⟨second, rest, rfl⟩ := List.exists_cons_of_length_pos (Nat.lt_of_succ_lt_succ hmany)
    have hne : second ≠ first := by
      intro heq
      exact (List.nodup_cons.mp hslots).1 (heq ▸ List.mem_cons_self)
    exact List.any_eq_true.mpr ⟨second, List.mem_cons_of_mem _ List.mem_cons_self, by simpa using hne⟩
  have hne : slotIds.isEmpty = false := by
    cases slotIds with
    | nil => cases hmany
    | cons => rfl
  unfold outputHeadLocal
  dsimp only
  rw [hhidden, bne_self_eq_false, hne, hdiffer, decide_eq_true hmany, if_neg (by simp),
    if_neg (by simp), if_neg (by simpa using hfits)]
  simp only [Bool.and_self, if_true]
  rw [List.take_of_length_le (by omega)]

theorem outputHead_hidden {lmHead : LmHeadWeights X L} (h : config.hidden ≠ lmHead.hidden)
    (input : List X) (slotIds : List Nat) : outputHeadLocal config lmHead input slotIds = none :=
  if_pos (bne_iff_ne.mpr h)

/-- What `forward_mixed` emits of a chunk and its decode rows. -/
theorem emitRows_append {prefill decodes : List α} (hprefill : prefill ≠ []) :
    Model.emitRows (prefill ++ decodes) prefill.length = lastRow prefill ++ decodes := by
  have hpos := List.length_pos_iff.mpr hprefill
  unfold Model.emitRows lastRow
  rw [List.drop_append_of_le_length (by omega), List.take_of_length_le]
  rw [List.length_append, List.length_append, List.length_drop]
  omega

end Head

namespace Model

variable {config : ScratchConfig} {X Q R W Z L : Type} [Zero R] [Add R] [Mul R] [Sub R] [Add X]
  (model : Model config X L)

/-- A forward for one slot whose tokens are in the vocabulary. -/
theorem forward_one (hhidden : config.hidden = model.lmHead.hidden)
    (htable : tableOk config model.embedding = true) {rows : List TokenRow} (hne : rows ≠ [])
    (hslot : ∀ r ∈ rows, r.slot = slot) (hvocab : ∀ r ∈ rows, r.token < model.embedding.vocabSize)
    (layers : List (Layer config X Q R W Z)) :
    model.forward layers rows =
      (chain Layer.forward layers (rows.map (embedRow model.embedding))).map fun after =>
        (after.1, (lastRow (after.2.map (·.x))).map model.lmHead.logits) := by
  unfold forward
  rw [embedLocal_some htable hne hvocab, Option.bind_some]
  cases hchain : chain Layer.forward layers (rows.map (embedRow model.embedding)) with
  | none => rfl
  | some after =>
    have hrows := chain_keeps Layer.forward (fun s x out hout => Layer.forward_rows hout) hchain
    have hlen := congrArg List.length hrows
    rw [List.length_map, List.length_map, List.length_map] at hlen
    rw [Option.bind_some, Option.map_some,
      @outputHead_one _ _ _ slot _ hhidden _ _ (by simpa using hlen) (by simpa using hne)]
    · rfl
    · intro s hs
      obtain ⟨r, hr, rfl⟩ := List.mem_map.mp hs
      exact hslot r hr

/-- A call that every state of the layers refuses. -/
def Refuses (rows : List TokenRow) : Prop :=
  embedLocal config model.embedding rows = none ∨ config.hidden ≠ model.lmHead.hidden

theorem forward_refused {rows : List TokenRow} (h : model.Refuses rows)
    (layers : List (Layer config X Q R W Z)) : model.forward layers rows = none := by
  unfold forward
  rcases h with hembed | hhidden
  · rw [hembed]
    rfl
  · cases embedLocal config model.embedding rows with
    | none => rfl
    | some resid =>
      rw [Option.bind_some]
      cases chain Layer.forward layers resid with
      | none => rfl
      | some after =>
        rw [Option.bind_some, outputHead_hidden hhidden]
        rfl

theorem forwardMixed_refused {rows : List TokenRow} (h : model.Refuses rows)
    (layers : List (Layer config X Q R W Z)) (prefillRows : Nat) :
    model.forwardMixed layers rows prefillRows = none := by
  unfold forwardMixed
  split
  · rfl
  · rcases h with hembed | hhidden
    · rw [hembed]
      rfl
    · cases embedLocal config model.embedding rows with
      | none => rfl
      | some resid =>
        rw [Option.bind_some]
        cases chain (Layer.forwardMixed prefillRows) layers resid with
        | none => rfl
        | some after =>
          rw [Option.bind_some, outputHead_hidden hhidden]
          rfl

/-- One call that is refused stops the parts and the mixed forward. -/
theorem mixed_refused {prefill decodes : List TokenRow} (layers : List (Layer config X Q R W Z))
    (hall : model.Refuses (prefill ++ decodes))
    (hcall : ∃ call ∈ prefill :: decodes.map (fun r => [r]), model.Refuses call) :
    model.forwardMixed layers (prefill ++ decodes) prefill.length =
      (tryFeed model.forward layers (prefill :: decodes.map fun r => [r])).map fun after =>
        (after.1, after.2.flatten) := by
  obtain ⟨call, hmem, hrefuses⟩ := hcall
  rw [model.forwardMixed_refused hall,
    tryFeed_refused model.forward hmem (model.forward_refused hrefuses)]
  rfl

/-- A stack that took every call has a slot for every row. -/
theorem slots_of_run {layers : List (Layer config X Q R W Z)} (hlayers : layers ≠ [])
    {calls : List (List (AttnToken X))}
    (hrun : tryFeed (chain Layer.forward) layers calls = some after) :
    ∀ call ∈ calls, ∀ row ∈ call, row.slot < config.nSlots := by
  intro call hcall row hrow
  obtain ⟨layer, layers, rfl⟩ := List.exists_cons_of_ne_nil hlayers
  rw [tryFeed_chain_cons] at hrun
  obtain ⟨mid, hmid, _⟩ := Option.bind_eq_some_iff.mp hrun
  apply Nat.lt_of_not_le
  intro hslot
  have hrefused : ∀ layer : Layer config X Q R W Z, layer.forward call = none := by
    intro layer
    unfold Layer.forward
    rw [Mixer.forward_invalid hrow hslot]
    rfl
  rw [tryFeed_refused Layer.forward hcall hrefused] at hmid
  cases hmid

/-- The parts of a mixed batch, once nothing refuses them outright. -/
theorem parts_eq (hhidden : config.hidden = model.lmHead.hidden)
    (htable : tableOk config model.embedding = true) {prefill decodes : List TokenRow}
    (hne : prefill ≠ []) (hslot : ∀ r ∈ prefill, r.slot = slot)
    (hvocab : ∀ r ∈ prefill ++ decodes, r.token < model.embedding.vocabSize)
    (layers : List (Layer config X Q R W Z)) :
    tryFeed model.forward layers (prefill :: decodes.map fun r => [r]) =
      (tryFeed (chain Layer.forward) layers
        ((prefill.map (embedRow model.embedding)) ::
          (decodes.map (embedRow model.embedding)).map fun row => [row])).map fun after =>
        (after.1, after.2.map fun resid =>
          (lastRow (resid.map (·.x))).map model.lmHead.logits) := by
  have hcalls : ∀ layers : List (Layer config X Q R W Z),
      ∀ call ∈ prefill :: decodes.map (fun r => [r]),
      model.forward layers call =
        (chain Layer.forward layers (call.map (embedRow model.embedding))).map fun after =>
          (after.1, (lastRow (after.2.map (·.x))).map model.lmHead.logits) := by
    intro layers call hcall
    rcases List.mem_cons.mp hcall with rfl | hcall
    · exact model.forward_one hhidden htable hne hslot
        (fun r hr => hvocab r (List.mem_append_left _ hr)) layers
    · obtain ⟨r, hr, rfl⟩ := List.mem_map.mp hcall
      refine model.forward_one hhidden htable (List.cons_ne_nil _ _) (?_ : ∀ r' ∈ [r], r'.slot = r.slot) ?_ layers
      · intro r' hr'
        rw [List.mem_singleton.mp hr']
      · intro r' hr'
        rw [List.mem_singleton.mp hr']
        exact hvocab r (List.mem_append_right _ hr)
  have hembed : (prefill.map (embedRow model.embedding)) ::
      (decodes.map (embedRow model.embedding)).map (fun row => [row]) =
      (prefill :: decodes.map fun r => [r]).map (List.map (embedRow model.embedding)) := by
    rw [List.map_cons, List.map_map, List.map_map]
    rfl
  rw [tryFeed_congr model.forward hcalls, hembed, tryFeed_map]
  exact tryFeed_after
    (fun (layers : List (Layer config X Q R W Z)) (call : List TokenRow) =>
      chain Layer.forward layers (call.map (embedRow model.embedding)))
    (fun resid => (lastRow (resid.map (·.x))).map model.lmHead.logits) layers _

omit [Add X] in
/-- What both sides emit once the layers have run: the last row of the chunk and every
decode row. -/
theorem mixed_head (hhidden : config.hidden = model.lmHead.hidden)
    {prefill decodes : List (AttnToken X)} {slotIds : List Nat} (hprefill : prefill ≠ [])
    (hdecodes : decodes ≠ []) (hslotIds : slotIds = prefill.map (·.slot) ++ decodes.map (·.slot))
    (hslot : ∀ row ∈ prefill, row.slot = slot) (hslots : (decodes.map (·.slot)).Nodup)
    (hothers : ∀ row ∈ decodes, row.slot ≠ slot)
    (hvalid : ∀ row ∈ prefill ++ decodes, row.slot < config.nSlots) :
    outputHeadLocal config model.lmHead
        (emitRows ((prefill ++ decodes).map (·.x)) prefill.length)
        (emitSlots slotIds prefill.length) =
      some ((prefill :: decodes.map fun row => [row]).map fun resid =>
        (lastRow (resid.map (·.x))).map model.lmHead.logits).flatten := by
  have hpos := List.length_pos_iff.mpr hprefill
  have hdpos := List.length_pos_iff.mpr hdecodes
  have hemit : emitRows ((prefill ++ decodes).map (·.x)) prefill.length =
      lastRow (prefill.map (·.x)) ++ decodes.map (·.x) := by
    have happend := @emitRows_append _ (prefill.map (·.x)) (decodes.map (·.x)) (fun hnil => hprefill
      (List.map_eq_nil_iff.mp hnil))
    rwa [← List.map_append, List.length_map] at happend
  have hids : emitSlots slotIds prefill.length = slot :: decodes.map (·.slot) := by
    obtain ⟨first, rest, rfl⟩ := List.exists_cons_of_ne_nil hprefill
    unfold emitSlots
    rw [hslotIds, ← @List.length_map _ _ (first :: rest) (·.slot), List.drop_left,
      List.map_cons, hslot first List.mem_cons_self]
    rfl
  have hnodup : (slot :: decodes.map (·.slot)).Nodup := by
    refine List.nodup_cons.mpr ⟨?_, hslots⟩
    intro hmem
    obtain ⟨row, hrow, heq⟩ := List.mem_map.mp hmem
    exact hothers row hrow heq
  have hfits : (slot :: decodes.map (·.slot)).length ≤ config.nSlots := by
    have hsubset : slot :: decodes.map (·.slot) ⊆ List.range config.nSlots := by
      intro s hs
      rw [List.mem_range]
      rcases List.mem_cons.mp hs with rfl | hs
      · obtain ⟨row, hrow⟩ := List.exists_mem_of_ne_nil _ hprefill
        rw [← hslot row hrow]
        exact hvalid row (List.mem_append_left _ hrow)
      · obtain ⟨row, hrow, rfl⟩ := List.mem_map.mp hs
        exact hvalid row (List.mem_append_right _ hrow)
    have hle := hnodup.length_le_of_subset hsubset
    rwa [List.length_range] at hle
  rw [hemit, hids, outputHead_all hhidden _ hnodup _ hfits]
  · congr 1
    rw [List.map_append, List.map_cons, List.flatten_cons, List.map_map, ← List.flatMap_def]
    congr 1
    rw [List.flatMap_map, List.map_eq_flatMap]
    rfl
  · unfold lastRow
    simp only [List.length_append, List.length_drop, List.length_map, List.length_cons]
    omega
  · rw [List.length_cons, List.length_map]
    omega

/-- A mixed batch that nothing refuses outright. -/
theorem mixed_runs (hhidden : config.hidden = model.lmHead.hidden)
    (htable : tableOk config model.embedding = true) (hpaged : config.pagedKv = none)
    {layers : List (Layer config X Q R W Z)} (hlayers : layers ≠ [])
    {prefill decodes : List TokenRow}
    (hvocab : ∀ r ∈ prefill ++ decodes, r.token < model.embedding.vocabSize)
    (hrows : MixedRows slot start (prefill.map TokenRow.row) (decodes.map TokenRow.row))
    (hcount : prefill.length + decodes.length ≤ config.maxPrefillTokens)
    (hfew : decodes.length ≤ 32) :
    model.forwardMixed layers (prefill ++ decodes) prefill.length =
      (tryFeed model.forward layers (prefill :: decodes.map fun r => [r])).map fun after =>
        (after.1, after.2.flatten) := by
  have hprefill : prefill ≠ [] := fun hnil => hrows.prefill_ne (List.map_eq_nil_iff.mpr hnil)
  have hdecodes : decodes ≠ [] := fun hnil => hrows.decodes_ne (List.map_eq_nil_iff.mpr hnil)
  have hpos := List.length_pos_iff.mpr hprefill
  have hdpos := List.length_pos_iff.mpr hdecodes
  have hslot : ∀ r ∈ prefill, r.slot = slot := by
    intro r hr
    exact hrows.slot_eq _ (List.mem_map.mpr ⟨r, hr, rfl⟩)
  have hembedded : ∀ rows : List TokenRow,
      (rows.map (embedRow model.embedding)).map AttnToken.row = rows.map TokenRow.row := by
    intro rows
    rw [List.map_map]
    rfl
  let calls := (prefill.map (embedRow model.embedding)) ::
    (decodes.map (embedRow model.embedding)).map fun row => [row]
  have hcalls : Calls config slot start (prefill.map TokenRow.row) (decodes.map TokenRow.row)
      calls := by
    refine ⟨?_, hrows, ?_, ?_⟩
    · simp only [calls, List.map_cons, hembedded, List.map_map]
      rfl
    · simpa using hcount
    · simpa using hfew
  have hjoint := layers_mixed hpaged layers hcalls
  have hflat : calls.flatten = (prefill ++ decodes).map (embedRow model.embedding) := by
    rw [List.flatten_cons, flatten_singles, ← List.map_append]
  rw [hflat, List.length_map] at hjoint
  have hguard : ¬(prefill.length = 0 ∨ (prefill ++ decodes).length ≤ prefill.length) := by
    rw [List.length_append]
    omega
  rw [model.parts_eq hhidden htable hprefill hslot hvocab layers, Option.map_map]
  unfold forwardMixed
  rw [if_neg hguard, embedLocal_some htable (by simp [hprefill]) hvocab, Option.bind_some, hjoint]
  cases hrun : tryFeed (chain Layer.forward) layers calls with
  | none => rfl
  | some after =>
    have hslots := slots_of_run hlayers hrun
    have hkept := tryFeed_keeps (chain Layer.forward)
      (fun s x out hout => chain_keeps Layer.forward
        (fun s x out hout => Layer.forward_rows hout) hout) hrun
    have hafter : Calls config slot start (prefill.map TokenRow.row) (decodes.map TokenRow.row)
        after.2 := { hcalls with rows := hkept.trans hcalls.rows }
    obtain ⟨prefill', decodes', heq, hprefill', hdecodes'⟩ := hafter.parts
    have hvalid : ∀ r ∈ prefill ++ decodes, r.slot < config.nSlots := by
      intro r hr
      rcases List.mem_append.mp hr with hr | hr
      · exact hslots _ List.mem_cons_self (embedRow model.embedding r)
          (List.mem_map.mpr ⟨r, hr, rfl⟩)
      · exact hslots [embedRow model.embedding r]
          (List.mem_cons_of_mem _ (List.mem_map.mpr ⟨_, List.mem_map.mpr ⟨r, hr, rfl⟩, rfl⟩))
          _ List.mem_cons_self
    have hids : ∀ {rows : List (AttnToken X)} {tokens : List TokenRow},
        rows.map AttnToken.row = tokens.map TokenRow.row →
        rows.map (·.slot) = tokens.map (·.slot) := by
      intro rows tokens hrows
      have hfst := congrArg (List.map Prod.fst) hrows
      rwa [List.map_map, List.map_map] at hfst
    have hmem : ∀ {rows : List (AttnToken X)} {tokens : List TokenRow},
        rows.map AttnToken.row = tokens.map TokenRow.row →
        ∀ row ∈ rows, ∃ r ∈ tokens, r.slot = row.slot := by
      intro rows tokens hrows row hrow
      have hslot : row.slot ∈ tokens.map (·.slot) := by
        rw [← hids hrows]
        exact List.mem_map.mpr ⟨row, hrow, rfl⟩
      exact List.mem_map.mp hslot
    have hcount' : prefill'.length = prefill.length := by
      have hlen := congrArg List.length hprefill'
      rwa [List.length_map, List.length_map] at hlen
    have hhead := @mixed_head config X L model slot hhidden prefill' decodes' ((prefill ++ decodes).map (·.slot))
      (by
        apply List.length_pos_iff.mp
        omega)
      (by
        rintro rfl
        rw [List.map_nil] at hdecodes'
        exact hdecodes (List.map_eq_nil_iff.mp hdecodes'.symm))
      (by rw [List.map_append, hids hprefill', hids hdecodes'])
      (by
        intro row hrow
        obtain ⟨r, hr, heq⟩ := hmem hprefill' row hrow
        rw [← heq]
        exact hslot r hr)
      (by
        have hnodup := hrows.slots
        rw [List.map_map] at hnodup
        rw [hids hdecodes']
        exact hnodup)
      (by
        intro row hrow
        obtain ⟨r, hr, heq⟩ := hmem hdecodes' row hrow
        rw [← heq]
        exact hrows.others _ (List.mem_map.mpr ⟨r, hr, rfl⟩))
      (by
        intro row hrow
        rcases List.mem_append.mp hrow with hrow | hrow
        · obtain ⟨r, hr, heq⟩ := hmem hprefill' row hrow
          rw [← heq]
          exact hvalid r (List.mem_append_left _ hr)
        · obtain ⟨r, hr, heq⟩ := hmem hdecodes' row hrow
          rw [← heq]
          exact hvalid r (List.mem_append_right _ hr))
    rw [hcount'] at hhead
    rw [Option.map_some, Option.bind_some, Option.map_some]
    dsimp only [Function.comp]
    rw [heq, List.flatten_cons, flatten_singles, hhead]
    rfl

end Model

/-- An attention layer beside `oneHeadGdn`. -/
def oneHeadAttn : F16Layer where
  config := oneHeadGdn.config
  kv := ⟨2 * 16 * 128, 64, 128, .f16Contig, 16⟩
  weights := ⟨1, 1, 64, 0, false, none⟩
  headsOk := rfl
  qFits := by decide
  kvFits := by decide
  width := rfl
  layout := rfl
  rowBytes := rfl
  depth_pos := by decide
  prefill_pos := by decide

/-- The output of a query is the sum of the V it saw. -/
def attnLayer : Layer oneHeadGdn.config Int Int Int Int Int where
  mixer := .fullAttn
    { layer := oneHeadAttn
      proj := ⟨fun x _ => x, fun x => x, none, fun k _ => k, fun v => v, fun _ keys => keys⟩
      attnOutput := fun _ out => (out.keys.map fun key => key.2.2).sum
      config_eq := rfl
      ownKv := rfl
      depth_eq := rfl }
    fun _ => (0, 0)
  ffn := fun x => x

def gdnLayer : Layer oneHeadGdn.config Int Int Int Int Int where
  mixer := .gdn ⟨oneHeadGdn, rfl⟩ fun _ => zeroSlot
  ffn := fun x => x

def tinyModel : Model oneHeadGdn.config Int Int where
  embedding := ⟨64, 8, 512, fun token => token⟩
  lmHead := ⟨64, fun x => x⟩

end Flambeau.Models.Qwen35
