import Flambeau.Models.MixedBatch

namespace Flambeau.Models.Qwen35
open Systems Forward Forward.Attn Forward.Gdn

/-- The rows of an edge's `dst`. It grows with the longest hand-off and is not cleared. -/
abbrev Edge (X : Type) := Option (List X)

def peerSend (edge : Edge X) (input : List X) (nTokens : Nat) : Edge X :=
  let dst := match edge with
    | some dst => if dst.length < nTokens then [] else dst
    | none => []
  some (input.take nTokens ++ dst.drop nTokens)

/-- A view of the first rows, for a buffer that is long enough. -/
def peerRecv (edge : Edge X) (nTokens : Nat) : Option (List X) :=
  edge.bind fun dst => if dst.length < nTokens then none else some (dst.take nTokens)

/-- How `forward` or `forward_mixed` goes over a stage: each layer's call, and the rows and
slots it gives to `output_head`. -/
structure Pass (config : ScratchConfig) (X Q R W Z : Type) where
  step : Layer config X Q R W Z → List (AttnToken X) →
    Option (Layer config X Q R W Z × List (AttnToken X))
  emit : List X → List X
  emitSlots : List Nat

/-- One stage of a forward: the rows it starts from and ends with. -/
structure StageRun (config : ScratchConfig) (X Q R W Z : Type) where
  start : List (AttnToken X)
  layers : List (Layer config X Q R W Z)
  finish : List (AttnToken X)

namespace Model

variable {config : ScratchConfig} {X Q R W Z L : Type} (model : Model config X L)

/-- `embed` of the engine: the first stage looks its tokens up, another one takes the rows
its edge holds. -/
def engineEmbed (recv : Option (Edge X)) (rows : List TokenRow) : Option (List (AttnToken X)) :=
  match recv with
  | none => embedLocal config model.embedding rows
  | some edge =>
    (peerRecv edge rows.length).map fun resid =>
      List.zipWith (fun r x => ⟨r.slot, r.position, x⟩) rows resid

/-- A stage between its `embed` and its `output_head`. -/
def runStage (pass : Pass config X Q R W Z) (rows : List TokenRow) (recv : Option (Edge X))
    (layers : List (Layer config X Q R W Z)) : Option (StageRun config X Q R W Z) :=
  (model.engineEmbed recv rows).bind fun resid =>
    (chain pass.step layers resid).map fun after => ⟨resid, after.1, after.2⟩

/-- The stages one after the other: `output_head` of all but the last sends on the edge to
the next. -/
def runStages (pass : Pass config X Q R W Z) (rows : List TokenRow) (recv : Option (Edge X)) :
    List (List (Layer config X Q R W Z)) → (Nat → Edge X) →
      Option (List (StageRun config X Q R W Z) × List L)
  | [], _ => none
  | [layers], _ =>
    (model.runStage pass rows recv layers).bind fun run =>
      (outputHeadLocal config model.lmHead (pass.emit (run.finish.map (·.x)))
        pass.emitSlots).map fun logits => ([run], logits)
  | layers :: next :: rest, edges =>
    (model.runStage pass rows recv layers).bind fun run =>
      let dst := peerSend (edges 0) (pass.emit (run.finish.map (·.x))) pass.emitSlots.length
      (runStages pass rows (some dst) (next :: rest) fun i => edges (i + 1)).map fun out =>
        (run :: out.1, out.2)

section Passes

variable [Zero R] [Add R] [Mul R] [Sub R] [Add X]

def forwardPass (rows : List TokenRow) : Pass config X Q R W Z where
  step := Layer.forward
  emit resid := resid
  emitSlots := rows.map (·.slot)

def mixedPass (rows : List TokenRow) (prefillRows : Nat) : Pass config X Q R W Z where
  step := Layer.forwardMixed prefillRows
  emit resid := emitRows resid prefillRows
  emitSlots := emitSlots (rows.map (·.slot)) prefillRows

def forwardStages (parts : List (List (Layer config X Q R W Z))) (edges : Nat → Edge X)
    (rows : List TokenRow) : Option (List (StageRun config X Q R W Z) × List L) :=
  model.runStages (forwardPass rows) rows none parts edges

def forwardMixedStages (parts : List (List (Layer config X Q R W Z))) (edges : Nat → Edge X)
    (rows : List TokenRow) (prefillRows : Nat) :
    Option (List (StageRun config X Q R W Z) × List L) :=
  if prefillRows = 0 ∨ rows.length ≤ prefillRows then none
  else model.runStages (mixedPass rows prefillRows) rows none parts edges

end Passes

theorem embedLocal_rows {weights : EmbeddingWeights X} {rows : List TokenRow}
    (h : embedLocal config weights rows = some resid) :
    resid.map AttnToken.row = rows.map TokenRow.row := by
  unfold embedLocal at h
  simp only [Option.ite_none_left_eq_some] at h
  obtain ⟨_, _, _, _, h⟩ := h
  obtain rfl := Option.some.inj h
  rw [List.map_map]
  rfl

/-- Every stage after the first starts from the rows that the one before it ended with. -/
def Joined : List (StageRun config X Q R W Z) → Prop
  | stage :: next :: rest => next.start = stage.finish ∧ Joined (next :: rest)
  | _ => True

/-- The stages ran as one device would. -/
def HandsOver (result : Option (List (StageRun config X Q R W Z) × List L))
    (out : List (Layer config X Q R W Z) × List L) : Prop :=
  ∃ runs, result = some (runs, out.2) ∧ Joined runs ∧ runs.flatMap (·.layers) = out.1

/-- A buffer that has been sent `n` rows gives them back. -/
theorem recv_send (edge : Edge X) {xs : List X} (hlen : xs.length = n) :
    peerRecv (peerSend edge xs n) n = some xs := by
  have hlong : ¬(xs.take n ++ (match edge with
      | some dst => if dst.length < n then [] else dst
      | none => []).drop n).length < n := by
    rw [List.length_append, List.length_take, hlen]
    omega
  unfold peerRecv peerSend
  rw [Option.bind_some, if_neg hlong, List.take_of_length_le (Nat.le_of_eq hlen),
    ← hlen, List.take_left]

/-- A new edge holds no more rows than it is sent. -/
theorem recv_short (xs : List X) (h : sent < n) : peerRecv (peerSend none xs sent) n = none := by
  have hshort : (xs.take sent ++ ([] : List X).drop sent).length < n := by
    rw [List.length_append, List.length_take, List.drop_nil, List.length_nil]
    omega
  unfold peerRecv peerSend
  rw [Option.bind_some, if_pos hshort]

/-- The rows of a batch, from what a layer made of them. -/
theorem rows_back {rows : List TokenRow} {resid : List (AttnToken X)}
    (h : resid.map AttnToken.row = rows.map TokenRow.row) :
    List.zipWith (fun (r : TokenRow) x => (⟨r.slot, r.position, x⟩ : AttnToken X)) rows
      (resid.map (·.x)) = resid := by
  induction rows generalizing resid with
  | nil =>
    rw [List.map_nil, List.map_eq_nil_iff] at h
    rw [h]
    rfl
  | cons r rows ih =>
    cases resid with
    | nil => cases h
    | cons row resid =>
      obtain ⟨hrow, hrows⟩ := List.cons.inj h
      obtain ⟨hslot, hposition⟩ := Prod.mk.inj hrow
      rw [List.map_cons, List.zipWith_cons_cons, ih hrows]
      congr 1
      cases row
      cases hslot
      cases hposition
      rfl

/-- A pass that hands over every row. -/
structure Whole (pass : Pass config X Q R W Z) (rows : List TokenRow) : Prop where
  step_rows : ∀ layer resid out, pass.step layer resid = some out →
    out.2.map AttnToken.row = resid.map AttnToken.row
  emit_all : ∀ resid : List X, resid.length = rows.length → pass.emit resid = resid
  count : pass.emitSlots.length = rows.length

/-- Stages that are handed every row run as one device would, whatever the edges hold. -/
theorem runStages_whole {pass : Pass config X Q R W Z} {rows : List TokenRow}
    (hwhole : Whole pass rows) {recv : Option (Edge X)} {resid : List (AttnToken X)}
    (hresid : model.engineEmbed recv rows = some resid)
    (hrows : resid.map AttnToken.row = rows.map TokenRow.row)
    {parts : List (List (Layer config X Q R W Z))} (hparts : parts ≠ [])
    (hchain : chain pass.step parts.flatten resid = some after)
    (hhead : outputHeadLocal config model.lmHead (pass.emit (after.2.map (·.x)))
      pass.emitSlots = some logits) (edges : Nat → Edge X) :
    ∃ first rest, model.runStages pass rows recv parts edges = some (first :: rest, logits) ∧
      first.start = resid ∧ Joined (first :: rest) ∧
      (first :: rest).flatMap (·.layers) = after.1 := by
  induction parts generalizing recv resid edges after with
  | nil => exact absurd rfl hparts
  | cons layers parts ih =>
    rw [List.flatten_cons, chain_append] at hchain
    obtain ⟨mid, hmid, hchain⟩ := Option.bind_eq_some_iff.mp hchain
    obtain ⟨last, hlast, rfl⟩ := Option.map_eq_some_iff.mp hchain
    have hstage : model.runStage pass rows recv layers = some ⟨resid, mid.1, mid.2⟩ := by
      unfold runStage
      rw [hresid, Option.bind_some, hmid]
      rfl
    cases parts with
    | nil =>
      obtain rfl := Option.some.inj hlast
      refine ⟨⟨resid, mid.1, mid.2⟩, [], ?_, rfl, trivial, ?_⟩
      · unfold runStages
        rw [hstage, Option.bind_some, hhead]
        rfl
      · simp
    | cons next parts =>
      have hkept := (chain_keeps pass.step hwhole.step_rows hmid).trans hrows
      have hlen : (mid.2.map (·.x)).length = rows.length := by
        have hlen := congrArg List.length hkept
        rw [List.length_map, List.length_map] at hlen
        rwa [List.length_map]
      let dst := peerSend (edges 0) (pass.emit (mid.2.map (·.x))) pass.emitSlots.length
      have hrecv : model.engineEmbed (some dst) rows = some mid.2 := by
        unfold engineEmbed dst
        rw [hwhole.emit_all _ hlen, hwhole.count]
        dsimp only
        rw [recv_send (edges 0) hlen, Option.map_some, rows_back hkept]
      obtain ⟨first, rest, hrun, hstart, hjoined, hlayers⟩ :=
        ih hrecv hkept (List.cons_ne_nil _ _) hlast hhead fun i => edges (i + 1)
      refine ⟨⟨resid, mid.1, mid.2⟩, first :: rest, ?_, rfl, ⟨hstart, hjoined⟩, ?_⟩
      · unfold runStages
        rw [hstage, Option.bind_some]
        dsimp only
        unfold dst at hrun
        rw [hrun]
        rfl
      · rw [List.flatMap_cons, hlayers]

variable [Zero R] [Add R] [Mul R] [Sub R] [Add X]

/-- `forward` hands over every row, so its stages are one device for every split. -/
theorem forward_hands_over {parts : List (List (Layer config X Q R W Z))} (hparts : parts ≠ [])
    {rows : List TokenRow} (hsingle : model.forward parts.flatten rows = some out)
    (edges : Nat → Edge X) : HandsOver (model.forwardStages parts edges rows) out := by
  unfold forward at hsingle
  obtain ⟨resid, hresid, hsingle⟩ := Option.bind_eq_some_iff.mp hsingle
  obtain ⟨after, hchain, hsingle⟩ := Option.bind_eq_some_iff.mp hsingle
  obtain ⟨logits, hhead, rfl⟩ := Option.map_eq_some_iff.mp hsingle
  have hwhole : Whole (@forwardPass config X Q R W Z _ _ _ _ _ rows) rows :=
    ⟨fun _ _ _ hout => Layer.forward_rows hout, fun _ _ => rfl, List.length_map ..⟩
  obtain ⟨first, rest, hrun, _, hjoined, hlayers⟩ := model.runStages_whole hwhole
    (show model.engineEmbed none rows = some resid from hresid) (embedLocal_rows hresid) hparts hchain hhead edges
  exact ⟨first :: rest, hrun, hjoined, hlayers⟩

/-- A chunk of one row leaves nothing out of the hand-off. -/
theorem mixedPass_whole {rows : List TokenRow} (hrows : 0 < rows.length) :
    Whole (@mixedPass config X Q R W Z _ _ _ _ _ rows 1)
      rows := by
  refine ⟨fun _ _ _ hout => Layer.forwardMixed_rows hout, ?_, ?_⟩
  · intro resid hlen
    unfold mixedPass emitRows
    dsimp only
    rw [Nat.sub_self, List.drop_zero, List.take_of_length_le]
    omega
  · unfold mixedPass emitSlots
    simp only [List.length_append, List.length_take, List.length_drop, List.length_map]
    omega

/-- On a single stage nothing is handed over. -/
theorem one_stage {layers : List (Layer config X Q R W Z)} {rows : List TokenRow}
    (hsingle : model.forwardMixed layers rows prefillRows = some out) (edges : Nat → Edge X) :
    HandsOver (model.forwardMixedStages [layers] edges rows prefillRows) out := by
  unfold forwardMixed at hsingle
  obtain ⟨hguard, hsingle⟩ := Option.ite_none_left_eq_some.mp hsingle
  obtain ⟨resid, hresid, hsingle⟩ := Option.bind_eq_some_iff.mp hsingle
  obtain ⟨after, hchain, hsingle⟩ := Option.bind_eq_some_iff.mp hsingle
  obtain ⟨logits, hhead, rfl⟩ := Option.map_eq_some_iff.mp hsingle
  refine ⟨[⟨resid, after.1, after.2⟩], ?_, trivial, by simp⟩
  unfold forwardMixedStages runStages runStage engineEmbed
  rw [if_neg hguard, hresid, Option.bind_some]
  unfold mixedPass
  rw [hchain, Option.map_some, Option.bind_some, hhead]
  rfl

/-- A longer chunk on new edges: the second stage asks for rows that were not sent. -/
theorem chunk_not_handed_over {first next : List (Layer config X Q R W Z)}
    {rest : List (List (Layer config X Q R W Z))} {rows : List TokenRow}
    (hlong : 1 < prefillRows) :
    model.forwardMixedStages (first :: next :: rest) (fun _ => none) rows prefillRows = none := by
  unfold forwardMixedStages
  split
  · rfl
  · next hguard =>
    have hsent : (emitSlots (rows.map (·.slot)) prefillRows).length < rows.length := by
      unfold emitSlots
      simp only [List.length_append, List.length_take, List.length_drop, List.length_map]
      omega
    have hnone : ∀ xs : List X, ∀ stages : List (List (Layer config X Q R W Z)), ∀ edges,
        model.runStages (mixedPass rows prefillRows) rows
          (some (peerSend none xs (emitSlots (rows.map (·.slot)) prefillRows).length))
          stages edges = none := by
      intro xs stages edges
      have hrecv : model.engineEmbed
          (some (peerSend none xs (emitSlots (rows.map (·.slot)) prefillRows).length)) rows =
          none := by
        unfold engineEmbed
        dsimp only
        rw [recv_short xs hsent]
        rfl
      match stages with
      | [] => rfl
      | [layers] =>
        unfold runStages runStage
        rw [hrecv]
        rfl
      | layers :: after :: stages =>
        unfold runStages runStage
        rw [hrecv]
        rfl
    unfold runStages
    cases model.runStage (mixedPass rows prefillRows) rows none first with
    | none => rfl
    | some run =>
      rw [Option.bind_some]
      dsimp only
      have hrest := hnone ((@mixedPass config X Q R W Z _ _ _ _ _ rows prefillRows).emit (run.finish.map (·.x)))
        (next :: rest) fun _ => none
      unfold mixedPass at hrest ⊢
      rw [hrest]
      rfl

/-- `forward_mixed` over pipeline stages is the single device's, whatever earlier forwards
left on the edges, exactly if there is one stage or a chunk of one row: the stages hand
over the rows that are to be emitted, not the batch. -/
theorem mixed_stages_iff (parts : List (List (Layer config X Q R W Z))) (hparts : parts ≠ [])
    (rows : List TokenRow) (prefillRows : Nat)
    (hsingle : model.forwardMixed parts.flatten rows prefillRows = some out) :
    (∀ edges, HandsOver (model.forwardMixedStages parts edges rows prefillRows) out) ↔
      parts.length = 1 ∨ prefillRows = 1 := by
  constructor
  · intro hall
    apply Classical.byContradiction
    intro hneither
    obtain ⟨hmany, hlong⟩ := not_or.mp hneither
    obtain ⟨first, rest, rfl⟩ := List.exists_cons_of_ne_nil hparts
    have hguard : ¬(prefillRows = 0 ∨ rows.length ≤ prefillRows) := by
      unfold forwardMixed at hsingle
      exact (Option.ite_none_left_eq_some.mp hsingle).1
    cases rest with
    | nil => exact hmany rfl
    | cons next rest =>
      obtain ⟨runs, hrun, _⟩ := hall fun _ => none
      rw [model.chunk_not_handed_over (by omega)] at hrun
      cases hrun
  · rintro (hone | rfl) edges
    · obtain ⟨layers, rfl⟩ := List.length_eq_one_iff.mp hone
      rw [List.flatten_singleton] at hsingle
      exact model.one_stage hsingle edges
    · unfold forwardMixed at hsingle
      obtain ⟨hguard, hsingle⟩ := Option.ite_none_left_eq_some.mp hsingle
      obtain ⟨resid, hresid, hsingle⟩ := Option.bind_eq_some_iff.mp hsingle
      obtain ⟨after, hchain, hsingle⟩ := Option.bind_eq_some_iff.mp hsingle
      obtain ⟨logits, hhead, rfl⟩ := Option.map_eq_some_iff.mp hsingle
      obtain ⟨first, rest, hrun, _, hjoined, hlayers⟩ :=
        model.runStages_whole (mixedPass_whole (by omega)) (show model.engineEmbed none _ = some resid from hresid)
          (embedLocal_rows hresid) hparts hchain hhead edges
      refine ⟨first :: rest, ?_, hjoined, hlayers⟩
      unfold forwardMixedStages
      rw [if_neg hguard]
      exact hrun

end Model

/-- Batches of up to four rows. -/
def fourRows : ScratchConfig := { oneHeadGdn.config with maxPrefillTokens := 4 }

def stageAttn : F16Layer :=
  { oneHeadAttn with
    config := fourRows
    qFits := by decide
    kvFits := by decide
    prefill_pos := by decide }

def stageLayer : Layer fourRows Int Int Int Int Int where
  mixer := .fullAttn
    { layer := stageAttn
      proj := ⟨fun x _ => x, fun x => x, none, fun k _ => k, fun v => v, fun _ keys => keys⟩
      attnOutput := fun _ out => (out.keys.map fun key => key.2.2).sum
      config_eq := rfl
      ownKv := rfl
      depth_eq := rfl }
    fun _ => (0, 0)
  ffn := fun x => x

def stageModel : Model fourRows Int Int := ⟨tinyModel.embedding, tinyModel.lmHead⟩

/-- A chunk of one row and a decode over two stages. -/
theorem one_row_chunk_handed_over :
    ∃ out, stageModel.forwardMixed [stageLayer, stageLayer] [⟨3, 0, 0⟩, ⟨5, 0, 1⟩] 1 = some out ∧
      ((∀ edges, Model.HandsOver
          (stageModel.forwardMixedStages [[stageLayer], [stageLayer]] edges
            [⟨3, 0, 0⟩, ⟨5, 0, 1⟩] 1) out) ↔
        [[stageLayer], [stageLayer]].length = 1 ∨ 1 = 1) := by
  have hsome : (stageModel.forwardMixed [stageLayer, stageLayer] [⟨3, 0, 0⟩, ⟨5, 0, 1⟩] 1).isSome =
      true := by decide
  obtain ⟨out, hout⟩ := Option.isSome_iff_exists.mp hsome
  exact ⟨out, hout, stageModel.mixed_stages_iff [[stageLayer], [stageLayer]]
    (List.cons_ne_nil _ _) _ 1 hout⟩

/-- A chunk of two rows and a decode over two stages, after a forward of three rows: the
second stage takes the last row of the chunk for its first and a row of the earlier
forward for its last. -/
theorem two_row_chunk_shifted :
    ∃ out, stageModel.forwardMixed [stageLayer, stageLayer]
        [⟨3, 0, 0⟩, ⟨4, 1, 0⟩, ⟨5, 0, 1⟩] 2 = some out ∧ out.2 = [112, 80] ∧
      (stageModel.forwardMixedStages [[stageLayer], [stageLayer]] (fun _ => some [7, 7, 7])
          [⟨3, 0, 0⟩, ⟨4, 1, 0⟩, ⟨5, 0, 1⟩] 2).map
        (fun result => (result.1.map fun run => (run.start.map (·.x), run.finish.map (·.x)),
          result.2)) =
        some ([([3, 4, 5], [12, 22, 20]), ([22, 20, 7], [88, 124, 28])], [124, 28]) ∧
      ¬Model.HandsOver (stageModel.forwardMixedStages [[stageLayer], [stageLayer]]
        (fun _ => some [7, 7, 7]) [⟨3, 0, 0⟩, ⟨4, 1, 0⟩, ⟨5, 0, 1⟩] 2) out := by
  have hsingle : (stageModel.forwardMixed [stageLayer, stageLayer]
      [⟨3, 0, 0⟩, ⟨4, 1, 0⟩, ⟨5, 0, 1⟩] 2).map Prod.snd = some [112, 80] := by decide
  have hstages : (stageModel.forwardMixedStages [[stageLayer], [stageLayer]]
      (fun _ => some [7, 7, 7]) [⟨3, 0, 0⟩, ⟨4, 1, 0⟩, ⟨5, 0, 1⟩] 2).map
      (fun result => (result.1.map fun run => (run.start.map (·.x), run.finish.map (·.x)),
        result.2)) =
      some ([([3, 4, 5], [12, 22, 20]), ([22, 20, 7], [88, 124, 28])], [124, 28]) := by decide
  obtain ⟨out, hout, hlogits⟩ := Option.map_eq_some_iff.mp hsingle
  refine ⟨out, hout, hlogits, hstages, ?_⟩
  rintro ⟨runs, hrun, _⟩
  rw [hrun, Option.map_some, hlogits] at hstages
  have hsnd : ([112, 80] : List Int) = [124, 28] := congrArg Prod.snd (Option.some.inj hstages)
  exact absurd hsnd (by decide)

end Flambeau.Models.Qwen35
