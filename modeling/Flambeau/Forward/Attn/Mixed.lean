import Flambeau.Forward.Attn.Batched
import Flambeau.Systems.Chain

namespace Flambeau.Forward.Attn
open Systems

/-- An op that is accepted, and the ops after it. -/
theorem runLaunches_accepted (content : Nat → Bool → Option α) (slab : Nat → α) {op : Launch}
    (h : op.accepted = true) (ops : List Launch) :
    runLaunches content slab (op :: ops) =
      ((runLaunches content (op.writes.foldl (store content) slab) ops).1,
        (runLaunches content (op.writes.foldl (store content) slab) ops).2.map fun seen =>
          op.attends.map (look (op.writes.foldl (store content) slab)) ++ seen) := if_pos h

theorem runLaunches_refused (content : Nat → Bool → Option α) (slab : Nat → α) {op : Launch}
    (h : op.accepted = false) (ops : List Launch) :
    runLaunches content slab (op :: ops) = (slab, none) := by
  unfold runLaunches
  rw [h]
  rfl

/-- More ops go on from the slabs the first ones leave. -/
theorem runLaunches_append (content : Nat → Bool → Option α) {slab mid : Nat → α}
    {front : List Launch} (hfront : runLaunches content slab front = (mid, some seen))
    (back : List Launch) :
    runLaunches content slab (front ++ back) =
      ((runLaunches content mid back).1, (runLaunches content mid back).2.map (seen ++ ·)) := by
  induction front generalizing slab seen with
  | nil =>
    obtain ⟨rfl, hseen⟩ := Prod.mk.inj hfront
    obtain rfl := Option.some.inj hseen
    rw [List.nil_append]
    cases hback : runLaunches content slab back with
    | mk after outs => cases outs <;> rfl
  | cons op ops ih =>
    cases hop : op.accepted with
    | false =>
      rw [runLaunches_refused content slab hop] at hfront
      exact absurd (congrArg Prod.snd hfront) nofun
    | true =>
      rw [runLaunches_accepted content slab hop] at hfront
      obtain ⟨hmid, hseen⟩ := Prod.mk.inj hfront
      obtain ⟨rest, hrest, rfl⟩ := Option.map_eq_some_iff.mp hseen
      rw [List.cons_append, runLaunches_accepted content slab hop, ih (Prod.ext hmid hrest),
        Option.map_map]
      simp only [Function.comp_def, List.append_assoc]

/-- A call that returns has seen what its ops attend to. -/
theorem runLaunches_length {content : Nat → Bool → Option α} {slab : Nat → α}
    {ops : List Launch} (h : (runLaunches content slab ops).2 = some seen) :
    seen.length = (ops.map (·.attends.length)).sum := by
  induction ops generalizing slab seen with
  | nil =>
    obtain rfl := Option.some.inj h
    rfl
  | cons op ops ih =>
    cases hop : op.accepted with
    | false =>
      rw [runLaunches_refused content slab hop] at h
      cases h
    | true =>
      rw [runLaunches_accepted content slab hop] at h
      obtain ⟨rest, hrest, rfl⟩ := Option.map_eq_some_iff.mp h
      rw [List.length_append, List.length_map, ih hrest, List.map_cons, List.sum_cons]

theorem batchedSlots_attends (config : ScratchConfig) (kv : KvCache) (weights : AttnWeights)
    (rows : List (Nat × Nat)) (firstRow : Nat) (vNormed : Bool) :
    ((batchedSlots config kv weights rows firstRow vNormed).map (·.attends.length)).sum =
      rows.length := by
  unfold batchedSlots kvAppendF16BatchedSlots attnDecodeF16Batched
  cases weights.kvShareSrc.isSome <;> simp

theorem contiguousAttn_attends (config : ScratchConfig) (kv : KvCache) (weights : AttnWeights)
    {content : Nat → Bool → Option α} {slab : Nat → α} {rows : List (Nat × Nat)}
    (h : (runLaunches content slab (contiguousAttn config kv weights rows)).2 = some seen) :
    seen.length = rows.length := by
  have hseen := runLaunches_length h
  rw [hseen]
  cases rows with
  | nil => cases h
  | cons first rest =>
    obtain ⟨slot, start⟩ := first
    unfold contiguousAttn at h ⊢
    dsimp only at h ⊢
    by_cases hshape : (weights.call ((slot, start) :: rest)).prefillShape = true
    · rw [if_pos hshape]
      have happend : ∀ view n, ((kvAppend config kv weights view n start).map
          (·.attends.length)).sum = 0 := by
        intro view n
        unfold kvAppend
        cases kv.layout <;> cases weights.attnVUnitNorm <;> rfl
      have hdecode : ∀ view, (decodeToken config kv weights view start).attends.length = 1 := by
        intro view
        unfold decodeToken
        dsimp only
        rw [apply_ite (fun op : Launch => op.attends.length)]
        exact ite_self 1
      unfold singleSlot
      dsimp only
      rw [List.map_append, List.sum_append]
      have hzero : ((if weights.kvShareSrc.isSome = true then []
          else kvAppend config kv weights (slotView kv weights slot)
            ((slot, start) :: rest).length start).map (·.attends.length)).sum = 0 := by
        split
        · rfl
        · exact happend _ _
      rw [hzero, Nat.zero_add]
      by_cases hone : ((slot, start) :: rest).length = 1
      · rw [if_pos hone, List.map_singleton, hdecode, hone]
        rfl
      · rw [if_neg hone]
        unfold attnPrefill
        simp
    · rw [if_neg hshape] at h ⊢
      by_cases hslots : config.nSlots ≤ 1
      · rw [if_pos hslots] at h
        cases h
      · rw [if_neg hslots, batchedSlots_attends]

namespace F16Layer

variable (layer : F16Layer)

/-- `standard_attn_mixed_local` on the layer. -/
def attnMixed (rows : List (Nat × Nat)) (prefillRows : Nat) : List Launch :=
  if mixedShape layer.weights rows prefillRows && layer.config.pagedKv.isNone &&
      layer.weights.kvShareSrc.isNone && admits layer.config layer.kv layer.weights rows &&
      decide (1 < layer.config.nSlots) then
    contiguousMixed layer.config layer.kv layer.weights rows prefillRows
  else [.bail]

theorem admits_iff (rows : List (Nat × Nat)) :
    admits layer.config layer.kv layer.weights rows = true ↔
      rows ≠ [] ∧ layer.valid rows ∧ rows.length ≤ layer.config.maxPrefillTokens := by
  unfold admits valid
  simp [layer.qFits, layer.kvFits, layer.width, and_assoc]

theorem vUnitNorm_accepted :
    (vUnitNormPerHeadF16 layer.weights).accepted = true := by
  have hheads := layer.headsOk
  unfold AttnWeights.headsOk at hheads
  simp only [Bool.and_eq_true, decide_eq_true_eq, List.mem_cons, List.not_mem_nil,
    or_false] at hheads
  unfold vUnitNormPerHeadF16
  rcases hheads.1.1.1 with h | h | h | h <;> rw [h] <;> rfl

end F16Layer

/-- The rows of a mixed batch: a chunk of one slot, then rows of other slots, one each. -/
structure MixedRows (slot start : Nat) (prefill decodes : List (Nat × Nat)) : Prop where
  chunk : prefill = F16Layer.chunk slot start prefill.length
  prefill_ne : prefill ≠ []
  decodes_ne : decodes ≠ []
  slots : (decodes.map Prod.fst).Nodup
  others : ∀ r ∈ decodes, r.1 ≠ slot

namespace MixedRows

variable {slot start : Nat} {prefill decodes : List (Nat × Nat)}
  (h : MixedRows slot start prefill decodes)

include h

theorem slot_eq : ∀ r ∈ prefill, r.1 = slot := by
  intro r hr
  rw [h.chunk] at hr
  obtain ⟨i, _, rfl⟩ := List.mem_map.mp hr
  rfl

theorem head : (prefill ++ decodes).head? = some (slot, start) := by
  have hpos := List.length_pos_iff.mpr h.prefill_ne
  rw [h.chunk, List.head?_append]
  obtain ⟨n, hn⟩ : ∃ n, prefill.length = n + 1 := ⟨prefill.length - 1, by omega⟩
  rw [hn]
  unfold F16Layer.chunk
  rw [List.range_succ_eq_map]
  rfl

theorem mixedShape (weights : AttnWeights) :
    Attn.mixedShape weights (prefill ++ decodes) prefill.length = true := by
  have hprefill := List.length_pos_iff.mpr h.prefill_ne
  have hdecodes := List.length_pos_iff.mpr h.decodes_ne
  have hchunk : (weights.call prefill).prefillShape = true := by
    rw [h.chunk]
    exact chunk_prefillShape weights slot start _
  have hothers : (decodes.all fun r => some r.1 != (prefill ++ decodes).head?.map Prod.fst) =
      true := by
    rw [h.head]
    apply List.all_eq_true.mpr
    intro r hr
    simpa using h.others r hr
  unfold Attn.mixedShape
  rw [List.take_left, List.drop_left, hchunk, hothers, List.length_append]
  simp only [decide_eq_true hprefill, decide_eq_true (Nat.lt_add_of_pos_right hdecodes),
    Bool.and_self]

/-- A mixed batch is on two slots at least. -/
theorem many_slots (hvalid : ∀ r ∈ prefill ++ decodes, r.1 < n) : 1 < n := by
  obtain ⟨first, hfirst⟩ := List.exists_mem_of_ne_nil _ h.prefill_ne
  obtain ⟨other, hother⟩ := List.exists_mem_of_ne_nil _ h.decodes_ne
  have hne := h.others other hother
  rw [← h.slot_eq first hfirst] at hne
  have hfirst := hvalid first (List.mem_append_left _ hfirst)
  have hother := hvalid other (List.mem_append_right _ hother)
  omega

/-- The chunk ends where its last row is. -/
theorem prefill_end (hvalid : ∀ r ∈ prefill ++ decodes, r.2 < n) :
    start + prefill.length ≤ n := by
  have hpos := List.length_pos_iff.mpr h.prefill_ne
  have hlast : (slot, start + (prefill.length - 1)) ∈ F16Layer.chunk slot start prefill.length :=
    List.mem_map.mpr ⟨prefill.length - 1, List.mem_range.mpr (by omega), rfl⟩
  rw [← h.chunk] at hlast
  have hlt : start + (prefill.length - 1) < n := hvalid _ (List.mem_append_left _ hlast)
  omega

end MixedRows

def AttnToken.row (token : AttnToken X) : Nat × Nat := (token.slot, token.position)

section

variable {X Q R W : Type} (layer : F16Layer) (proj : Projections X Q R W)

/-- A call that returns: the slabs and a result for each row. -/
def attnCall (slab : Nat → R × R) (tokens : List (AttnToken X)) :
    Option ((Nat → R × R) × List (Attended R W)) :=
  let after := standardAttn layer proj slab tokens
  after.2.map fun outs => (after.1, outs)

/-- One `standard_attn_mixed_local` call on the layer. -/
def standardAttnMixed (slab : Nat → R × R) (tokens : List (AttnToken X)) (prefillRows : Nat) :
    (Nat → R × R) × Option (List (Attended R W)) :=
  let kvTokens := tokens.map proj.kvToken
  let after := runLaunches (KvToken.content kvTokens) slab
    (layer.attnMixed (kvTokens.map KvToken.row) prefillRows)
  (after.1, after.2.map fun seen => List.zipWith proj.attended tokens seen)

def attnCallMixed (slab : Nat → R × R) (tokens : List (AttnToken X)) (prefillRows : Nat) :
    Option ((Nat → R × R) × List (Attended R W)) :=
  let after := standardAttnMixed layer proj slab tokens prefillRows
  after.2.map fun outs => (after.1, outs)

theorem rows_map (tokens : List (AttnToken X)) :
    (tokens.map proj.kvToken).map KvToken.row = tokens.map AttnToken.row := List.map_map

omit layer proj in
theorem contiguousMixed_head {config : ScratchConfig} {kv : KvCache} {weights : AttnWeights}
    {rows : List (Nat × Nat)} (hhead : rows.head? = some (slot, pos0)) (prefillRows : Nat) :
    contiguousMixed config kv weights rows prefillRows =
      (if weights.attnVUnitNorm then [vUnitNormPerHeadF16 weights] else []) ++
        [kvAppendF16 (f16View kv weights slot)
            ⟨prefillRows, pos0, kv.depth, ringDepth config kv⟩ weights.attnVUnitNorm,
          attnPrefill weights (f16View kv weights slot) (slotStrideElems kv weights)
            ⟨prefillRows, pos0 + prefillRows, pos0⟩ ⟨weights.windowSize, ringDepth config kv⟩] ++
        batchedSlots config kv weights (rows.drop prefillRows) prefillRows
          weights.attnVUnitNorm := by
  cases rows with
  | nil => cases hhead
  | cons first rest =>
    obtain rfl := Option.some.inj hhead
    rfl

/-- The chunk of a mixed call: its rows are stored, then each runs over its window. -/
theorem run_mixed_chunk (content : Nat → Bool → Option (R × R)) (slab : Nat → R × R)
    {tokens : List (AttnToken X)}
    (hchunk : tokens.map AttnToken.row = F16Layer.chunk slot start n)
    (hcontent : ∀ i token, (tokens.map proj.kvToken)[i]? = some token →
      content (0 + i) layer.weights.attnVUnitNorm = some (token.kv layer.weights.attnVUnitNorm))
    (hown : layer.isKvShared = false)
    (hend : start + n ≤ layer.config.maxSeqLen) (hfits : n ≤ layer.kv.depth) :
    runLaunches content slab
        ((if layer.weights.attnVUnitNorm then [vUnitNormPerHeadF16 layer.weights] else []) ++
          [kvAppendF16 (f16View layer.kv layer.weights slot)
              ⟨n, start, layer.kv.depth, ringDepth layer.config layer.kv⟩
              layer.weights.attnVUnitNorm,
            attnPrefill layer.weights (f16View layer.kv layer.weights slot)
              (slotStrideElems layer.kv layer.weights) ⟨n, start + n, start⟩
              ⟨layer.weights.windowSize, ringDepth layer.config layer.kv⟩]) =
      (let after := storedBy layer proj layer.weights.attnVUnitNorm slab tokens
       (after, some ((layer.attendsOf (tokens.map AttnToken.row) 0).map (look after)))) := by
  have happend := layer.kvAppendF16_appends slot layer.weights.attnVUnitNorm hend hfits
  obtain ⟨hattention, hok⟩ := layer.attnPrefill_attention slot hend
  have hstored := layer.writesOf_tokens layer.weights.attnVUnitNorm (tokens.map proj.kvToken) 0
    content hcontent slab
  have hpair := @F16Layer.run_append_attention layer _ _ _ _ content _ _ happend hattention slab false
  rw [rows_map, hchunk] at hstored
  rw [hok] at hpair
  simp only [Bool.false_eq_true, if_false, if_true, List.singleton_append, hstored] at hpair
  have hafter : storedBy layer proj layer.weights.attnVUnitNorm slab tokens =
      (tokens.map proj.kvToken).foldl (layer.put layer.weights.attnVUnitNorm) slab := by
    unfold storedBy
    rw [hown]
    rfl
  dsimp only
  rw [hafter, hchunk]
  cases hnorm : layer.weights.attnVUnitNorm with
  | false =>
    rw [hnorm] at hpair
    exact hpair
  | true =>
    rw [hnorm] at hpair
    have hnone : (vUnitNormPerHeadF16 layer.weights).writes = [] := rfl
    rw [if_pos rfl, List.singleton_append,
      runLaunches_accepted content slab layer.vUnitNorm_accepted, hnone, List.foldl_nil, hpair]
    rfl

/-- The decode rows of a mixed call. -/
theorem run_mixed_decodes (content : Nat → Bool → Option (R × R)) (slab : Nat → R × R)
    {tokens : List (AttnToken X)} (firstRow : Nat) (hne : tokens ≠ [])
    (hvalid : layer.valid (tokens.map AttnToken.row))
    (hcontent : ∀ i token, (tokens.map proj.kvToken)[i]? = some token →
      content (firstRow + i) layer.weights.attnVUnitNorm =
        some (token.kv layer.weights.attnVUnitNorm))
    (hown : layer.isKvShared = false) :
    runLaunches content slab
        (batchedSlots layer.config layer.kv layer.weights (tokens.map AttnToken.row) firstRow
          layer.weights.attnVUnitNorm) =
      (let after := storedBy layer proj layer.weights.attnVUnitNorm slab tokens
       (after,
        if tokens.length ≤ 32 then
          some ((layer.attendsOf (tokens.map AttnToken.row) firstRow).map (look after))
        else none)) := by
  have hrows : tokens.map AttnToken.row ≠ [] := fun hnil => hne (List.map_eq_nil_iff.mp hnil)
  obtain ⟨append, attention, hops, happend, hattention, hok⟩ :=
    layer.batchedSlots_spec hvalid hrows firstRow layer.weights.attnVUnitNorm
  have hstored := layer.writesOf_tokens layer.weights.attnVUnitNorm (tokens.map proj.kvToken)
    firstRow content hcontent slab
  rw [rows_map] at hstored
  rw [hops, hown, layer.run_append_attention happend hattention, hok, List.length_map]
  unfold storedBy
  rw [hown]
  simp only [Bool.false_eq_true, if_false, hstored, decide_eq_true_eq]

/-- A call that returns gives each row one result. -/
theorem attnCall_length {slab : Nat → R × R} {tokens : List (AttnToken X)}
    (h : attnCall layer proj slab tokens = some after) : after.2.length = tokens.length := by
  unfold attnCall at h
  obtain ⟨outs, houts, rfl⟩ := Option.map_eq_some_iff.mp h
  unfold standardAttn F16Layer.attn at houts
  obtain ⟨seen, hseen, rfl⟩ := Option.map_eq_some_iff.mp houts
  by_cases hadmits : admits layer.config layer.kv layer.weights
      ((tokens.map proj.kvToken).map KvToken.row) = true
  · rw [if_pos hadmits] at hseen
    have hlen := contiguousAttn_attends _ _ _ hseen
    rw [List.length_zipWith, hlen, List.length_map, List.length_map, Nat.min_self]
  · rw [if_neg hadmits] at hseen
    cases hseen

theorem attnCallMixed_length {slab : Nat → R × R} {tokens : List (AttnToken X)}
    (h : attnCallMixed layer proj slab tokens prefillRows = some after) :
    after.2.length = tokens.length := by
  unfold attnCallMixed at h
  obtain ⟨outs, houts, rfl⟩ := Option.map_eq_some_iff.mp h
  unfold standardAttnMixed F16Layer.attnMixed at houts
  obtain ⟨seen, hseen, rfl⟩ := Option.map_eq_some_iff.mp houts
  generalize hrows : (tokens.map proj.kvToken).map KvToken.row = rows at hseen
  have hcount : rows.length = tokens.length := by
    rw [← hrows, List.length_map, List.length_map]
  split at hseen
  · next hchecks =>
    simp only [Bool.and_eq_true] at hchecks
    have hshape := hchecks.1.1.1.1
    unfold mixedShape at hshape
    simp only [Bool.and_eq_true, decide_eq_true_eq] at hshape
    have hlen := runLaunches_length hseen
    cases hhead : rows.head? with
    | none =>
      rw [List.head?_eq_none_iff] at hhead
      rw [hhead] at hseen
      cases hseen
    | some first =>
      have hzero : ((if layer.weights.attnVUnitNorm = true then
          [vUnitNormPerHeadF16 layer.weights] else []).map (·.attends.length)).sum = 0 := by
        split <;> rfl
      rw [contiguousMixed_head hhead, List.map_append, List.sum_append, batchedSlots_attends,
        List.map_append, List.sum_append, hzero, List.length_drop] at hlen
      simp only [List.map_cons, List.map_nil, List.sum_cons, List.sum_nil, kvAppendF16,
        attnPrefill, List.length_nil, List.length_map, List.length_range] at hlen
      rw [List.length_zipWith]
      omega
  · cases hseen

/-- The ops of a mixed call: its chunk is stored and attended to, then the decode rows
are. -/
theorem standardAttnMixed_eq (slab : Nat → R × R) {prefill decodes : List (AttnToken X)}
    (hrows : MixedRows slot start (prefill.map AttnToken.row) (decodes.map AttnToken.row))
    (hown : layer.weights.kvShareSrc = none) (hpaged : layer.config.pagedKv = none)
    (hvalid : layer.valid ((prefill ++ decodes).map AttnToken.row))
    (hcount : (prefill ++ decodes).length ≤ layer.config.maxPrefillTokens)
    (hfits : prefill.length ≤ layer.kv.depth) :
    standardAttnMixed layer proj slab (prefill ++ decodes) prefill.length =
      (let chunk := storedBy layer proj layer.weights.attnVUnitNorm slab prefill
       let after := storedBy layer proj layer.weights.attnVUnitNorm chunk decodes
       (after,
        if decodes.length ≤ 32 then
          some (prefill.map (outputOver layer proj chunk) ++
            decodes.map (outputOver layer proj after))
        else none)) := by
  have hshared : layer.isKvShared = false := by
    unfold F16Layer.isKvShared
    rw [hown]
    rfl
  have hmany := hrows.many_slots (n := layer.config.nSlots) fun r hr =>
    (hvalid r (by rwa [List.map_append])).2
  have hshape := hrows.mixedShape layer.weights
  have hhead := hrows.head
  rw [← List.map_append, List.length_map] at hshape
  rw [← List.map_append] at hhead
  have hne : (prefill ++ decodes).map AttnToken.row ≠ [] := by
    intro hnil
    rw [hnil] at hhead
    cases hhead
  have hadmits := (layer.admits_iff ((prefill ++ decodes).map AttnToken.row)).mpr
    ⟨hne, hvalid, by rwa [List.length_map]⟩
  have hops : layer.attnMixed ((prefill ++ decodes).map AttnToken.row) prefill.length =
      contiguousMixed layer.config layer.kv layer.weights
        ((prefill ++ decodes).map AttnToken.row) prefill.length := by
    unfold F16Layer.attnMixed
    rw [hshape, hpaged, hown, hadmits, decide_eq_true hmany]
    rfl
  have hdrop : ((prefill ++ decodes).map AttnToken.row).drop prefill.length =
      decodes.map AttnToken.row := by
    rw [List.map_append, ← @List.length_map _ _ prefill AttnToken.row, List.drop_left]
  have hend : start + prefill.length ≤ layer.config.maxSeqLen := by
    have hend := hrows.prefill_end (n := layer.config.maxSeqLen) fun r hr =>
      (hvalid r (by rwa [List.map_append])).1
    rwa [List.length_map] at hend
  have hdecodes_ne : decodes ≠ [] := fun hnil => hrows.decodes_ne (List.map_eq_nil_iff.mpr hnil)
  have hdecodes_valid : layer.valid (decodes.map AttnToken.row) := by
    intro r hr
    apply hvalid
    rw [List.map_append]
    exact List.mem_append_right _ hr
  let content := KvToken.content ((prefill ++ decodes).map proj.kvToken)
  have hfirst : ∀ i token, (prefill.map proj.kvToken)[i]? = some token →
      content (0 + i) layer.weights.attnVUnitNorm =
        some (token.kv layer.weights.attnVUnitNorm) := by
    intro i token hget
    have hlt : i < (prefill.map proj.kvToken).length := by
      obtain ⟨hlt, _⟩ := List.getElem?_eq_some_iff.mp hget
      exact hlt
    unfold content KvToken.content
    rw [List.map_append, Nat.zero_add, List.getElem?_append_left hlt, hget]
    rfl
  have hsecond : ∀ i token, (decodes.map proj.kvToken)[i]? = some token →
      content (prefill.length + i) layer.weights.attnVUnitNorm =
        some (token.kv layer.weights.attnVUnitNorm) := by
    intro i token hget
    have hlen : (prefill.map proj.kvToken).length = prefill.length := List.length_map ..
    unfold content KvToken.content
    rw [List.map_append, List.getElem?_append_right (by omega), hlen, Nat.add_sub_cancel_left,
      hget]
    rfl
  have hchunk := run_mixed_chunk layer proj content slab (n := prefill.length)
    (by simpa using hrows.chunk) hfirst hshared hend hfits
  have hdecodes := run_mixed_decodes layer proj content
    (storedBy layer proj layer.weights.attnVUnitNorm slab prefill) prefill.length hdecodes_ne
    hdecodes_valid hsecond hshared
  unfold standardAttnMixed
  dsimp only
  rw [rows_map, hops, contiguousMixed_head hhead, hdrop]
  unfold content at hchunk hdecodes
  rw [runLaunches_append _ hchunk, hdecodes]
  dsimp only
  refine Prod.ext rfl ?_
  dsimp only
  by_cases hfew : decodes.length ≤ 32
  · rw [if_pos hfew, if_pos hfew, Option.map_some, Option.map_some, List.zipWith_append]
    · rw [← rows_map proj prefill, ← rows_map proj decodes, outputs_map, outputs_map]
    · simp [F16Layer.attendsOf]
  · rw [if_neg hfew, if_neg hfew]
    rfl

theorem attnCall_invalid {tokens : List (AttnToken X)}
    (h : ¬layer.valid (tokens.map AttnToken.row)) (slab : Nat → R × R) :
    attnCall layer proj slab tokens = none := by
  have hadmits : admits layer.config layer.kv layer.weights (tokens.map AttnToken.row) = false := by
    rw [Bool.eq_false_iff]
    intro hadmits
    exact h ((layer.admits_iff _).mp hadmits).2.1
  unfold attnCall standardAttn F16Layer.attn
  dsimp only
  rw [rows_map, hadmits]
  rfl

theorem attnCallMixed_invalid {tokens : List (AttnToken X)}
    (h : ¬layer.valid (tokens.map AttnToken.row)) (slab : Nat → R × R) (prefillRows : Nat) :
    attnCallMixed layer proj slab tokens prefillRows = none := by
  have hadmits : admits layer.config layer.kv layer.weights (tokens.map AttnToken.row) = false := by
    rw [Bool.eq_false_iff]
    intro hadmits
    exact h ((layer.admits_iff _).mp hadmits).2.1
  unfold attnCallMixed standardAttnMixed F16Layer.attnMixed
  dsimp only
  rw [rows_map, hadmits, Bool.and_false, Bool.false_and]
  rfl

theorem serialAttn_cons (slab : Nat → R × R) (token : AttnToken X) (tokens : List (AttnToken X)) :
    serialAttn layer proj slab (token :: tokens) =
      ((serialAttn layer proj (standardAttn layer proj slab [token]).1 tokens).1,
        (standardAttn layer proj slab [token]).2.bind List.head? ::
          (serialAttn layer proj (standardAttn layer proj slab [token]).1 tokens).2) := rfl

/-- Calls for one token each, on slots of their own. -/
theorem singleCalls_eq (slab : Nat → R × R) {tokens : List (AttnToken X)}
    (hvalid : layer.valid (tokens.map AttnToken.row))
    (hslots : (tokens.map (·.slot)).Nodup) :
    tryFeed (attnCall layer proj) slab (tokens.map fun token => [token]) =
      (let after := storedBy layer proj layer.weights.attnVUnitNorm slab tokens
       some (after, tokens.map fun token => [outputOver layer proj after token])) := by
  have hserial : ∀ slab, tryFeed (attnCall layer proj) slab (tokens.map fun token => [token]) =
      some ((serialAttn layer proj slab tokens).1,
        (serialAttn layer proj slab tokens).2.map Option.toList) := by
    clear hslots slab
    intro slab
    induction tokens generalizing slab with
    | nil => rfl
    | cons token tokens ih =>
      have hfirst := standardAttn_single layer proj slab token (by
        intro r hr
        exact hvalid r (List.mem_cons.mpr (.inl (List.mem_singleton.mp hr))))
      have hcall : attnCall layer proj slab [token] =
          some (storedBy layer proj layer.weights.attnVUnitNorm slab [token],
            [outputOver layer proj
              (storedBy layer proj layer.weights.attnVUnitNorm slab [token]) token]) := by
        unfold attnCall
        rw [hfirst]
        rfl
      rw [List.map_cons, tryFeed_cons, hcall, Option.bind_some,
        ih (fun r hr => hvalid r (List.mem_cons_of_mem _ hr)), serialAttn_cons, hfirst]
      rfl
  have heq := serialAttn_eq layer proj slab (by rwa [rows_map]) hslots
  rw [hserial, heq, List.map_map]
  rfl

/-- A mixed call is to its layer what a call for the chunk and one for each decode row
are. -/
theorem attnCallMixed_eq (slab : Nat → R × R) {prefill decodes : List (AttnToken X)}
    (hrows : MixedRows slot start (prefill.map AttnToken.row) (decodes.map AttnToken.row))
    (hown : layer.weights.kvShareSrc = none) (hpaged : layer.config.pagedKv = none)
    (hdepth : layer.config.maxSeqLen ≤ layer.kv.depth)
    (hcount : (prefill ++ decodes).length ≤ layer.config.maxPrefillTokens)
    (hfew : decodes.length ≤ 32) :
    attnCallMixed layer proj slab (prefill ++ decodes) prefill.length =
      (tryFeed (attnCall layer proj) slab (prefill :: decodes.map fun token => [token])).map
        fun after => (after.1, after.2.flatten) := by
  by_cases hvalid : layer.valid ((prefill ++ decodes).map AttnToken.row)
  · have hprefill_valid : layer.valid (prefill.map AttnToken.row) := by
      intro r hr
      apply hvalid
      rw [List.map_append]
      exact List.mem_append_left _ hr
    have hdecodes_valid : layer.valid (decodes.map AttnToken.row) := by
      intro r hr
      apply hvalid
      rw [List.map_append]
      exact List.mem_append_right _ hr
    have hend := hrows.prefill_end (n := layer.config.maxSeqLen) fun r hr =>
      (hvalid r (by rwa [List.map_append])).1
    rw [List.length_map] at hend
    rw [List.length_append] at hcount
    have hshape : layer.prefillShape ((prefill.map proj.kvToken).map KvToken.row) = true := by
      rw [rows_map, hrows.chunk]
      exact chunk_prefillShape layer.weights slot start _
    have hprefill := standardAttn_chunk layer proj slab hshape
      (fun hnil => hrows.prefill_ne (List.map_eq_nil_iff.mpr hnil)) (by rwa [rows_map])
      (by omega) (by omega)
    have hmixed := standardAttnMixed_eq layer proj slab hrows hown hpaged hvalid
      (by rw [List.length_append]; exact hcount) (by omega)
    have hslots := hrows.slots
    rw [List.map_map] at hslots
    have hcall : attnCall layer proj slab prefill =
        some (storedBy layer proj layer.weights.attnVUnitNorm slab prefill,
          prefill.map (outputOver layer proj
            (storedBy layer proj layer.weights.attnVUnitNorm slab prefill))) := by
      unfold attnCall
      rw [hprefill]
      rfl
    rw [tryFeed_cons, hcall, Option.bind_some, singleCalls_eq layer proj _ hdecodes_valid hslots]
    unfold attnCallMixed
    rw [hmixed]
    dsimp only
    rw [if_pos hfew]
    simp only [Option.map_some, List.flatten_cons, ← List.flatMap_def]
    rw [← List.map_eq_flatMap]
  · rw [attnCallMixed_invalid layer proj hvalid]
    have hsome : ∃ call ∈ prefill :: decodes.map (fun token => [token]),
        ¬layer.valid (call.map AttnToken.row) := by
      apply Classical.byContradiction
      intro hnone
      have hall : ∀ call ∈ prefill :: decodes.map (fun token => [token]),
          layer.valid (call.map AttnToken.row) := by
        intro call hmem
        apply Classical.byContradiction
        intro hinvalid
        exact hnone ⟨call, hmem, hinvalid⟩
      apply hvalid
      intro r hr
      rw [List.map_append, List.mem_append] at hr
      rcases hr with hr | hr
      · exact hall prefill List.mem_cons_self r hr
      · obtain ⟨token, htoken, rfl⟩ := List.mem_map.mp hr
        exact hall [token] (List.mem_cons_of_mem _ (List.mem_map.mpr ⟨token, htoken, rfl⟩)) _
          List.mem_cons_self
    obtain ⟨call, hmem, hinvalid⟩ := hsome
    rw [tryFeed_refused (attnCall layer proj) hmem (attnCall_invalid layer proj hinvalid)]
    rfl

end

end Flambeau.Forward.Attn
