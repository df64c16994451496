import Flambeau.Forward.Gdn.Chunks
import Flambeau.Systems.Chain

namespace Flambeau.Forward.Gdn
open Systems

namespace GdnLayer

variable {X Z Y R : Type} [Zero R] [Add R] [Mul R] [Sub R] (layer : GdnLayer X Z Y R)

theorem runCalls_tryFeed (fused : Bool) (slots : Nat → GdnSlot layer.dims R)
    (calls : List (List (Nat × X))) :
    layer.runCalls fused slots calls =
      (tryFeed (layer.gdnLayerLocal fused) slots calls).map fun after =>
        (after.1, after.2.flatten) := by
  induction calls generalizing slots with
  | nil => rfl
  | cons call calls ih =>
    unfold runCalls
    rw [tryFeed_cons]
    cases layer.gdnLayerLocal fused slots call with
    | none => rfl
    | some out =>
      rw [Option.bind_some, Option.bind_some, ih]
      cases tryFeed (layer.gdnLayerLocal fused) out.1 calls <;> rfl

theorem gdnLayerLocal_invalid (fused : Bool) {token : Nat × X} {tokens : List (Nat × X)}
    (hmem : token ∈ tokens) (h : layer.config.nSlots ≤ token.1)
    (slots : Nat → GdnSlot layer.dims R) : layer.gdnLayerLocal fused slots tokens = none := by
  have hall : (tokens.all fun token => decide (token.1 < layer.config.nSlots)) = false := by
    rw [Bool.eq_false_iff]
    intro hall
    exact absurd (of_decide_eq_true (List.all_eq_true.mp hall token hmem)) (Nat.not_lt.mpr h)
  cases tokens with
  | nil => rfl
  | cons first rest =>
    obtain ⟨slot, x⟩ := first
    unfold gdnLayerLocal
    dsimp only
    rw [hall]
    rfl

/-- A conv longer than the batched kernel's registers fails a decode of a pool with more
than one slot. -/
theorem gdnLayerLocal_kernel (token : Nat × X) (hmany : 1 < layer.config.nSlots)
    (hkernel : ¬layer.dims.convKernel ≤ convTrioKernelMax) (slots : Nat → GdnSlot layer.dims R) :
    layer.gdnLayerLocal false slots [token] = none := by
  obtain ⟨slot, x⟩ := token
  unfold gdnLayerLocal prefillShape
  simp [hmany, hkernel]

/-- A call that returns gives each row one result. -/
theorem gdnLayerLocal_length {fused : Bool} {slots : Nat → GdnSlot layer.dims R}
    {tokens : List (Nat × X)} (h : layer.gdnLayerLocal fused slots tokens = some after) :
    after.2.length = tokens.length := by
  cases tokens with
  | nil => cases h
  | cons first rest =>
    obtain ⟨slot, x⟩ := first
    unfold gdnLayerLocal at h
    dsimp only at h
    split at h
    · cases h
    · split at h
      · split at h
        · obtain rfl := Option.some.inj h
          simp [forwardPrefill]
        · cases h
      · split at h
        · next hone =>
          obtain rfl := Option.some.inj h
          simp [List.length_cons, hone.1]
        · split at h
          · split at h
            · obtain rfl := Option.some.inj h
              simp [forwardDecodeBatchedSlots]
            · cases h
          · obtain rfl := Option.some.inj h
            exact feed_length ..

theorem gdnLayerMixedLocal_length {slots : Nat → GdnSlot layer.dims R} {tokens : List (Nat × X)}
    (h : layer.gdnLayerMixedLocal slots tokens prefillRows = some after) :
    after.2.length = tokens.length := by
  cases tokens with
  | nil => cases h
  | cons first rest =>
    obtain ⟨slot, x⟩ := first
    unfold gdnLayerMixedLocal at h
    dsimp only at h
    split at h
    · cases h
    · next hrows =>
      split at h
      · cases h
      · split at h
        · obtain rfl := Option.some.inj h
          simp only [forwardPrefill, forwardDecodeBatchedSlots, List.length_append,
            List.length_mapIdx, List.length_map, List.length_take, List.length_drop]
          omega
        · cases h

theorem gdnLayerMixedLocal_head {tokens : List (Nat × X)} (hhead : tokens.head? = some (slot, x))
    (slots : Nat → GdnSlot layer.dims R) (prefillRows : Nat) :
    layer.gdnLayerMixedLocal slots tokens prefillRows =
      (let nDec := tokens.length - prefillRows
       let prefill := tokens.take prefillRows
       let decode := tokens.drop prefillRows
       if prefillRows = 0 ∨ tokens.length ≤ prefillRows then none
       else if !(prefill.all (·.1 == slot) && decode.all (·.1 != slot) &&
          tokens.all fun token => token.1 < layer.config.nSlots) then none
       else if 1 < layer.config.maxPrefillTokens ∧ 1 < layer.config.nSlots ∧
          nDec ≤ layer.config.nSlots ∧ prefillRows ≤ layer.config.maxPrefillTokens ∧
          layer.dims.convKernel ≤ convTrioKernelMax then
        let chunk := layer.forwardPrefill (slots slot) (prefill.map Prod.snd)
        let batch := layer.forwardDecodeBatchedSlots (setLane slots slot chunk.1) decode
        some (batch.1, chunk.2 ++ batch.2)
       else none) := by
  cases tokens with
  | nil => cases hhead
  | cons first rest =>
    obtain rfl := Option.some.inj hhead
    rfl

/-- A mixed call is to its layer what a call for the chunk and one for each decode row
are. -/
theorem gdnLayerMixedLocal_eq (slots : Nat → GdnSlot layer.dims R)
    {prefill decodes : List (Nat × X)} (hprefill : prefill ≠ []) (hdecodes : decodes ≠ [])
    (hslot : ∀ token ∈ prefill, token.1 = slot) (hslots : (decodes.map Prod.fst).Nodup)
    (hothers : ∀ token ∈ decodes, token.1 ≠ slot)
    (hcount : (prefill ++ decodes).length ≤ layer.config.maxPrefillTokens) :
    layer.gdnLayerMixedLocal slots (prefill ++ decodes) prefill.length =
      (tryFeed (layer.gdnLayerLocal false) slots
        (prefill :: decodes.map fun token => [token])).map fun after =>
          (after.1, after.2.flatten) := by
  have hfirst := List.length_pos_iff.mpr hprefill
  have hsecond := List.length_pos_iff.mpr hdecodes
  rw [List.length_append] at hcount
  have hhead : ∃ x, (prefill ++ decodes).head? = some (slot, x) := by
    obtain ⟨first, rest, rfl⟩ := List.exists_cons_of_ne_nil hprefill
    obtain rfl := hslot first List.mem_cons_self
    exact ⟨first.2, rfl⟩
  obtain ⟨x, hhead⟩ := hhead
  have hguard : ¬(prefill.length = 0 ∨ (prefill ++ decodes).length ≤ prefill.length) := by
    rw [List.length_append]
    omega
  have hchunk : (prefill.all fun token => token.1 == slot) = true := by
    apply List.all_eq_true.mpr
    intro token hmem
    exact beq_iff_eq.mpr (hslot token hmem)
  have hrows : (decodes.all fun token => token.1 != slot) = true := by
    apply List.all_eq_true.mpr
    intro token hmem
    exact bne_iff_ne.mpr (hothers token hmem)
  rw [layer.gdnLayerMixedLocal_head hhead]
  dsimp only
  rw [if_neg hguard, List.take_left, List.drop_left, hchunk, hrows, List.length_append,
    Nat.add_sub_cancel_left]
  by_cases hvalid : ∀ token ∈ prefill ++ decodes, token.1 < layer.config.nSlots
  · have hall : ((prefill ++ decodes).all fun token =>
        decide (token.1 < layer.config.nSlots)) = true := by
      apply List.all_eq_true.mpr
      intro token hmem
      exact decide_eq_true (hvalid token hmem)
    have hmany : 1 < layer.config.nSlots := by
      obtain ⟨first, hmem⟩ := List.exists_mem_of_ne_nil _ hprefill
      obtain ⟨other, hmem'⟩ := List.exists_mem_of_ne_nil _ hdecodes
      have hne := hothers other hmem'
      have heq := hslot first hmem
      have hlt := hvalid first (List.mem_append_left _ hmem)
      have hlt' := hvalid other (List.mem_append_right _ hmem')
      omega
    have hfits : decodes.length ≤ layer.config.nSlots :=
      length_le_slots hslots fun token hmem => hvalid token (List.mem_append_right _ hmem)
    rw [hall, if_neg (by simp)]
    by_cases hkernel : layer.dims.convKernel ≤ convTrioKernelMax
    · rw [if_pos ⟨by omega, hmany, hfits, by omega, hkernel⟩, ← layer.runCalls_tryFeed]
      have hbatches : ∀ call ∈ prefill :: decodes.map (fun token => [token]), Batch call := by
        intro call hmem
        rcases List.mem_cons.mp hmem with rfl | hmem
        · exact .inl ⟨slot, hslot⟩
        · obtain ⟨token, _, rfl⟩ := List.mem_map.mp hmem
          exact .inr (List.nodup_cons.mpr ⟨List.not_mem_nil, List.nodup_nil⟩)
      have hchunk_takes : layer.takes prefill = true := by
        have hvalid : (prefill.all fun token => decide (token.1 < layer.config.nSlots)) = true := by
          rw [List.all_append, Bool.and_eq_true] at hall
          exact hall.1
        have hfits : 1 < layer.config.maxPrefillTokens ∧
            prefill.length ≤ layer.config.maxPrefillTokens := by omega
        unfold takes
        rw [hvalid, decide_eq_true hfits, Bool.or_true, List.isEmpty_eq_false_iff.mpr hprefill]
        rfl
      have htakes : (prefill :: decodes.map fun token => [token]).all layer.takes = true := by
        rw [List.all_cons, hchunk_takes, Bool.true_and, List.all_map]
        apply List.all_eq_true.mpr
        intro token hmem
        have hlt := hvalid token (List.mem_append_right _ hmem)
        unfold takes prefillShape
        simp [hlt]
      have hflat : (prefill :: decodes.map fun token => [token]).flatten = prefill ++ decodes := by
        rw [List.flatten_cons, ← List.flatMap_def, ← List.map_eq_flatMap, List.map_id']
      rw [layer.runCalls_eq hkernel false slots hbatches, htakes, if_pos rfl, hflat,
        layer.forwardDecodeBatchedSlots_eq hkernel, together_eq layer.forwardDecode _ hslots,
        layer.forwardPrefill_eq, feed_append, feed_oneLane layer.forwardDecode slots hslot]
    · obtain ⟨token, hmem⟩ := List.exists_mem_of_ne_nil _ hdecodes
      have hcall : [token] ∈ prefill :: decodes.map fun token => [token] :=
        List.mem_cons_of_mem _ (List.mem_map.mpr ⟨token, hmem, rfl⟩)
      rw [if_neg fun h => hkernel h.2.2.2.2,
        tryFeed_refused _ hcall (layer.gdnLayerLocal_kernel token hmany hkernel)]
      rfl
  · simp only [Classical.not_forall, Nat.not_lt] at hvalid
    obtain ⟨token, hmem, hlt⟩ := hvalid
    have hall : ((prefill ++ decodes).all fun token =>
        decide (token.1 < layer.config.nSlots)) = false := by
      rw [Bool.eq_false_iff]
      intro hall
      exact absurd (of_decide_eq_true (List.all_eq_true.mp hall token hmem)) (Nat.not_lt.mpr hlt)
    have hcall : ∃ call ∈ prefill :: decodes.map (fun token => [token]), token ∈ call := by
      rcases List.mem_append.mp hmem with hmem | hmem
      · exact ⟨prefill, List.mem_cons_self, hmem⟩
      · exact ⟨[token], List.mem_cons_of_mem _ (List.mem_map.mpr ⟨token, hmem, rfl⟩),
          List.mem_singleton_self token⟩
    obtain ⟨call, hcall, htoken⟩ := hcall
    rw [hall, tryFeed_refused _ hcall (layer.gdnLayerLocal_invalid false htoken hlt)]
    rfl

end GdnLayer

end Flambeau.Forward.Gdn
