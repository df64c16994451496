import Flambeau.Forward.Attn.Window

namespace Flambeau.Forward.Attn
open Systems

/-- What the ops of a layer compute of one row: Q with its norm and RoPE, K, V when it
has a projection of its own, K's norm and RoPE, V's unit norm, and the softmax weights
of the keys a query runs over. -/
structure Projections (X Q R W : Type) where
  q : X → Nat → Q
  k : X → R
  attnV : Option (X → R)
  kRope : R → Nat → R
  unitNorm : R → R
  softmax : Q → List R → List W

structure AttnToken (X : Type) where
  slot : Nat
  position : Nat
  x : X

/-- The rows of the slab a query ran over, with its weight for each. -/
structure Attended (R W : Type) where
  keys : List (Nat × R × R)
  weights : List W

section

variable {X Q R W : Type} (layer : F16Layer) (proj : Projections X Q R W)

namespace Projections

/-- V, or a copy of K from before its norm and RoPE. -/
def v (x : X) : R :=
  match proj.attnV with
  | some attnV => attnV x
  | none => proj.k x

def kvToken (token : AttnToken X) : KvToken (R × R) where
  slot := token.slot
  position := token.position
  kv vNormed :=
    (proj.kRope (proj.k token.x) token.position,
      if vNormed then proj.unitNorm (proj.v token.x) else proj.v token.x)

def attended (token : AttnToken X) (seen : Seen (R × R)) : Attended R W :=
  ⟨seen.keys,
    proj.softmax (proj.q token.x token.position) (seen.keys.map fun key => key.2.1)⟩

end Projections

/-- One `standard_attn_local` call on the layer. -/
def standardAttn (slab : Nat → R × R) (tokens : List (AttnToken X)) :
    (Nat → R × R) × Option (List (Attended R W)) :=
  let kvTokens := tokens.map proj.kvToken
  let after := runLaunches (KvToken.content kvTokens) slab
    (layer.attn (kvTokens.map KvToken.row))
  (after.1, after.2.map fun seen => List.zipWith proj.attended tokens seen)

/-- One call for each token, in the order given. -/
def serialAttn (slab : Nat → R × R) :
    List (AttnToken X) → (Nat → R × R) × List (Option (Attended R W))
  | [] => (slab, [])
  | token :: tokens =>
    let call := standardAttn layer proj slab [token]
    let rest := serialAttn call.1 tokens
    (rest.1, call.2.bind List.head? :: rest.2)

/-- The batch leaves the slabs and gives each token the output that single calls do, in
any order. -/
def MatchesSerial (slab : Nat → R × R) (tokens : List (AttnToken X)) : Prop :=
  ∀ order, order.Perm tokens → ∃ outs,
    standardAttn layer proj slab tokens = ((serialAttn layer proj slab order).1, some outs) ∧
      (order.zip (serialAttn layer proj slab order).2).Perm (tokens.zip (outs.map some))

/-- The output of a token over the slabs. -/
def outputOver (slab : Nat → R × R) (token : AttnToken X) : Attended R W :=
  proj.attended token (look slab ⟨0, layer.windowBytes token.slot token.position⟩)

/-- What single calls leave in the slabs. -/
def storedBy (vNormed : Bool) (slab : Nat → R × R) (tokens : List (AttnToken X)) :
    Nat → R × R :=
  if layer.isKvShared then slab else (tokens.map proj.kvToken).foldl (layer.put vNormed) slab

theorem outputs_map (slab : Nat → R × R) (tokens : List (AttnToken X)) (firstRow : Nat) :
    List.zipWith proj.attended tokens
        ((layer.attendsOf ((tokens.map proj.kvToken).map KvToken.row) firstRow).map (look slab)) =
      tokens.map (outputOver layer proj slab) := by
  apply List.ext_getElem
  · simp [F16Layer.attendsOf]
  · intro i hi _
    simp [F16Layer.attendsOf, outputOver, Projections.attended, look, Projections.kvToken,
      KvToken.row]

theorem stored_tokens (slab : Nat → R × R) (tokens : List (AttnToken X)) :
    layer.stored (KvToken.content (tokens.map proj.kvToken)) slab
        ((tokens.map proj.kvToken).map KvToken.row) =
      storedBy layer proj
        (layer.storesNormed ((tokens.map proj.kvToken).map KvToken.row)) slab tokens := by
  unfold F16Layer.stored storedBy
  rw [layer.writesOf_tokens]
  intro i token hget
  unfold KvToken.content
  rw [Nat.zero_add, hget]
  rfl

theorem single_prefillShape (token : AttnToken X) :
    layer.prefillShape (([token].map proj.kvToken).map KvToken.row) = true :=
  chunk_prefillShape layer.weights token.slot token.position 1

/-- Rows of different slots are not one slot's chunk. -/
theorem batch_prefillShape {tokens : List (AttnToken X)} (hslots : (tokens.map (·.slot)).Nodup)
    (hmany : 1 < tokens.length) :
    layer.prefillShape ((tokens.map proj.kvToken).map KvToken.row) = false := by
  obtain ⟨first, tokens, rfl⟩ := List.exists_cons_of_length_pos (Nat.lt_trans Nat.zero_lt_one hmany)
  obtain ⟨second, tokens, rfl⟩ := List.exists_cons_of_length_pos (Nat.lt_of_succ_lt_succ hmany)
  rw [Bool.eq_false_iff]
  intro hshape
  have hrows := F16Layer.prefillShape_rows hshape (layer.call_rows _)
  rw [layer.call_rows] at hrows
  have hsecond := congrArg (fun rows => rows[1]?.map Prod.fst) hrows
  simp [KvToken.row, Projections.kvToken] at hsecond
  simp [hsecond] at hslots

theorem many_slots {tokens : List (AttnToken X)}
    (hvalid : layer.valid ((tokens.map proj.kvToken).map KvToken.row))
    (hslots : (tokens.map (·.slot)).Nodup) (hmany : 1 < tokens.length) :
    1 < layer.config.nSlots := by
  apply Nat.lt_of_not_le
  intro hone
  have hzero : ∀ token ∈ tokens, token.slot = 0 := by
    intro token hmem
    have hrow : (proj.kvToken token).row ∈ (tokens.map proj.kvToken).map KvToken.row :=
      List.mem_map.mpr ⟨_, List.mem_map.mpr ⟨token, hmem, rfl⟩, rfl⟩
    have hlt : token.slot < layer.config.nSlots := (hvalid _ hrow).2
    omega
  obtain ⟨first, tokens, rfl⟩ := List.exists_cons_of_length_pos (Nat.lt_trans Nat.zero_lt_one hmany)
  obtain ⟨second, tokens, rfl⟩ := List.exists_cons_of_length_pos (Nat.lt_of_succ_lt_succ hmany)
  simp [hzero first, hzero second] at hslots

/-- A single-slot batch stores its tokens, normalised where the layer says so, and
returns. -/
theorem standardAttn_chunk (slab : Nat → R × R) {tokens : List (AttnToken X)}
    (hshape : layer.prefillShape ((tokens.map proj.kvToken).map KvToken.row) = true)
    (hne : tokens ≠ []) (hvalid : layer.valid ((tokens.map proj.kvToken).map KvToken.row))
    (hcount : tokens.length ≤ layer.config.maxPrefillTokens)
    (hfits : tokens.length ≤ layer.kv.depth) :
    standardAttn layer proj slab tokens =
      (storedBy layer proj layer.weights.attnVUnitNorm slab tokens,
        some (tokens.map (outputOver layer proj
          (storedBy layer proj layer.weights.attnVUnitNorm slab tokens)))) := by
  have hlen : ((tokens.map proj.kvToken).map KvToken.row).length = tokens.length := by
    rw [List.length_map, List.length_map]
  have hrows : (tokens.map proj.kvToken).map KvToken.row ≠ [] := by
    intro hnil
    rw [List.map_eq_nil_iff, List.map_eq_nil_iff] at hnil
    exact hne hnil
  have hrun := layer.run_attn (KvToken.content (tokens.map proj.kvToken)) hvalid hrows
    (by rw [hlen]; exact hcount) (fun _ => by rw [hlen]; exact hfits)
    (fun hno => absurd (hno.symm.trans hshape) Bool.false_ne_true) slab
  have hnormed : layer.storesNormed ((tokens.map proj.kvToken).map KvToken.row) =
      layer.weights.attnVUnitNorm := by
    unfold F16Layer.storesNormed
    rw [hshape, Bool.true_and]
  have hcompletes : layer.completes ((tokens.map proj.kvToken).map KvToken.row) = true := by
    unfold F16Layer.completes
    rw [hshape, Bool.true_or]
  rw [stored_tokens, hnormed, hcompletes, if_pos rfl] at hrun
  unfold standardAttn
  dsimp only
  rw [hrun, Option.map_some, outputs_map]

/-- A single call stores its token, normalised where the layer says so, and returns. -/
theorem standardAttn_single (slab : Nat → R × R) (token : AttnToken X)
    (hvalid : layer.valid [(proj.kvToken token).row]) :
    standardAttn layer proj slab [token] =
      (storedBy layer proj layer.weights.attnVUnitNorm slab [token],
        some [outputOver layer proj (storedBy layer proj layer.weights.attnVUnitNorm slab [token])
          token]) :=
  standardAttn_chunk layer proj slab (single_prefillShape layer proj token)
    (List.cons_ne_nil _ _) hvalid layer.prefill_pos layer.depth_pos

/-- A batch of several slots stores V as projected, and returns up to 32 of them. -/
theorem standardAttn_batch (slab : Nat → R × R) {tokens : List (AttnToken X)}
    (hvalid : layer.valid ((tokens.map proj.kvToken).map KvToken.row))
    (hslots : (tokens.map (·.slot)).Nodup) (hmany : 1 < tokens.length)
    (hcount : tokens.length ≤ layer.config.maxPrefillTokens) :
    standardAttn layer proj slab tokens =
      (storedBy layer proj false slab tokens,
        if tokens.length ≤ 32 then
          some (tokens.map (outputOver layer proj (storedBy layer proj false slab tokens)))
        else none) := by
  have hshape := batch_prefillShape layer proj hslots hmany
  have hne : (tokens.map proj.kvToken).map KvToken.row ≠ [] := by
    intro hnil
    rw [List.map_eq_nil_iff, List.map_eq_nil_iff] at hnil
    subst hnil
    exact absurd hmany (Nat.not_lt_zero 1)
  have hrun := layer.run_attn (KvToken.content (tokens.map proj.kvToken)) hvalid hne
    (by rw [List.length_map, List.length_map]; exact hcount)
    (fun hyes => absurd (hshape.symm.trans hyes) Bool.false_ne_true)
    (fun _ => many_slots layer proj hvalid hslots hmany) slab
  have hstored := stored_tokens layer proj slab tokens
  have hnormed : layer.storesNormed ((tokens.map proj.kvToken).map KvToken.row) = false := by
    unfold F16Layer.storesNormed
    rw [hshape, Bool.false_and]
  rw [hnormed] at hstored
  have hcompletes : layer.completes ((tokens.map proj.kvToken).map KvToken.row) =
      decide (tokens.length ≤ 32) := by
    unfold F16Layer.completes
    rw [hshape, Bool.false_or, List.length_map, List.length_map]
  rw [hstored, hcompletes] at hrun
  unfold standardAttn
  dsimp only
  rw [hrun]
  by_cases hfew : tokens.length ≤ 32
  · simp only [hfew, decide_true, if_true, Option.map_some, outputs_map]
  · simp only [hfew, decide_false, Bool.false_eq_true, if_false, Option.map_none]

/-- A batch longer than the scratch is refused. -/
theorem standardAttn_refused (slab : Nat → R × R) {tokens : List (AttnToken X)}
    (hcount : layer.config.maxPrefillTokens < tokens.length) :
    standardAttn layer proj slab tokens = (slab, none) := by
  have hadmits : admits layer.config layer.kv layer.weights
      ((tokens.map proj.kvToken).map KvToken.row) = false := by
    unfold admits
    simp only [List.length_map, Nat.not_le.mpr hcount, decide_false, Bool.and_false,
      Bool.false_and]
  unfold standardAttn F16Layer.attn
  dsimp only
  rw [hadmits]
  rfl

/-- Tokens of other slots leave a slot's rows as they are. -/
theorem put_others (vNormed : Bool) (slab : Nat → R × R) {tokens : List (KvToken (R × R))}
    {slot : Nat} (hslot : ∀ token ∈ tokens, token.slot ≠ slot) (position : Nat) :
    tokens.foldl (layer.put vNormed) slab (layer.rowByte slot position) =
      slab (layer.rowByte slot position) := by
  induction tokens generalizing slab with
  | nil => rfl
  | cons token tokens ih =>
    rw [List.foldl_cons, ih _ fun t ht => hslot t (List.mem_cons_of_mem _ ht)]
    unfold F16Layer.put
    rw [if_neg]
    intro heq
    exact hslot token List.mem_cons_self (layer.rowByte_inj heq).1.symm

/-- A token's row after a batch on slots of their own. -/
theorem put_self (vNormed : Bool) (slab : Nat → R × R) {tokens : List (KvToken (R × R))}
    (hslots : (tokens.map (·.slot)).Nodup) (hmem : token ∈ tokens) :
    tokens.foldl (layer.put vNormed) slab (layer.rowByte token.slot token.position) =
      token.kv vNormed := by
  induction tokens generalizing slab with
  | nil => exact absurd hmem List.not_mem_nil
  | cons first tokens ih =>
    rw [List.map_cons, List.nodup_cons] at hslots
    rw [List.foldl_cons]
    rcases List.mem_cons.mp hmem with rfl | hmem
    · have hothers : ∀ other ∈ tokens, other.slot ≠ token.slot := by
        intro other hother heq
        exact hslots.1 (List.mem_map.mpr ⟨other, hother, heq⟩)
      rw [put_others layer vNormed _ hothers]
      exact if_pos rfl
    · exact ih _ hslots.2 hmem

theorem put_congr (slab : Nat → R × R) {tokens : List (KvToken (R × R))}
    (hkv : ∀ token ∈ tokens, token.kv vNormed = token.kv vNormed') :
    tokens.foldl (layer.put vNormed) slab = tokens.foldl (layer.put vNormed') slab := by
  induction tokens generalizing slab with
  | nil => rfl
  | cons token tokens ih =>
    have hfirst : layer.put vNormed slab token = layer.put vNormed' slab token := by
      unfold F16Layer.put
      rw [hkv token List.mem_cons_self]
    rw [List.foldl_cons, List.foldl_cons, hfirst]
    exact ih _ fun t ht => hkv t (List.mem_cons_of_mem _ ht)

theorem eq_of_slot_eq {tokens : List (KvToken (R × R))} {s t : KvToken (R × R)}
    (hslots : (tokens.map (·.slot)).Nodup) (hs : s ∈ tokens) (ht : t ∈ tokens)
    (h : s.slot = t.slot) : s = t := by
  induction tokens with
  | nil => exact absurd hs List.not_mem_nil
  | cons first tokens ih =>
    rw [List.map_cons, List.nodup_cons] at hslots
    rcases List.mem_cons.mp hs with hs' | hs'
    · rcases List.mem_cons.mp ht with ht' | ht'
      · exact hs'.trans ht'.symm
      · exact (hslots.1 (List.mem_map.mpr ⟨t, ht', hs' ▸ h.symm⟩)).elim
    · rcases List.mem_cons.mp ht with ht' | ht'
      · exact (hslots.1 (List.mem_map.mpr ⟨s, hs', ht' ▸ h⟩)).elim
      · exact ih hslots.2 hs' ht'

/-- Tokens on slots of their own can be stored in any order. -/
theorem put_perm (vNormed : Bool) (slab : Nat → R × R) {tokens order : List (KvToken (R × R))}
    (hslots : (order.map (·.slot)).Nodup) (hperm : order.Perm tokens) :
    order.foldl (layer.put vNormed) slab = tokens.foldl (layer.put vNormed) slab := by
  apply List.Perm.foldl_eq' hperm
  intro s hs t ht slab
  by_cases hslot : s.slot = t.slot
  · rw [eq_of_slot_eq hslots hs ht hslot]
  · funext byte
    unfold F16Layer.put
    by_cases hs' : byte = layer.rowByte s.slot s.position
    · have ht' : byte ≠ layer.rowByte t.slot t.position := by
        intro heq
        exact hslot (layer.rowByte_inj (hs'.symm.trans heq)).1
      rw [if_pos hs', if_neg ht', if_pos hs']
    · simp only [if_neg hs']

theorem outputOver_congr {slab slab' : Nat → R × R} (token : AttnToken X)
    (hslab : ∀ position, slab (layer.rowByte token.slot position) =
      slab' (layer.rowByte token.slot position)) :
    outputOver layer proj slab token = outputOver layer proj slab' token := by
  have hlook : look slab ⟨0, layer.windowBytes token.slot token.position⟩ =
      look slab' ⟨0, layer.windowBytes token.slot token.position⟩ := by
    unfold look F16Layer.windowBytes
    congr 1
    apply List.map_congr_left
    intro byte hbyte
    obtain ⟨position, _, rfl⟩ := List.mem_map.mp hbyte
    rw [hslab]
  unfold outputOver
  rw [hlook]

/-- Single calls on slots of their own: each token's output is over the slabs they all
leave. -/
theorem serialAttn_eq (slab : Nat → R × R) {tokens : List (AttnToken X)}
    (hvalid : layer.valid ((tokens.map proj.kvToken).map KvToken.row))
    (hslots : (tokens.map (·.slot)).Nodup) :
    serialAttn layer proj slab tokens =
      (storedBy layer proj layer.weights.attnVUnitNorm slab tokens,
        tokens.map fun token => some (outputOver layer proj
          (storedBy layer proj layer.weights.attnVUnitNorm slab tokens) token)) := by
  induction tokens generalizing slab with
  | nil =>
    unfold serialAttn storedBy
    split <;> rfl
  | cons token tokens ih =>
    rw [List.map_cons, List.nodup_cons] at hslots
    have hfirst := standardAttn_single layer proj slab token (by
      intro r hr
      exact hvalid r (List.mem_cons.mpr (.inl (List.mem_singleton.mp hr))))
    have hrest := ih (storedBy layer proj layer.weights.attnVUnitNorm slab [token])
      (fun r hr => hvalid r (List.mem_cons_of_mem _ hr)) hslots.2
    have hfinal : storedBy layer proj layer.weights.attnVUnitNorm
        (storedBy layer proj layer.weights.attnVUnitNorm slab [token]) tokens =
        storedBy layer proj layer.weights.attnVUnitNorm slab (token :: tokens) := by
      unfold storedBy
      split <;> rfl
    have hkept : outputOver layer proj
        (storedBy layer proj layer.weights.attnVUnitNorm slab [token]) token =
        outputOver layer proj
          (storedBy layer proj layer.weights.attnVUnitNorm slab (token :: tokens)) token := by
      apply outputOver_congr
      intro position
      rw [← hfinal]
      generalize storedBy layer proj layer.weights.attnVUnitNorm slab [token] = slab'
      unfold storedBy
      split
      · rfl
      · symm
        apply put_others
        intro other hother heq
        obtain ⟨t, ht, rfl⟩ := List.mem_map.mp hother
        exact hslots.1 (heq ▸ List.mem_map.mpr ⟨t, ht, rfl⟩)
    unfold serialAttn
    rw [hfirst]
    dsimp only
    rw [hrest, hfinal, hkept]
    rfl

/-- A batch of one, or one the kernels take, whose V rows the unit norm would not change
or that stores none. -/
def BatchesLikeSerial (tokens : List (AttnToken X)) : Prop :=
  tokens.length = 1 ∨ (tokens.length ≤ 32 ∧ tokens.length ≤ layer.config.maxPrefillTokens ∧
    (layer.weights.attnVUnitNorm = true → layer.isKvShared = false →
      ∀ token ∈ tokens, proj.unitNorm (proj.v token.x) = proj.v token.x))

theorem storedBy_perm (vNormed : Bool) (slab : Nat → R × R) {tokens order : List (AttnToken X)}
    (hslots : (order.map (·.slot)).Nodup) (hperm : order.Perm tokens) :
    storedBy layer proj vNormed slab order = storedBy layer proj vNormed slab tokens := by
  unfold storedBy
  split
  · rfl
  · apply put_perm layer vNormed slab _ (hperm.map _)
    rw [List.map_map]
    exact hslots

/-- One layout of the slabs and of the outputs for every order of the single calls. -/
theorem matches_of_stored {slab slab' : Nat → R × R} {tokens order : List (AttnToken X)}
    (hvalid : layer.valid ((tokens.map proj.kvToken).map KvToken.row))
    (hslots : (tokens.map (·.slot)).Nodup) (hperm : order.Perm tokens)
    (hcall : standardAttn layer proj slab tokens =
      (slab', some (tokens.map (outputOver layer proj slab'))))
    (hstored : storedBy layer proj layer.weights.attnVUnitNorm slab tokens = slab') :
    ∃ outs, standardAttn layer proj slab tokens =
        ((serialAttn layer proj slab order).1, some outs) ∧
      (order.zip (serialAttn layer proj slab order).2).Perm (tokens.zip (outs.map some)) := by
  have horder : (order.map (·.slot)).Nodup := (hperm.map _).nodup_iff.mpr hslots
  have hrows : layer.valid ((order.map proj.kvToken).map KvToken.row) := by
    intro r hr
    exact hvalid r (((hperm.map proj.kvToken).map KvToken.row).mem_iff.mp hr)
  rw [serialAttn_eq layer proj slab hrows horder,
    storedBy_perm layer proj _ slab horder hperm, hstored]
  refine ⟨_, hcall, ?_⟩
  have hzip : ∀ tokens : List (AttnToken X),
      tokens.zip (tokens.map fun token => some (outputOver layer proj slab' token)) =
        tokens.map fun token => (token, some (outputOver layer proj slab' token)) := by
    intro tokens
    induction tokens with
    | nil => rfl
    | cons token tokens ih => rw [List.map_cons, List.zip_cons_cons, ih, List.map_cons]
  have houts : (tokens.map (outputOver layer proj slab')).map some =
      tokens.map fun token => some (outputOver layer proj slab' token) := List.map_map
  rw [houts, hzip, hzip]
  exact hperm.map _

theorem matches_needs {slab : Nat → R × R} {tokens : List (AttnToken X)}
    (hne : tokens ≠ []) (hslots : (tokens.map (·.slot)).Nodup)
    (hvalid : layer.valid ((tokens.map proj.kvToken).map KvToken.row))
    (hmatches : MatchesSerial layer proj slab tokens) :
    BatchesLikeSerial layer proj tokens := by
  by_cases hone : tokens.length = 1
  · exact .inl hone
  · have hpos := List.length_pos_iff.mpr hne
    have hmany : 1 < tokens.length := by omega
    obtain ⟨outs, hcall, -⟩ := hmatches tokens (List.Perm.refl _)
    have hcount : tokens.length ≤ layer.config.maxPrefillTokens := by
      apply Nat.le_of_not_lt
      intro hlong
      rw [standardAttn_refused layer proj slab hlong] at hcall
      exact absurd (congrArg Prod.snd hcall) nofun
    rw [standardAttn_batch layer proj slab hvalid hslots hmany hcount,
      serialAttn_eq layer proj slab hvalid hslots, Prod.mk.injEq] at hcall
    obtain ⟨hslabs, houts⟩ := hcall
    refine .inr ⟨?_, hcount, ?_⟩
    · apply Decidable.byContradiction
      intro hfew
      rw [if_neg hfew] at houts
      cases houts
    · intro hnorm hshared token hmem
      unfold storedBy at hslabs
      rw [hnorm, hshared] at hslabs
      have hself : ∀ vNormed, (tokens.map proj.kvToken).foldl (layer.put vNormed) slab
          (layer.rowByte token.slot token.position) = (proj.kvToken token).kv vNormed := by
        intro vNormed
        apply put_self layer vNormed slab _ (List.mem_map.mpr ⟨token, hmem, rfl⟩)
        rw [List.map_map]
        exact hslots
      have hrow := congrFun hslabs (layer.rowByte token.slot token.position)
      simp only [Bool.false_eq_true, if_false, hself] at hrow
      exact (congrArg Prod.snd hrow).symm

theorem matches_of {slab : Nat → R × R} {tokens : List (AttnToken X)}
    (hne : tokens ≠ []) (hslots : (tokens.map (·.slot)).Nodup)
    (hvalid : layer.valid ((tokens.map proj.kvToken).map KvToken.row))
    (hcond : BatchesLikeSerial layer proj tokens) : MatchesSerial layer proj slab tokens := by
  intro order hperm
  by_cases hone : tokens.length = 1
  · obtain ⟨token, rfl⟩ := List.length_eq_one_iff.mp hone
    exact matches_of_stored layer proj hvalid hslots hperm
      (standardAttn_single layer proj slab token hvalid) rfl
  · have hpos := List.length_pos_iff.mpr hne
    have hmany : 1 < tokens.length := by omega
    rcases hcond with hsingle | ⟨hfew, hcount, hnorms⟩
    · exact absurd hsingle hone
    · have hcall := standardAttn_batch layer proj slab hvalid hslots hmany hcount
      rw [if_pos hfew] at hcall
      apply matches_of_stored layer proj hvalid hslots hperm hcall
      unfold storedBy
      cases hshared : layer.isKvShared with
      | true => rfl
      | false =>
        simp only [Bool.false_eq_true, if_false]
        apply put_congr
        intro kvToken hkv
        obtain ⟨token, hmem, rfl⟩ := List.mem_map.mp hkv
        cases hnorm : layer.weights.attnVUnitNorm with
        | false => rfl
        | true =>
          unfold Projections.kvToken
          simp only [if_true, Bool.false_eq_true, if_false]
          rw [hnorms hnorm hshared token hmem]

/-- A batched decode is its single calls, in any order, exactly if `BatchesLikeSerial`. -/
theorem batched_matches_serial_iff (slab : Nat → R × R) (tokens : List (AttnToken X))
    (hne : tokens ≠ []) (hslots : (tokens.map (·.slot)).Nodup)
    (hvalid : layer.valid ((tokens.map proj.kvToken).map KvToken.row)) :
    MatchesSerial layer proj slab tokens ↔ BatchesLikeSerial layer proj tokens :=
  ⟨matches_needs layer proj hne hslots hvalid, matches_of layer proj hne hslots hvalid⟩

end

/-- V is its own projection, and its unit norm is 1. -/
def unitProjections : Projections Nat Nat Nat Nat where
  q x _ := x
  k x := x
  attnV := some fun x => x
  kRope k _ := k
  unitNorm _ := 1
  softmax _ keys := keys

theorem plain_pair_matches_serial :
    MatchesSerial swaLayer unitProjections (fun _ => (0, 0)) [⟨0, 0, 2⟩, ⟨1, 5, 3⟩] := by
  have hvalid : swaLayer.valid [(0, 0), (1, 5)] := by
    show ∀ r ∈ [(0, 0), (1, 5)], r.2 < 16 ∧ r.1 < 2
    decide
  exact (batched_matches_serial_iff swaLayer unitProjections _ [⟨0, 0, 2⟩, ⟨1, 5, 3⟩]
    (List.cons_ne_nil _ _) (by decide) hvalid).mpr (.inr ⟨by decide, by decide, nofun⟩)

def normedLayer : F16Layer :=
  { swaLayer with
    weights := ⟨1, 1, 64, 2, true, none⟩
    headsOk := rfl
    qFits := by decide
    kvFits := by decide
    width := rfl }

/-- Two decodes on slots of their own, on a layer that normalises V: the batch stores V
as it was projected. -/
theorem normed_pair_differs :
    normedLayer.valid [(0, 0), (1, 0)] ∧
      ¬MatchesSerial normedLayer unitProjections (fun _ => (0, 0)) [⟨0, 0, 2⟩, ⟨1, 0, 2⟩] := by
  have hvalid : normedLayer.valid [(0, 0), (1, 0)] := by
    show ∀ r ∈ [(0, 0), (1, 0)], r.2 < 16 ∧ r.1 < 2
    decide
  refine ⟨hvalid, ?_⟩
  intro hmatches
  have hne : ([⟨0, 0, 2⟩, ⟨1, 0, 2⟩] : List (AttnToken Nat)) ≠ [] := List.cons_ne_nil _ _
  rcases matches_needs normedLayer unitProjections hne (by decide) hvalid hmatches with hone | ⟨-, -, hnorms⟩
  · exact absurd hone (by decide)
  · exact absurd (hnorms rfl rfl ⟨0, 0, 2⟩ List.mem_cons_self) (by decide)

end Flambeau.Forward.Attn
