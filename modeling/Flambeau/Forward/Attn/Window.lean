import Flambeau.Forward.Attn.Slab
import Flambeau.Systems.RingLog
import Flambeau.Systems.Runs

namespace Flambeau.Forward.Attn
open Systems

/-- A token of a forward: where its K and V go and what they are, with V normalised
or as projected. -/
structure KvToken (α : Type) where
  slot : Nat
  position : Nat
  kv : Bool → α

namespace KvToken

variable {α : Type}

def row (token : KvToken α) : Nat × Nat := (token.slot, token.position)

def content (tokens : List (KvToken α)) (row : Nat) (vNormed : Bool) : Option α :=
  tokens[row]?.map fun token => token.kv vNormed

/-- Each token is at the next position of its slot. -/
def Continues (fed : Nat → Nat) : List (KvToken α) → Prop
  | [] => True
  | token :: tokens =>
    token.position = fed token.slot ∧
      Continues (fun slot => if slot = token.slot then fed slot + 1 else fed slot) tokens

/-- What each slot has been fed, after more tokens. -/
def feed (vNormed : Bool) (logs : Nat → List α) : List (KvToken α) → Nat → List α
  | [] => logs
  | token :: tokens =>
    feed vNormed
      (fun slot => if slot = token.slot then logs slot ++ [token.kv vNormed] else logs slot) tokens

theorem pushed_lengths (logs : Nat → List α) (slot : Nat) (entry : α) :
    (fun s => (if s = slot then logs s ++ [entry] else logs s).length) =
      fun s => if s = slot then (logs s).length + 1 else (logs s).length := by
  funext s
  split <;> simp

end KvToken

/-- A layer and the layer whose cache it uses: itself, or the source of its KV. -/
structure KvGroup where
  owner : F16Layer
  reader : F16Layer
  config_eq : reader.config = owner.config
  kv_eq : reader.kv = owner.kv
  owner_own : owner.isKvShared = false
  reader_shares : reader = owner ∨ reader.isKvShared = true

namespace KvGroup

variable {α : Type} (group : KvGroup)

/-- The forward of the layer; a layer that shares its KV comes after the source. -/
def forward (slab : Nat → α) (tokens : List (KvToken α)) :
    (Nat → α) × Option (List (Seen α)) :=
  let rows := tokens.map KvToken.row
  let own := runLaunches (KvToken.content tokens) slab (group.owner.attn rows)
  if group.reader.isKvShared then
    match own with
    | (slab, none) => (slab, none)
    | (slab, some _) => runLaunches (KvToken.content tokens) slab (group.reader.attn rows)
  else own

/-- The slabs, and what each slot has been fed so far. -/
structure Fed (α : Type) where
  slab : Nat → α
  logs : Nat → List α

def fed (state : Fed α) (tokens : List (KvToken α)) : Nat → List α :=
  KvToken.feed (group.owner.storesNormed (tokens.map KvToken.row)) state.logs tokens

/-- Forwards that return, one after the other, over slots that start empty. -/
def history : System (Fed α) (List (KvToken α)) where
  init state := ∀ slot, state.logs slot = []
  step state tokens :=
    (group.forward state.slab tokens).2.map fun _ =>
      ⟨(group.forward state.slab tokens).1, group.fed state tokens⟩

/-- The forward continues its slots and is within the limits of the pool. -/
def Contiguous (state : Fed α) (tokens : List (KvToken α)) : Prop :=
  tokens ≠ [] ∧ tokens.length ≤ group.owner.config.maxPrefillTokens ∧
    group.owner.valid (tokens.map KvToken.row) ∧
    KvToken.Continues (fun slot => (state.logs slot).length) tokens

/-- `min(window + max_prefill_tokens, max_seq_len)`, and `max_seq_len` without a
window. -/
def SlabDepth : Prop :=
  group.reader.kv.depth =
    if 0 < group.reader.weights.windowSize then
      min (group.reader.weights.windowSize.toNat + group.reader.config.maxPrefillTokens)
        group.reader.config.maxSeqLen
    else group.reader.config.maxSeqLen

end KvGroup

namespace F16Layer

variable {α : Type} (layer : F16Layer)

theorem rowBytes_pos : 0 < layer.kv.bytesPerRow := by
  rw [layer.rowBytes, layer.width]
  exact Nat.mul_pos (by omega) (kvWidth_pos layer.headsOk)

/-- A row of the slab is one slot's and one residue's. -/
theorem rowByte_inj (h : layer.rowByte slot p = layer.rowByte slot' q) :
    slot = slot' ∧ p % layer.kv.depth = q % layer.kv.depth := by
  have hp := Nat.mod_lt p layer.depth_pos
  have hq := Nat.mod_lt q layer.depth_pos
  unfold rowByte at h
  rw [← Nat.add_mul, ← Nat.add_mul] at h
  have hrow := Nat.eq_of_mul_eq_mul_right layer.rowBytes_pos h
  have hslot : (slot * layer.kv.depth + p % layer.kv.depth) / layer.kv.depth =
      (slot' * layer.kv.depth + q % layer.kv.depth) / layer.kv.depth := by rw [hrow]
  rw [Nat.mul_comm slot, Nat.mul_comm slot', Nat.mul_add_div layer.depth_pos,
    Nat.mul_add_div layer.depth_pos, Nat.div_eq_of_lt hp, Nat.div_eq_of_lt hq] at hslot
  have hslot : slot = slot' := hslot
  subst hslot
  exact ⟨rfl, Nat.add_left_cancel hrow⟩

/-- One token's K and V stored at its slot and position. -/
def put (vNormed : Bool) (slab : Nat → α) (token : KvToken α) : Nat → α :=
  fun byte =>
    if byte = layer.rowByte token.slot token.position then token.kv vNormed else slab byte

/-- The slabs hold the live rows of what every slot has been fed. -/
def Holds (slab : Nat → α) (logs : Nat → List α) : Prop :=
  ∀ slot, RingHolds layer.kv.depth
    (fun i => slab (slot * layer.kv.depth * layer.kv.bytesPerRow + i * layer.kv.bytesPerRow))
    (logs slot)

/-- One row stored at the next position of its slot. -/
theorem holds_store {slab : Nat → α} {logs : Nat → List α} (h : layer.Holds slab logs)
    (slot : Nat) (entry : α) :
    layer.Holds
      (fun byte => if byte = layer.rowByte slot (logs slot).length then entry else slab byte)
      (fun s => if s = slot then logs s ++ [entry] else logs s) := by
  have happart : ∀ s i, i < layer.kv.depth → ¬(s = slot ∧ i = (logs slot).length % layer.kv.depth) →
      s * layer.kv.depth * layer.kv.bytesPerRow + i * layer.kv.bytesPerRow ≠
        layer.rowByte slot (logs slot).length := by
    intro s i hi hne heq
    have hrow : layer.rowByte s i = layer.rowByte slot (logs slot).length := by
      rw [← heq]
      unfold rowByte
      rw [Nat.mod_eq_of_lt hi]
    obtain ⟨hslot, hmod⟩ := layer.rowByte_inj hrow
    rw [Nat.mod_eq_of_lt hi] at hmod
    exact hne ⟨hslot, hmod⟩
  intro s
  by_cases hs : s = slot
  · subst hs
    simp only [if_true]
    apply RingHolds.push (h s)
    · exact if_pos rfl
    · intro i hi hne
      exact if_neg (happart s i hi (fun heq => hne heq.2))
  · simp only [if_neg hs]
    apply RingHolds.congr (h s) layer.depth_pos
    intro i hi
    exact if_neg (happart s i hi (fun heq => hs heq.1))

/-- The writes of a batch, token by token. -/
theorem writes_tokens (vNormed : Bool) (tokens : List (KvToken α)) (first : Nat)
    (content : Nat → Bool → Option α)
    (hcontent : ∀ i token, tokens[i]? = some token →
      content (first + i) vNormed = some (token.kv vNormed)) (slab : Nat → α) :
    (((tokens.map KvToken.row).zipIdx first).map fun r => (⟨r.2, r.1.1, r.1.2,
        layer.rowByte r.1.1 r.1.2, layer.kv.bytesPerRow, .f16Contig, vNormed⟩ : KvWrite)).foldl
        (store content) slab =
      tokens.foldl (layer.put vNormed) slab := by
  induction tokens generalizing first slab with
  | nil => rfl
  | cons token tokens ih =>
    have hfirst := hcontent 0 token rfl
    rw [Nat.add_zero] at hfirst
    simp only [List.map_cons, List.zipIdx_cons, List.foldl_cons]
    rw [ih (first + 1) (fun i t ht => by
      have := hcontent (i + 1) t ht
      rwa [Nat.add_assoc, Nat.add_comm 1])]
    congr 1
    unfold store
    rw [hfirst]
    rfl

theorem writesOf_tokens (vNormed : Bool) (tokens : List (KvToken α)) (first : Nat)
    (content : Nat → Bool → Option α)
    (hcontent : ∀ i token, tokens[i]? = some token →
      content (first + i) vNormed = some (token.kv vNormed)) (slab : Nat → α) :
    (layer.writesOf (tokens.map KvToken.row) first vNormed).foldl (store content) slab =
      tokens.foldl (layer.put vNormed) slab := by
  rw [← layer.writes_tokens vNormed tokens first content hcontent slab, List.zipIdx_eq_map_add,
    List.map_map]
  rfl

theorem holds_tokens (vNormed : Bool) {tokens : List (KvToken α)} {slab : Nat → α}
    {logs : Nat → List α} (h : layer.Holds slab logs)
    (hnext : KvToken.Continues (fun slot => (logs slot).length) tokens) :
    layer.Holds (tokens.foldl (layer.put vNormed) slab) (KvToken.feed vNormed logs tokens) := by
  induction tokens generalizing slab logs with
  | nil => exact h
  | cons token tokens ih =>
    obtain ⟨hpos, hnext⟩ := hnext
    rw [List.foldl_cons]
    unfold KvToken.feed
    apply ih
    · unfold put
      rw [hpos]
      exact layer.holds_store h token.slot (token.kv vNormed)
    · rw [KvToken.pushed_lengths]
      exact hnext

/-- The rows of a live window are apart from each other. -/
theorem windowBytes_nodup (slot : Nat) (hlive : position + 1 ≤
    windowStart layer.weights.windowSize position + layer.kv.depth) :
    (layer.windowBytes slot position).Nodup := by
  unfold windowBytes
  apply List.pairwise_map.mpr
  have hnodup : (liveWindow layer.weights.windowSize position).Pairwise (· < ·) :=
    List.pairwise_lt_range'
  apply List.Pairwise.imp_of_mem _ hnodup
  intro s t hs ht hlt heq
  have hs := mem_span.mp hs
  have ht := mem_span.mp ht
  exact ring_cells_apart hlt (by omega) (layer.rowByte_inj heq).2

end F16Layer

namespace KvToken

variable {α : Type}

theorem feed_length (vNormed : Bool) (tokens : List (KvToken α)) (logs : Nat → List α)
    (slot : Nat) :
    (logs slot).length ≤ (feed vNormed logs tokens slot).length ∧
      (feed vNormed logs tokens slot).length ≤ (logs slot).length + tokens.length := by
  induction tokens generalizing logs with
  | nil => exact ⟨Nat.le_refl _, Nat.le_refl _⟩
  | cons token tokens ih =>
    unfold feed
    obtain ⟨hge, hle⟩ := ih fun slot =>
      if slot = token.slot then logs slot ++ [token.kv vNormed] else logs slot
    rw [List.length_cons]
    split at hge <;> split at hle <;> simp_all <;> omega

/-- A token's position is within what its slot has been fed after the forward, and no
further from its end than the forward is long. -/
theorem position_fed (vNormed : Bool) {tokens : List (KvToken α)} {logs : Nat → List α}
    (hnext : Continues (fun slot => (logs slot).length) tokens) (hmem : token ∈ tokens) :
    token.position < (feed vNormed logs tokens token.slot).length ∧
      (feed vNormed logs tokens token.slot).length ≤ token.position + tokens.length := by
  induction tokens generalizing logs with
  | nil => exact absurd hmem List.not_mem_nil
  | cons first tokens ih =>
    obtain ⟨hpos, hnext⟩ := hnext
    unfold feed
    rcases List.mem_cons.mp hmem with rfl | hmem
    · obtain ⟨hge, hle⟩ := feed_length vNormed tokens (fun slot =>
        if slot = token.slot then logs slot ++ [token.kv vNormed] else logs slot) token.slot
      simp only [if_true, List.length_append, List.length_singleton] at hge hle
      dsimp only at hpos
      rw [List.length_cons]
      omega
    · rw [← pushed_lengths logs first.slot (first.kv vNormed)] at hnext
      obtain ⟨hlt, hle⟩ := ih hnext hmem
      rw [List.length_cons]
      omega

theorem feed_bounded {vNormed : Bool} {tokens : List (KvToken α)} {logs : Nat → List α}
    (hnext : Continues (fun slot => (logs slot).length) tokens)
    (hbound : ∀ token ∈ tokens, token.position < maxSeqLen)
    (hlogs : ∀ slot, (logs slot).length ≤ maxSeqLen) (slot : Nat) :
    (feed vNormed logs tokens slot).length ≤ maxSeqLen := by
  induction tokens generalizing logs with
  | nil => exact hlogs slot
  | cons first tokens ih =>
    obtain ⟨hpos, hnext⟩ := hnext
    have hfirst := hbound first List.mem_cons_self
    unfold feed
    dsimp only at hpos
    rw [← pushed_lengths logs first.slot (first.kv vNormed)] at hnext
    apply ih hnext
    · intro token hmem
      exact hbound token (List.mem_cons_of_mem _ hmem)
    · intro s
      by_cases hs : s = first.slot
      · subst hs
        rw [if_pos rfl, List.length_append, List.length_singleton, ← hpos]
        exact hfirst
      · rw [if_neg hs]
        exact hlogs s

/-- The tokens of one slot that continue it are a chunk. -/
theorem chunk_of_continues {tokens : List (KvToken α)} {slot : Nat} {fed : Nat → Nat}
    (hnext : Continues fed tokens)
    (hslot : ∀ token ∈ tokens, token.slot = slot) :
    tokens.map row = F16Layer.chunk slot (fed slot) tokens.length := by
  induction tokens generalizing fed with
  | nil => rfl
  | cons token tokens ih =>
    obtain ⟨hpos, hnext⟩ := hnext
    have hfirst := hslot token List.mem_cons_self
    have hrest := ih hnext fun t ht => hslot t (List.mem_cons_of_mem _ ht)
    rw [if_pos hfirst.symm] at hrest
    rw [List.map_cons, hrest]
    unfold F16Layer.chunk
    rw [List.length_cons, List.range_succ_eq_map, List.map_cons, List.map_map]
    congr 1
    · unfold row
      rw [hpos, hfirst]
      rfl
    · apply List.map_congr_left
      intro i _
      simp only [Function.comp, Nat.succ_eq_add_one, Prod.mk.injEq, true_and]
      omega

end KvToken

theorem chunk_prefillShape (weights : AttnWeights) (slot start n : Nat) :
    (weights.call (F16Layer.chunk slot start n)).prefillShape = true := by
  cases n with
  | zero => rfl
  | succ n =>
    have hrows : F16Layer.chunk slot start (n + 1) =
        (slot, start) :: (List.range n).map fun i => (slot, start + (i + 1)) := by
      unfold F16Layer.chunk
      rw [List.range_succ_eq_map, List.map_cons, List.map_map]
      rfl
    have hall : ((F16Layer.chunk slot start (n + 1)).zipIdx.all
        fun r => r.1.1 == slot && r.1.2 == start + r.2) = true := by
      unfold F16Layer.chunk
      rw [F16Layer.zipIdx_range_map]
      apply List.all_eq_true.mpr
      intro r hr
      obtain ⟨i, _, rfl⟩ := List.mem_map.mp hr
      simp
    unfold AttnWeights.call AttnCall.prefillShape
    rw [hrows] at hall ⊢
    exact hall

/-- The positions from `max(0, p - w + 1)` to `p`, all of them to `p` without a window. -/
def livePositions (w : Int) (p : Nat) : List Nat :=
  (List.range (p + 1)).filter fun t => decide (0 < w → p < t + w.toNat)

theorem liveWindow_eq (w : Int) (p : Nat) : liveWindow w p = livePositions w p := by
  unfold liveWindow livePositions
  rw [← span_zero, ← span_filter (Nat.zero_le (windowStart w p)) (Nat.le_refl (p + 1))]
  apply List.filter_congr
  intro t ht
  have ht := (mem_span.mp ht).2
  unfold windowStart
  rw [Bool.eq_iff_iff]
  simp only [Bool.and_eq_true, decide_eq_true_eq]
  split <;> omega

namespace KvGroup

variable {α : Type} (group : KvGroup)

theorem slots_many {state : Fed α} (h : group.Contiguous state tokens)
    (hshape : group.owner.prefillShape (tokens.map KvToken.row) = false) :
    1 < group.owner.config.nSlots := by
  obtain ⟨_, _, hvalid, hnext⟩ := h
  apply Nat.lt_of_not_le
  intro hone
  have hzero : ∀ token ∈ tokens, token.slot = 0 := by
    intro token hmem
    have hlt : token.slot < group.owner.config.nSlots :=
      (hvalid token.row (List.mem_map.mpr ⟨token, hmem, rfl⟩)).2
    omega
  unfold F16Layer.prefillShape at hshape
  rw [KvToken.chunk_of_continues hnext hzero, chunk_prefillShape] at hshape
  cases hshape

/-- A slab deep enough for its window is as deep as any chunk is long. -/
theorem chunk_fits (hdepth : group.SlabDepth) {state : Fed α}
    (h : group.Contiguous state tokens)
    (hshape : group.owner.prefillShape (tokens.map KvToken.row) = true) :
    (tokens.map KvToken.row).length ≤ group.owner.kv.depth := by
  obtain ⟨hne, hcount, hvalid, _⟩ := h
  unfold SlabDepth at hdepth
  rw [group.config_eq, group.kv_eq] at hdepth
  have hseq : (tokens.map KvToken.row).length ≤ group.owner.config.maxSeqLen := by
    obtain ⟨token, rest, rfl⟩ := List.exists_cons_of_ne_nil hne
    have hrows := F16Layer.prefillShape_rows hshape (group.owner.call_rows _)
    rw [group.owner.call_rows, List.length_map, List.length_cons] at hrows
    have hlast : (token.slot, token.position + rest.length) ∈
        (token :: rest).map KvToken.row := by
      rw [hrows]
      exact List.mem_map.mpr ⟨rest.length, List.mem_range.mpr (Nat.lt_succ_self _), rfl⟩
    have := (hvalid _ hlast).1
    rw [List.length_map, List.length_cons]
    dsimp only at this
    omega
  rw [List.length_map] at hseq ⊢
  split at hdepth <;> omega

/-- The slabs after a batch has been stored. -/
def after (slab : Nat → α) (tokens : List (KvToken α)) : Nat → α :=
  tokens.foldl (group.owner.put (group.owner.storesNormed (tokens.map KvToken.row))) slab

theorem stored_own (slab : Nat → α) (tokens : List (KvToken α)) :
    group.owner.stored (KvToken.content tokens) slab (tokens.map KvToken.row) =
      group.after slab tokens := by
  unfold F16Layer.stored after
  rw [group.owner_own, if_neg (by simp)]
  apply group.owner.writesOf_tokens
  intro i token hget
  unfold KvToken.content
  rw [Nat.zero_add, hget]
  rfl

/-- The layer's forward stores the batch once and runs each row over its window. -/
theorem forward_spec (hdepth : group.SlabDepth) {state : Fed α}
    (h : group.Contiguous state tokens) :
    group.forward state.slab tokens =
      (group.after state.slab tokens,
        if group.owner.completes (tokens.map KvToken.row) then
          some ((group.reader.attendsOf (tokens.map KvToken.row) 0).map
            (look (group.after state.slab tokens)))
        else none) := by
  have hrows : tokens.map KvToken.row ≠ [] := by
    intro hnil
    exact h.1 (List.map_eq_nil_iff.mp hnil)
  have hcount : (tokens.map KvToken.row).length ≤ group.owner.config.maxPrefillTokens := by
    rw [List.length_map]
    exact h.2.1
  have hown := group.owner.run_attn (KvToken.content tokens) h.2.2.1 hrows hcount
    (group.chunk_fits hdepth h) (group.slots_many h) state.slab
  rw [group.stored_own] at hown
  unfold forward
  dsimp only
  rw [hown]
  cases hshared : group.reader.isKvShared with
  | false =>
    rcases group.reader_shares with heq | hyes
    · rw [heq]
      rfl
    · rw [hshared] at hyes
      cases hyes
  | true =>
    rw [if_pos rfl]
    cases hcompletes : group.owner.completes (tokens.map KvToken.row) with
    | false => rfl
    | true =>
      have hvalid : group.reader.valid (tokens.map KvToken.row) := by
        unfold F16Layer.valid
        rw [group.config_eq]
        exact h.2.2.1
      have hread := group.reader.run_attn (KvToken.content tokens) hvalid hrows
        (by rw [group.config_eq]; exact hcount)
        (by rw [group.kv_eq]; exact group.chunk_fits hdepth h)
        (by rw [group.config_eq]; exact group.slots_many h) (group.after state.slab tokens)
      have hkept : group.reader.stored (KvToken.content tokens) (group.after state.slab tokens)
          (tokens.map KvToken.row) = group.after state.slab tokens := by
        unfold F16Layer.stored
        rw [hshared]
        rfl
      have hsame : group.reader.completes (tokens.map KvToken.row) =
          group.owner.completes (tokens.map KvToken.row) := rfl
      rw [hkept, hsame, hcompletes] at hread
      exact hread

def fedBy (state : Fed α) (tokens : List (KvToken α)) : Fed α :=
  ⟨group.after state.slab tokens, group.fed state tokens⟩

/-- In every state of a history the slabs hold what is live of every slot. -/
def Inv (state : Fed α) : Prop :=
  group.owner.Holds state.slab state.logs ∧
    ∀ slot, (state.logs slot).length ≤ group.owner.config.maxSeqLen

theorem inv_after {state : Fed α} (hinv : group.Inv state)
    (h : group.Contiguous state tokens) :
    group.Inv (group.fedBy state tokens) := by
  obtain ⟨hholds, hbound⟩ := hinv
  obtain ⟨_, _, hvalid, hnext⟩ := h
  refine ⟨group.owner.holds_tokens _ hholds hnext, ?_⟩
  apply KvToken.feed_bounded hnext _ hbound
  intro token hmem
  exact (hvalid token.row (List.mem_map.mpr ⟨token, hmem, rfl⟩)).1

theorem run_inv (hdepth : group.SlabDepth)
    (hrun : (group.history (α := α)).Run group.Contiguous state) : group.Inv state := by
  apply System.Run.invariant _ _ hrun
  · intro state hinit
    refine ⟨?_, ?_⟩
    · intro slot
      rw [hinit slot]
      exact ringHolds_nil _ _
    · intro slot
      rw [hinit slot]
      exact Nat.zero_le _
  · intro state tokens state' hinv hcont hstep
    obtain ⟨_, _, rfl⟩ := Option.map_eq_some_iff.mp hstep
    rw [group.forward_spec hdepth hcont]
    exact group.inv_after hinv hcont

/-- The window of a token's query, and all of its slot before the forward's end, fits
the slab. -/
theorem live_fits (hdepth : group.SlabDepth) {state : Fed α}
    (h : group.Contiguous state tokens) (hinv : group.Inv state) (hmem : token ∈ tokens) :
    token.position < (group.fed state tokens token.slot).length ∧
      (group.fed state tokens token.slot).length ≤
        windowStart group.reader.weights.windowSize token.position + group.owner.kv.depth := by
  have hbound := (group.inv_after hinv h).2 token.slot
  obtain ⟨_, hcount, _, hnext⟩ := h
  obtain ⟨hlt, hle⟩ := KvToken.position_fed
    (group.owner.storesNormed (tokens.map KvToken.row)) hnext hmem
  refine ⟨hlt, ?_⟩
  unfold SlabDepth at hdepth
  rw [group.config_eq, group.kv_eq] at hdepth
  rw [hdepth]
  unfold fedBy at hbound
  unfold fed at hbound ⊢
  dsimp only at hbound
  unfold windowStart
  split <;> omega

theorem history_step {state : Fed α} {tokens : List (KvToken α)} (hdepth : group.SlabDepth)
    (h : group.Contiguous state tokens)
    (hcompletes : group.owner.completes (tokens.map KvToken.row) = true) :
    group.history.step state tokens = some (group.fedBy state tokens) := by
  have hstep : group.history.step state tokens =
      (group.forward state.slab tokens).2.map fun _ =>
        ⟨(group.forward state.slab tokens).1, group.fed state tokens⟩ := rfl
  rw [hstep, group.forward_spec hdepth h, hcompletes]
  rfl

end KvGroup

/-- A window of two rows and chunks of two on a slab of four rows. -/
def swaLayer : F16Layer where
  config :=
    { hidden := 64, intermediate := 64, qWidth := 64, kvWidth := 64, vocab := 8, maxSeqLen := 16
      numLayers := 1, maxExperts := 0, maxExpertsPerTok := 0, gdn := none
      perLayerKvWidths := none, attnQGated := false, sharedIntermediate := 0
      maxPrefillTokens := 2, maxSlots := 2, perLayerEmbd := 0, pagedKv := none
      kvLayout := .f16Contig, perLayerKvLayouts := none, perLayerKvDepths := some [4] }
  kv := ⟨2 * 4 * 128, 64, 128, .f16Contig, 4⟩
  weights := ⟨1, 1, 64, 2, false, none⟩
  headsOk := rfl
  qFits := by decide
  kvFits := by decide
  width := rfl
  layout := rfl
  rowBytes := rfl
  depth_pos := by decide
  prefill_pos := by decide

def swaGroup : KvGroup := ⟨swaLayer, swaLayer, rfl, rfl, rfl, .inl rfl⟩

/-- The K and V of a position are its number. -/
def numbered (position : Nat) : KvToken Nat := ⟨0, position, fun _ => position⟩

/-- Two chunks that fill the slab. -/
def filled : KvGroup.Fed Nat :=
  swaGroup.fedBy (swaGroup.fedBy ⟨fun _ => 0, fun _ => []⟩ [numbered 0, numbered 1])
    [numbered 2, numbered 3]

theorem numbered_valid (h : position < 16) :
    swaLayer.valid [(numbered position).row] := by
  intro r hr
  rw [List.mem_singleton.mp hr]
  exact ⟨h, Nat.zero_lt_two⟩

theorem filled_run : swaGroup.history.Run swaGroup.Contiguous filled := by
  have hdepth : swaGroup.SlabDepth := rfl
  have hchunk : ∀ (state : KvGroup.Fed Nat) (position : Nat), position + 1 < 16 →
      (state.logs 0).length = position →
      swaGroup.Contiguous state [numbered position, numbered (position + 1)] := by
    intro state position hlt hlen
    refine ⟨nofun, Nat.le_refl 2, ?_, hlen.symm, ?_, trivial⟩
    · intro r hr
      simp only [List.map_cons, List.map_nil, List.mem_cons, List.not_mem_nil, or_false] at hr
      rcases hr with rfl | rfl
      · exact numbered_valid (by omega) _ List.mem_cons_self
      · exact numbered_valid hlt _ List.mem_cons_self
    · simp [numbered, hlen]
  have hfirst := hchunk ⟨fun _ => 0, fun _ => []⟩ 0 (by decide) rfl
  have hsecond := hchunk
    (swaGroup.fedBy ⟨fun _ => 0, fun _ => []⟩ [numbered 0, numbered 1]) 2 (by decide) rfl
  apply System.Run.step _ hsecond (swaGroup.history_step hdepth hsecond rfl)
  apply System.Run.step _ hfirst (swaGroup.history_step hdepth hfirst rfl)
  exact .init fun _ => rfl

end Flambeau.Forward.Attn
