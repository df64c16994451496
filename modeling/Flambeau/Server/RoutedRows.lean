import Mathlib.Data.List.Nodup
import Flambeau.Server.Routing

namespace Flambeau.Server.Routing
open Scheduler (PendingDecode)

variable {F : Type} {cfg : Config} {vocab : Nat}

/-- The row that an entry asks for. -/
def rowOf (p : PendingDecode Nat) : Row := ⟨p.tokenId, p.position, p.slotIdx⟩

theorem conv_slotId {k : Nat} (hk : k < cfg.inflightSlots) : (cfg.conv k).slotId = k := by
  unfold Config.conv Config.inflightPool
  rw [List.getD_eq_getElem?_getD, List.getElem?_map, List.getElem?_range hk]
  rfl

/-- Each entry's row runs in the slot that the entry names, whatever the queue's order. -/
theorem tuples_eq {pending : List (PendingDecode Nat)}
    (hfit : ∀ p ∈ pending, p.slotIdx < cfg.inflightSlots) :
    tuples (batchSlots pending) (inflights cfg pending) = pending.map rowOf := by
  unfold tuples batchSlots inflights
  refine List.ext_getElem? fun i => ?_
  rw [List.getElem?_zipWith, List.getElem?_mapIdx, List.getElem?_map, List.getElem?_map]
  cases hp : pending[i]? with
  | none => rfl
  | some p =>
    have hslot := conv_slotId (hfit p (List.mem_of_getElem? hp))
    change some (Row.mk p.tokenId p.position (cfg.conv p.slotIdx).slotId) = some (rowOf p)
    rw [hslot]
    rfl

section Emitted

/-- Rows of one width are found again by their number. -/
theorem drop_flatMap {width : Nat} {f : α → List F} (hwidth : ∀ a, (f a).length = width) (xs : List α)
    (i : Nat) : (xs.flatMap f).drop (i * width) = (xs.drop i).flatMap f := by
  induction xs generalizing i with
  | nil => rw [List.drop_nil, List.flatMap_nil, List.drop_nil]
  | cons x xs ih =>
    cases i with
    | zero => rw [Nat.zero_mul, List.drop_zero, List.drop_zero]
    | succ i =>
      have hsplit : (i + 1) * width = (f x).length + i * width := by
        rw [hwidth, Nat.succ_mul, Nat.add_comm]
      rw [List.flatMap_cons, hsplit, List.drop_length_add_append, ih]
      rfl

theorem logitsRow_emitted {n i : Nat} (hi : i < n) (logits : Nat → Vector F vocab) :
    logitsRow ((List.range n).flatMap fun i => (logits i).toList) i vocab = (logits i).toList := by
  unfold logitsRow
  rw [drop_flatMap (fun j => (logits j).length_toList), List.drop_eq_getElem_cons
    (by rw [List.length_range]; exact hi), List.flatMap_cons, List.getElem_range,
    List.take_append_of_le_length (Nat.le_of_eq Vector.length_toList.symm),
    List.take_of_length_le (Nat.le_of_eq Vector.length_toList)]

theorem emitAll_nodup {slotIds : List Nat} (hnodup : slotIds.Nodup) (hlen : 1 < slotIds.length) :
    emitAll slotIds = true := by
  unfold emitAll
  match slotIds, hlen with
  | a :: b :: rest, _ =>
    have hne : b ≠ a := fun hba => (List.nodup_cons.mp hnodup).1 (hba ▸ List.mem_cons_self)
    simp [hne]

/-- Rows of one slot: only the last is emitted. -/
theorem outputHead_same {slotIds : List Nat} {slot : Nat} (hsame : ∀ k ∈ slotIds, k = slot)
    (logits : Nat → Vector F vocab) :
    outputHead slotIds logits = (logits (slotIds.length - 1)).toList := by
  have hone : emitAll slotIds = false := by
    unfold emitAll
    cases slotIds with
    | nil => rfl
    | cons a rest =>
      rw [Bool.and_eq_false_iff]
      refine .inr (List.any_eq_false.mpr fun k hk => ?_)
      have hka : k = a := (hsame k hk).trans (hsame a List.mem_cons_self).symm
      simp [hka]
  unfold outputHead
  rw [hone, if_neg Bool.false_ne_true]

/-- Distinct slots: row `i` of what is emitted is the logits of row `i`. -/
theorem outputHead_row {slotIds : List Nat} (hnodup : slotIds.Nodup) (hlen : 1 < slotIds.length)
    (logits : Nat → Vector F vocab) {i : Nat} (hi : i < slotIds.length) :
    logitsRow (outputHead slotIds logits) i vocab = (logits i).toList := by
  unfold outputHead
  rw [emitAll_nodup hnodup hlen, if_pos rfl]
  exact logitsRow_emitted hi logits

end Emitted

/-- `logits` are those of the row that belongs to the call `p`. -/
def RowFor (f : Forward F vocab) (p : PendingDecode Nat) (logits : List F) : Prop :=
  ∃ j, f.entries[j]? = some (some p.response) ∧ f.rows[j]? = some (rowOf p) ∧
    logits = (f.logits j).toList

/-- What a job's last forward has left in `last_logits`. -/
structure Left (cfg : Config) (job : Job) (f : Forward F cfg.vocab) (lastLogits : List F) : Prop where
  last : job.more cfg = none
  entries : f.entries = job.entries cfg
  request : ∃ request, job.request cfg = some request ∧ f.rows = request.rows ∧
    lastLogits = outputHead request.headSlots fun i => f.logits (request.headStart + i)

variable {f : Forward F cfg.vocab} {lastLogits : List F} {pending : List (PendingDecode Nat)}

theorem decodeBatched_some {rows : List Row} {request : Request} (h : decodeBatched rows = some request) :
    request = .forward rows ∧ rows ≠ [] := by
  unfold decodeBatched at h
  split at h
  · cases h
  · rename_i hempty
    split at h
    · cases h
    · cases h
      exact ⟨rfl, fun hnil => hempty (hnil ▸ rfl)⟩

theorem slots_of_rows : (pending.map rowOf).map Row.slotId = pending.map PendingDecode.slotIdx := by
  rw [List.map_map]
  rfl

/-- The batch of one, by the fast path or by the leader. -/
theorem Left.alone {job : Job} {p : PendingDecode Nat} (h : Left cfg job f lastLogits)
    (hjob : job.request cfg = decodeBatched (tuples (batchSlots [p]) (inflights cfg [p])))
    (hentries : job.entries cfg = [some p.response]) (hfit : p.slotIdx < cfg.inflightSlots) :
    RowFor f p lastLogits := by
  obtain ⟨-, hf, request, hrequest, hrows, hlast⟩ := h
  rw [hjob, tuples_eq (fun q hq => (List.mem_singleton.mp hq) ▸ hfit)] at hrequest
  obtain ⟨rfl, -⟩ := decodeBatched_some hrequest
  refine ⟨0, ?_, ?_, ?_⟩
  · rw [hf, hentries]
    rfl
  · rw [hrows]
    rfl
  · rw [hlast]
    rfl

/-- Every entry of a leader's batch is answered with its own row. -/
theorem Left.batched {mine : PendingDecode Nat} (h : Left cfg (.batched mine pending) f lastLogits)
    (hfit : ∀ p ∈ pending, p.slotIdx < cfg.inflightSlots)
    (hnodup : (pending.map PendingDecode.slotIdx).Nodup) {p : PendingDecode Nat} {logits : List F}
    (hp : (p, some logits) ∈ (Job.batched mine pending).answers cfg lastLogits) : RowFor f p logits := by
  unfold Job.answers at hp
  dsimp only at hp
  split at hp
  · rename_i hone
    obtain ⟨q, rfl⟩ := List.length_eq_one_iff.mp hone
    rw [List.map_singleton, List.mem_singleton] at hp
    cases hp
    exact h.alone rfl rfl (hfit p List.mem_cons_self)
  · rename_i hmany
    obtain ⟨-, hf, request, hrequest, hrows, hlast⟩ := h
    change decodeBatched (tuples (batchSlots pending) (inflights cfg pending)) = _ at hrequest
    rw [tuples_eq hfit] at hrequest
    obtain ⟨rfl, hne⟩ := decodeBatched_some hrequest
    rw [List.mem_mapIdx] at hp
    obtain ⟨i, hi, heq⟩ := hp
    cases heq
    have hlen : 1 < pending.length := by
      have hpos : pending.length ≠ 0 := fun hzero => hne (by rw [List.length_eq_zero_iff.mp hzero]; rfl)
      omega
    refine ⟨i, ?_, ?_, ?_⟩
    · rw [hf]
      change (pending.map fun p => some p.response)[i]? = _
      rw [List.getElem?_map, List.getElem?_eq_getElem hi]
      rfl
    · rw [hrows]
      change (pending.map rowOf)[i]? = _
      rw [List.getElem?_map, List.getElem?_eq_getElem hi]
      rfl
    · rw [hlast]
      change logitsRow (outputHead ((pending.map rowOf).map Row.slotId) fun i => f.logits (0 + i)) i _ = _
      rw [slots_of_rows, outputHead_row hnodup (by rw [List.length_map]; exact hlen) _
        (by rw [List.length_map]; exact hi), Nat.zero_add]

section Chunks

variable {c : Chunk}

theorem Chunk.length_tokens : (c.tokens cfg).length = c.stop cfg - c.start := by
  unfold Chunk.tokens
  rw [List.length_take, List.length_drop]
  unfold Chunk.stop
  omega

theorem Chunk.getElem?_tokens {i : Nat} (hi : i < c.stop cfg - c.start) :
    (c.tokens cfg)[i]? = c.promptIds[c.start + i]? := by
  unfold Chunk.tokens
  rw [List.getElem?_take_of_lt hi, List.getElem?_drop]

theorem getElem?_prefillRows {tokens : List Nat} {start slot i : Nat} :
    (prefillRows tokens start slot)[i]? = tokens[i]?.map fun token => ⟨token, start + i, slot⟩ :=
  List.getElem?_mapIdx ..

theorem length_prefillRows {tokens : List Nat} {start slot : Nat} :
    (prefillRows tokens start slot).length = tokens.length := List.length_mapIdx ..

theorem slots_prefillRows {tokens : List Nat} {start slot : Nat} {r : Row}
    (hr : r ∈ prefillRows tokens start slot) : r.slotId = slot := by
  obtain ⟨i, hi, rfl⟩ := List.mem_mapIdx.mp hr
  rfl

/-- The last token of a chunk stands in the chunk's last row. -/
theorem Chunk.lastRow_eq (hne : c.start < c.stop cfg) :
    some (c.lastRow cfg) = (c.tokens cfg)[c.stop cfg - c.start - 1]?.map fun token =>
      ⟨token, c.start + (c.stop cfg - c.start - 1), (cfg.conv c.slotIdx).slotId⟩ := by
  have hpos : c.start + (c.stop cfg - c.start - 1) = c.stop cfg - 1 := by omega
  have hlen : c.stop cfg - 1 < c.promptIds.length := by
    have hstop : c.stop cfg ≤ c.promptIds.length := Nat.min_le_right ..
    omega
  rw [Chunk.getElem?_tokens (by omega), hpos, List.getElem?_eq_getElem hlen]
  unfold Chunk.lastRow
  rw [List.getD_eq_getElem?_getD, List.getElem?_eq_getElem hlen]
  rfl

/-- The mixed forward emits from the chunk's last row on. -/
theorem Left.mixed_request (h : Left cfg (.mixed c pending) f lastLogits)
    (hfit : ∀ p ∈ pending, p.slotIdx < cfg.inflightSlots) :
    0 < (c.tokens cfg).length ∧
      f.rows = prefillRows (c.tokens cfg) c.start (cfg.conv c.slotIdx).slotId ++ pending.map rowOf ∧
      lastLogits = outputHead ((cfg.conv c.slotIdx).slotId :: pending.map PendingDecode.slotIdx)
        fun i => f.logits ((c.tokens cfg).length - 1 + i) := by
  obtain ⟨-, -, request, hrequest, hrows, hlast⟩ := h
  unfold Job.request at hrequest
  dsimp only at hrequest
  split at hrequest
  · cases hrequest
  · rename_i hguard
    rw [tuples_eq hfit] at hrequest
    cases hrequest
    simp only [Bool.or_eq_true, not_or, List.isEmpty_iff] at hguard
    have hpos : 0 < (c.tokens cfg).length := List.length_pos_iff.mpr hguard.1
    refine ⟨hpos, hrows, hlast.trans ?_⟩
    have hslots : (Request.forwardMixed (prefillRows (c.tokens cfg) c.start (cfg.conv c.slotIdx).slotId ++
        pending.map rowOf) (c.tokens cfg).length).headSlots =
        (cfg.conv c.slotIdx).slotId :: pending.map PendingDecode.slotIdx := by
      unfold Request.headSlots
      dsimp only
      rw [List.drop_left' length_prefillRows, slots_of_rows]
      cases htokens : c.tokens cfg with
      | nil =>
        rw [htokens] at hpos
        cases hpos
      | cons token tokens =>
        unfold prefillRows
        rw [List.mapIdx_cons]
        rfl
    rw [hslots]
    rfl

/-- Row 0 of a mixed forward is the chunk's, the decodes' rows come behind it. -/
theorem Left.mixed (h : Left cfg (.mixed c pending) f lastLogits)
    (hfit : ∀ p ∈ pending, p.slotIdx < cfg.inflightSlots) (hslot : c.slotIdx < cfg.inflightSlots)
    (hnodup : (c.slotIdx :: pending.map PendingDecode.slotIdx).Nodup) {p : PendingDecode Nat}
    {logits : List F} (hp : (p, some logits) ∈ (Job.mixed c pending).answers cfg lastLogits) :
    RowFor f p logits := by
  obtain ⟨hpos, hrows, hlast⟩ := h.mixed_request hfit
  rw [conv_slotId hslot] at hlast
  obtain ⟨i, hi, heq⟩ := List.mem_mapIdx.mp hp
  cases heq
  have hbehind : ∀ {α : Type} {front back : List α}, front.length = (c.tokens cfg).length →
      (front ++ back)[(c.tokens cfg).length + i]? = back[i]? := by
    intro α front back hfront
    rw [List.getElem?_append_right (by omega)]
    congr 1
    omega
  refine ⟨(c.tokens cfg).length + i, ?_, ?_, ?_⟩
  · rw [h.entries]
    change (List.replicate _ none ++ _)[_]? = _
    rw [hbehind List.length_replicate, List.getElem?_map, List.getElem?_eq_getElem hi]
    rfl
  · rw [hrows, hbehind length_prefillRows, List.getElem?_map, List.getElem?_eq_getElem hi]
    rfl
  · have hlt : i + 1 < (c.slotIdx :: pending.map PendingDecode.slotIdx).length := by
      rw [List.length_cons, List.length_map]
      omega
    rw [hlast, outputHead_row hnodup (by omega) _ hlt]
    congr 2
    omega

theorem Left.mixed_prefill (h : Left cfg (.mixed c pending) f lastLogits)
    (hfit : ∀ p ∈ pending, p.slotIdx < cfg.inflightSlots) (hslot : c.slotIdx < cfg.inflightSlots)
    (hnodup : (c.slotIdx :: pending.map PendingDecode.slotIdx).Nodup) :
    ∃ j, f.rows[j]? = some (c.lastRow cfg) ∧
      logitsRow lastLogits 0 cfg.vocab = (f.logits j).toList := by
  obtain ⟨hpos, hrows, hlast⟩ := h.mixed_request hfit
  rw [conv_slotId hslot] at hlast
  have hpending : pending ≠ [] := by
    obtain ⟨-, -, request, hrequest, -⟩ := h
    rintro rfl
    unfold Job.request at hrequest
    dsimp only at hrequest
    rw [if_pos (by simp)] at hrequest
    cases hrequest
  have hlen : 1 < (c.slotIdx :: pending.map PendingDecode.slotIdx).length := by
    have hsome : 0 < pending.length := List.length_pos_iff.mpr hpending
    rw [List.length_cons, List.length_map]
    omega
  have hstop : c.start < c.stop cfg := by
    rw [Chunk.length_tokens] at hpos
    omega
  refine ⟨(c.tokens cfg).length - 1, ?_, ?_⟩
  · rw [hrows, List.getElem?_append_left (by rw [length_prefillRows]; omega), getElem?_prefillRows,
      Chunk.lastRow_eq hstop, Chunk.length_tokens]
  · rw [hlast, outputHead_row hnodup hlen _ (by omega), Nat.add_zero]

/-- A prefill on its own returns the logits of its last row. -/
theorem Left.prefill {at_ : Nat} (h : Left cfg (.prefill c at_) f lastLogits) :
    ∃ j, f.rows[j]? = some (c.lastRow cfg) ∧ lastLogits = (f.logits j).toList := by
  obtain ⟨hmore, -, request, hrequest, hrows, hlast⟩ := h
  unfold Job.request at hrequest
  dsimp only at hrequest
  split at hrequest
  · cases hrequest
  · rename_i hempty
    cases hrequest
    have hlast_batch : (c.tokens cfg).length ≤ at_ + cfg.prefillUbatch := by
      unfold Job.more at hmore
      dsimp only at hmore
      split at hmore
      · cases hmore
      · omega
    have hubatch : (Job.ubatch cfg c at_).length = (c.tokens cfg).length - at_ := by
      unfold Job.ubatch
      rw [List.length_take, List.length_drop]
      omega
    have hle : (Job.ubatch cfg c at_).length ≤ cfg.prefillUbatch := List.length_take_le ..
    have hpos : 0 < (Job.ubatch cfg c at_).length :=
      List.length_pos_iff.mpr fun hnil => hempty (List.isEmpty_iff.mpr hnil)
    have htokens : (c.tokens cfg).length = c.stop cfg - c.start := Chunk.length_tokens
    refine ⟨(Job.ubatch cfg c at_).length - 1, ?_, ?_⟩
    · have hindex : at_ + ((Job.ubatch cfg c at_).length - 1) = c.stop cfg - c.start - 1 := by omega
      have htoken : (Job.ubatch cfg c at_)[(Job.ubatch cfg c at_).length - 1]? =
          (c.tokens cfg)[c.stop cfg - c.start - 1]? := by
        rw [← hindex, ← List.getElem?_drop]
        exact List.getElem?_take_of_lt (by omega)
      rw [hrows]
      change (prefillRows _ _ _)[_]? = _
      rw [getElem?_prefillRows, htoken, Chunk.lastRow_eq (by omega), Nat.add_assoc, hindex]
    · rw [hlast]
      change outputHead ((prefillRows _ _ _).map Row.slotId) (fun i => f.logits (0 + i)) = _
      have hsame : ∀ k ∈ (prefillRows (Job.ubatch cfg c at_) (c.start + at_)
          (cfg.conv c.slotIdx).slotId).map Row.slotId, k = (cfg.conv c.slotIdx).slotId := by
        intro k hk
        obtain ⟨r, hr, rfl⟩ := List.mem_map.mp hk
        exact slots_prefillRows hr
      rw [outputHead_same hsame, List.length_map, length_prefillRows, Nat.zero_add]

end Chunks

end Flambeau.Server.Routing
