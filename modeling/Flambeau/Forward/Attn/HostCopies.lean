import Flambeau.Forward.Attn.Contiguous

namespace Flambeau.Forward.Attn
open Systems

/-- The device arrays that `standard_attn_local` fills from the host. -/
inductive ScratchArray where
  | positionI32
  | attnSlotKDstPtrs
  | attnSlotVDstPtrs
  | attnSlotWritePos
  | attnSlotNKv
  | blockTables
deriving Repr, DecidableEq

/-- Bytes that `ScratchPool::new` allocates. The per-slot arrays are there for more than
one slot only. -/
def arrayBytes (config : ScratchConfig) : ScratchArray → Nat
  | .positionI32 => max config.maxPrefillTokens 1 * 4
  | .attnSlotKDstPtrs | .attnSlotVDstPtrs => if 1 < config.nSlots then config.nSlots * 8 else 0
  | .attnSlotWritePos | .attnSlotNKv => if 1 < config.nSlots then config.nSlots * 4 else 0
  | .blockTables => config.pagedKv.elim 0 fun paged => config.nSlots * paged.maxPagesPerSlot * 4

/-- One `memcpy_async` from the host. -/
structure HostCopy where
  array : ScratchArray
  offset : Nat
  bytes : Nat
deriving Repr, DecidableEq

def HostCopy.Inside (config : ScratchConfig) (copy : HostCopy) : Prop :=
  copy.offset + copy.bytes ≤ arrayBytes config copy.array

/-- What a call copies, the page pool it leaves, and whether it gets to its kernels. -/
structure CopyRun where
  copies : List HostCopy
  pages : PagePool
  accepted : Bool
deriving Repr, DecidableEq

/-- A page number into the entry of a slot's row. -/
def tableCopy (paged : PagedKvCacheConfig) (slot entry : Nat) : HostCopy :=
  ⟨.blockTables, (slot * paged.maxPagesPerSlot + entry) * 4, 4⟩

/-- The single-slot branch of the paged pool patches the slot's row with what
`ensure_pages_up_to` returns. -/
def pagedPrefillCopies (paged : PagedKvCacheConfig) (pages : PagePool) (weights : AttnWeights)
    (slot startPosition n : Nat) : CopyRun :=
  if weights.attnVUnitNorm = true ∨ 0 < weights.windowSize then ⟨[], pages, false⟩
  -- `div_ceil` by a page size of 0 panics
  else if paged.pageSize = 0 then ⟨[], pages, false⟩
  else
    match pages.ensurePagesUpTo slot (divCeil (startPosition + n) paged.pageSize) with
    | (pages, .error _) => ⟨[], pages, false⟩
    | (pages, .ok newPages) => ⟨newPages.map fun new => tableCopy paged slot new.1, pages, true⟩

/-- The rows of a paged batch: one on a page boundary takes a page and patches its
entry. -/
def pagedRowCopies (paged : PagedKvCacheConfig) : List (Nat × Nat) → PagePool → CopyRun
  | [], pages => ⟨[], pages, true⟩
  | (slot, pos) :: rows, pages =>
    if paged.pageSize * paged.maxPagesPerSlot ≤ pos then ⟨[], pages, false⟩
    else if pos % paged.pageSize = 0 then
      match pages.acquireFor slot with
      | none => ⟨[], pages, false⟩
      | some (_, pages) =>
        let rest := pagedRowCopies paged rows pages
        { rest with copies := tableCopy paged slot (pos / paged.pageSize) :: rest.copies }
    else pagedRowCopies paged rows pages

/-- Write positions and lengths, one `i32` for each row. -/
def rowScalarCopies (n : Nat) : List HostCopy :=
  [⟨.attnSlotWritePos, 0, n * 4⟩, ⟨.attnSlotNKv, 0, n * 4⟩]

/-- Base pointers, one `u64` for each row. -/
def rowPointerCopies (n : Nat) : List HostCopy :=
  [⟨.attnSlotKDstPtrs, 0, n * 8⟩, ⟨.attnSlotVDstPtrs, 0, n * 8⟩]

/-- The multi-slot branch of the paged pool. -/
def pagedSlotsCopies (config : ScratchConfig) (paged : PagedKvCacheConfig) (pages : PagePool)
    (rows : List (Nat × Nat)) : CopyRun :=
  let patched := pagedRowCopies paged rows pages
  if patched.accepted = false then patched
  else if config.nSlots ≤ 1 then { patched with accepted := false }
  else { patched with copies := patched.copies ++ rowScalarCopies rows.length }

/-- The multi-slot branch of the contiguous pool: base pointers for the append, then the
pointers at the windows' starts if any row slides. -/
def batchedCopies (config : ScratchConfig) (kv : KvCache) (pages : PagePool)
    (weights : AttnWeights) (rows : List (Nat × Nat)) : CopyRun :=
  if config.nSlots ≤ 1 then ⟨[], pages, false⟩
  else
    let anyOffset := rows.any fun r => slides config kv weights r.2
    ⟨rowPointerCopies rows.length ++ rowScalarCopies rows.length ++
      (if anyOffset then rowPointerCopies rows.length else []), pages, true⟩

/-- The copies of an admitted call, its positions first. -/
def branchCopies (config : ScratchConfig) (kv : KvCache) (pages : PagePool)
    (weights : AttnWeights) (rows : List (Nat × Nat)) : CopyRun :=
  match rows with
  | [] => ⟨[], pages, false⟩
  | (slot, startPosition) :: _ =>
    match config.pagedKv with
    | some paged =>
      if (weights.call rows).prefillShape then
        pagedPrefillCopies paged pages weights slot startPosition rows.length
      else pagedSlotsCopies config paged pages rows
    | none =>
      if (weights.call rows).prefillShape then ⟨[], pages, true⟩
      else batchedCopies config kv pages weights rows

/-- The copies of `standard_attn_local` on a layer whose cache is `kv`. -/
def standardAttnCopies (config : ScratchConfig) (kv : KvCache) (pages : PagePool)
    (weights : AttnWeights) (rows : List (Nat × Nat)) : CopyRun :=
  if admits config kv weights rows then
    let branch := branchCopies config kv pages weights rows
    { branch with copies := ⟨.positionI32, 0, rows.length * 4⟩ :: branch.copies }
  else ⟨[], pages, false⟩

/-- The page pool of a layer under its configured limit. -/
structure LayerPages (config : ScratchConfig) where
  pool : PagePool
  limit : ∀ paged, config.pagedKv = some paged → pool.maxPagesPerSlot = paged.maxPagesPerSlot

/-- Rows that are not one run of one slot get their own entries: no more of them than
slots, if the call gets so far. -/
def RowsFit (config : ScratchConfig) (kv : KvCache) (pages : PagePool) (weights : AttnWeights)
    (rows : List (Nat × Nat)) : Prop :=
  admits config kv weights rows = true → (weights.call rows).prefillShape = false →
    1 < config.nSlots →
      (∀ paged, config.pagedKv = some paged → (pagedRowCopies paged rows pages).accepted = true) →
        rows.length ≤ config.nSlots

theorem take_limit {pool pool' : PagePool} (h : pool.take slot = some (page, pool')) :
    pool'.maxPagesPerSlot = pool.maxPagesPerSlot := by
  unfold PagePool.take at h
  split at h
  · cases h
  · cases h
    rfl

theorem acquireFor_limit {pool pool' : PagePool} (h : pool.acquireFor slot = some (page, pool')) :
    pool'.maxPagesPerSlot = pool.maxPagesPerSlot := by
  unfold PagePool.acquireFor at h
  split at h
  · cases h
  · exact take_limit h

/-- The new pages take the indices from the first free one on. -/
theorem acquireAll_indices {pool pool' : PagePool}
    (h : PagePool.acquireAll slot count pageIdx pool = (pool', result)) :
    pool'.maxPagesPerSlot = pool.maxPagesPerSlot ∧
      ∀ newPages, result = .ok newPages → ∀ new ∈ newPages, new.1 < pageIdx + count := by
  induction count generalizing pageIdx pool result with
  | zero =>
    cases h
    exact ⟨rfl, fun newPages hnew new hmem => by cases hnew; exact absurd hmem List.not_mem_nil⟩
  | succ count ih =>
    unfold PagePool.acquireAll at h
    split at h
    · cases h
      exact ⟨rfl, fun newPages hnew => by cases hnew⟩
    · rename_i page taken htake
      have hlimit := take_limit htake
      split at h
      · rename_i last held hrest
        cases h
        exact ⟨(ih hrest).1.trans hlimit, fun newPages hnew => by cases hnew⟩
      · rename_i last rest hrest
        cases h
        obtain ⟨hkept, hindices⟩ := ih hrest
        refine ⟨hkept.trans hlimit, fun newPages hnew new hmem => ?_⟩
        cases hnew
        rcases List.mem_cons.mp hmem with rfl | hmem
        · dsimp only
          omega
        · have hlater := hindices rest rfl new hmem
          omega

theorem ensurePagesUpTo_indices {pool pool' : PagePool}
    (h : pool.ensurePagesUpTo slot target = (pool', result)) :
    pool'.maxPagesPerSlot = pool.maxPagesPerSlot ∧
      ∀ newPages, result = .ok newPages → ∀ new ∈ newPages, new.1 < pool.maxPagesPerSlot := by
  unfold PagePool.ensurePagesUpTo at h
  dsimp only at h
  split at h
  · cases h
    exact ⟨rfl, fun newPages hnew => by cases hnew⟩
  · split at h
    · cases h
      exact ⟨rfl, fun newPages hnew new hmem => by cases hnew; exact absurd hmem List.not_mem_nil⟩
    · obtain ⟨hkept, hindices⟩ := acquireAll_indices h
      refine ⟨hkept, fun newPages hnew new hmem => ?_⟩
      have hlater := hindices newPages hnew new hmem
      omega

theorem tableCopy_inside (hpaged : config.pagedKv = some paged) (hslot : slot < config.nSlots)
    (hentry : entry < paged.maxPagesPerSlot) : (tableCopy paged slot entry).Inside config := by
  have hrow : (slot + 1) * paged.maxPagesPerSlot ≤ config.nSlots * paged.maxPagesPerSlot :=
    Nat.mul_le_mul_right _ hslot
  rw [Nat.succ_mul] at hrow
  unfold HostCopy.Inside tableCopy arrayBytes
  simp only [hpaged, Option.elim_some]
  omega

theorem pagedPrefillCopies_inside (hpaged : config.pagedKv = some paged)
    (hlimit : pages.maxPagesPerSlot = paged.maxPagesPerSlot) (hslot : slot < config.nSlots) :
    ∀ copy ∈ (pagedPrefillCopies paged pages weights slot start n).copies, copy.Inside config := by
  intro copy hcopy
  unfold pagedPrefillCopies at hcopy
  split at hcopy
  · exact absurd hcopy List.not_mem_nil
  · split at hcopy
    · exact absurd hcopy List.not_mem_nil
    · split at hcopy
      · exact absurd hcopy List.not_mem_nil
      · rename_i grown newPages hensure
        obtain ⟨new, hnew, rfl⟩ := List.mem_map.mp hcopy
        have hindex := (ensurePagesUpTo_indices hensure).2 newPages rfl new hnew
        exact tableCopy_inside hpaged hslot (hlimit ▸ hindex)

/-- Every row patches an entry of its own slot's row. -/
theorem pagedRowCopies_inside (hpaged : config.pagedKv = some paged)
    (hslots : ∀ r ∈ rows, r.1 < config.nSlots) :
    ∀ copy ∈ (pagedRowCopies paged rows pages).copies, copy.Inside config := by
  induction rows generalizing pages with
  | nil => exact fun copy hcopy => absurd hcopy List.not_mem_nil
  | cons row rest ih =>
    obtain ⟨slot, pos⟩ := row
    have hslot := hslots (slot, pos) (List.mem_cons_self ..)
    have hrest := fun r hr => hslots r (List.mem_cons_of_mem _ hr)
    intro copy hcopy
    unfold pagedRowCopies at hcopy
    split at hcopy
    · exact absurd hcopy List.not_mem_nil
    · rename_i hpos
      split at hcopy
      · split at hcopy
        · exact absurd hcopy List.not_mem_nil
        · rcases List.mem_cons.mp hcopy with rfl | hcopy
          · exact tableCopy_inside hpaged hslot (Nat.div_lt_of_lt_mul (by omega))
          · exact ih hrest copy hcopy
      · exact ih hrest copy hcopy

theorem rowScalarCopies_inside (hslots : 1 < config.nSlots) :
    (∀ copy ∈ rowScalarCopies n, copy.Inside config) ↔ n ≤ config.nSlots := by
  simp only [rowScalarCopies, List.forall_mem_cons, HostCopy.Inside, arrayBytes, if_pos hslots]
  constructor
  · rintro ⟨h, -⟩
    omega
  · intro h
    exact ⟨by omega, by omega, fun copy hcopy => absurd hcopy List.not_mem_nil⟩

theorem rowPointerCopies_inside (hslots : 1 < config.nSlots) (h : n ≤ config.nSlots) :
    ∀ copy ∈ rowPointerCopies n, copy.Inside config := by
  simp only [rowPointerCopies, List.forall_mem_cons, HostCopy.Inside, arrayBytes, if_pos hslots]
  exact ⟨by omega, by omega, fun copy hcopy => absurd hcopy List.not_mem_nil⟩

theorem pagedSlotsCopies_inside (hpaged : config.pagedKv = some paged)
    (hrows : ∀ r ∈ rows, r.1 < config.nSlots) :
    (∀ copy ∈ (pagedSlotsCopies config paged pages rows).copies, copy.Inside config) ↔
      (1 < config.nSlots → (pagedRowCopies paged rows pages).accepted = true →
        rows.length ≤ config.nSlots) := by
  have hpatched : ∀ copy ∈ (pagedRowCopies paged rows pages).copies, copy.Inside config :=
    pagedRowCopies_inside hpaged hrows
  unfold pagedSlotsCopies
  dsimp only
  by_cases haccepted : (pagedRowCopies paged rows pages).accepted = true
  · rw [if_neg (by rw [haccepted]; decide)]
    by_cases hslots : 1 < config.nSlots
    · rw [if_neg (by omega), List.forall_mem_append, rowScalarCopies_inside hslots]
      exact ⟨fun h _ _ => h.2, fun h => ⟨hpatched, h hslots haccepted⟩⟩
    · rw [if_pos (by omega)]
      exact iff_of_true hpatched fun hmany => absurd hmany hslots
  · rw [if_pos (by simpa using haccepted)]
    exact iff_of_true hpatched fun _ h => absurd h haccepted

theorem batchedCopies_inside :
    (∀ copy ∈ (batchedCopies config kv pages weights rows).copies, copy.Inside config) ↔
      (1 < config.nSlots → rows.length ≤ config.nSlots) := by
  unfold batchedCopies
  by_cases hslots : 1 < config.nSlots
  · rw [if_neg (by omega)]
    dsimp only
    rw [List.forall_mem_append, List.forall_mem_append, rowScalarCopies_inside hslots]
    constructor
    · rintro ⟨⟨-, h⟩, -⟩ _
      exact h
    · intro h
      have hpointers := rowPointerCopies_inside hslots (h hslots)
      refine ⟨⟨hpointers, h hslots⟩, ?_⟩
      split
      · exact hpointers
      · exact fun copy hcopy => absurd hcopy List.not_mem_nil
  · rw [if_pos (by omega)]
    exact iff_of_true (fun copy hcopy => absurd hcopy List.not_mem_nil)
      fun hmany => absurd hmany hslots

/-- What `admits` promises of the rows. -/
theorem admits_rows (h : admits config kv weights rows = true) :
    rows ≠ [] ∧ rows.length ≤ config.maxPrefillTokens ∧ ∀ r ∈ rows, r.1 < config.nSlots := by
  unfold admits at h
  simp only [Bool.and_eq_true, decide_eq_true_eq, List.all_eq_true, Bool.not_eq_true',
    List.isEmpty_eq_false_iff] at h
  obtain ⟨⟨⟨⟨⟨hempty, hall⟩, hlen⟩, -⟩, -⟩, -⟩ := h
  exact ⟨hempty, hlen, fun r hr => (hall r hr).2⟩

/-- Every copy from the host stays inside its array exactly when a list that is not one
run of one slot has no more rows than the pool has slots. -/
theorem host_copies_inside_iff (config : ScratchConfig) (kv : KvCache)
    (pages : LayerPages config) (weights : AttnWeights) (rows : List (Nat × Nat)) :
    (∀ copy ∈ (standardAttnCopies config kv pages.pool weights rows).copies,
      copy.Inside config) ↔ RowsFit config kv pages.pool weights rows := by
  unfold standardAttnCopies RowsFit
  by_cases hadmits : admits config kv weights rows = true
  · obtain ⟨hempty, hlen, hslots⟩ := admits_rows hadmits
    have hpositions : HostCopy.Inside config ⟨.positionI32, 0, rows.length * 4⟩ := by
      unfold HostCopy.Inside arrayBytes
      dsimp only
      omega
    rw [if_pos hadmits]
    dsimp only
    rw [List.forall_mem_cons, and_iff_right hpositions]
    obtain ⟨⟨slot, start⟩, rest, rfl⟩ := List.exists_cons_of_ne_nil hempty
    have hslot := hslots (slot, start) (List.mem_cons_self ..)
    unfold branchCopies
    dsimp only
    cases hpaged : config.pagedKv with
    | some paged =>
      dsimp only
      cases hshape : (weights.call ((slot, start) :: rest)).prefillShape with
      | true =>
        rw [if_pos rfl]
        refine iff_of_true
          (pagedPrefillCopies_inside hpaged (pages.limit paged hpaged) hslot) ?_
        intro _ hfalse
        cases hfalse
      | false =>
        rw [if_neg (by decide), pagedSlotsCopies_inside hpaged hslots]
        constructor
        · intro h _ _ hmany haccepted
          exact h hmany (haccepted paged rfl)
        · intro h hmany haccepted
          exact h hadmits rfl hmany fun other hother => by cases hother; exact haccepted
    | none =>
      dsimp only
      cases hshape : (weights.call ((slot, start) :: rest)).prefillShape with
      | true =>
        rw [if_pos rfl]
        refine iff_of_true (fun copy hcopy => absurd hcopy List.not_mem_nil) ?_
        intro _ hfalse
        cases hfalse
      | false =>
        rw [if_neg (by decide), batchedCopies_inside]
        constructor
        · intro h _ _ hmany _
          exact h hmany
        · intro h hmany
          exact h hadmits rfl hmany fun other hother => by cases hother
  · rw [if_neg hadmits]
    exact iff_of_true (fun copy hcopy => absurd hcopy List.not_mem_nil)
      fun h => absurd h hadmits

theorem pagedRowCopies_limit (paged : PagedKvCacheConfig) :
    (pagedRowCopies paged rows pages).pages.maxPagesPerSlot = pages.maxPagesPerSlot := by
  induction rows generalizing pages with
  | nil => rfl
  | cons row rest ih =>
    unfold pagedRowCopies
    split
    · rfl
    · split
      · split
        · rfl
        · rename_i hacquire
          exact ih.trans (acquireFor_limit hacquire)
      · exact ih

/-- A call leaves the page pool under its limit. -/
theorem standardAttnCopies_limit (config : ScratchConfig) (kv : KvCache) (pages : PagePool)
    (weights : AttnWeights) (rows : List (Nat × Nat)) :
    (standardAttnCopies config kv pages weights rows).pages.maxPagesPerSlot =
      pages.maxPagesPerSlot := by
  unfold standardAttnCopies
  split
  · dsimp only
    unfold branchCopies
    split
    · rfl
    · split
      · split
        · unfold pagedPrefillCopies
          split
          · rfl
          · split
            · rfl
            · split
              · rename_i hensure
                exact (ensurePagesUpTo_indices hensure).1
              · rename_i hensure
                exact (ensurePagesUpTo_indices hensure).1
        · unfold pagedSlotsCopies
          dsimp only
          split
          · exact pagedRowCopies_limit _
          · split
            · exact pagedRowCopies_limit _
            · exact pagedRowCopies_limit _
      · split
        · rfl
        · unfold batchedCopies
          split <;> rfl
  · rfl

namespace LayerPages

variable {config : ScratchConfig}

/-- The pool that `ScratchPool::new` makes for a layer. -/
def start (config : ScratchConfig) : LayerPages config where
  pool := config.pagedKv.elim (.new 0 0 0) fun paged =>
    .new paged.nPages config.nSlots paged.maxPagesPerSlot
  limit := by
    intro paged hpaged
    rw [hpaged]
    rfl

/-- The pool after a call. -/
def after (pages : LayerPages config) (kv : KvCache) (weights : AttnWeights)
    (rows : List (Nat × Nat)) : LayerPages config where
  pool := (standardAttnCopies config kv pages.pool weights rows).pages
  limit := by
    intro paged hpaged
    rw [standardAttnCopies_limit]
    exact pages.limit paged hpaged

end LayerPages

/-- A pool of two slots for calls of up to eight tokens. -/
def twoSlots : ScratchConfig where
  hidden := 64
  intermediate := 64
  qWidth := 64
  kvWidth := 64
  vocab := 8
  maxSeqLen := 16
  numLayers := 1
  maxExperts := 0
  maxExpertsPerTok := 0
  gdn := none
  perLayerKvWidths := none
  attnQGated := false
  sharedIntermediate := 0
  maxPrefillTokens := 8
  maxSlots := 2
  perLayerEmbd := 0
  pagedKv := none
  kvLayout := .f16Contig
  perLayerKvLayouts := none
  perLayerKvDepths := none

/-- Three tokens over two slots: the pointers of the third are past the arrays' end. -/
theorem third_row_overruns :
    ∃ copy ∈ (standardAttnCopies twoSlots ⟨4096, 64, 128, .f16Contig, 16⟩
      (LayerPages.start twoSlots).pool ⟨1, 1, 64, 0, false, none⟩ [(0, 0), (1, 0), (0, 1)]).copies,
      ¬ copy.Inside twoSlots :=
  ⟨⟨.attnSlotKDstPtrs, 0, 24⟩, by decide, by unfold HostCopy.Inside; decide⟩

end Flambeau.Forward.Attn
