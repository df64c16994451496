import Flambeau.Forward.PagePool
import Flambeau.Systems.Runs

namespace Flambeau.Forward
open Systems

/-- One layer's paged cache and the limits of its pool. -/
structure PagedLayer where
  pageSize : Nat
  nPages : Nat
  maxPagesPerSlot : Nat
  maxSlots : Nat
  maxSeqLen : Nat
  maxPrefillTokens : Nat
  pageSize_pos : 0 < pageSize

/-- The host's page pool and the device's block tables, slot by slot. -/
structure PagedState where
  pool : PagePool
  blockTables : Nat → Nat → Nat

/-- One `standard_attn_local` call: a slot and a position for each row. -/
structure AttnCall where
  rows : List (Nat × Nat)
  vUnitNorm : Bool
  windowSize : Int
  isKvShared : Bool
deriving Repr, DecidableEq

/-- A K/V row of `(slot, position)` that a kernel writes or reads: the table row and
the entry it goes through, and the page it finds there. -/
structure PageAccess where
  slot : Nat
  position : Nat
  tableRow : Nat
  entry : Nat
  page : Nat
deriving Repr, DecidableEq

namespace AttnCall

/-- All rows on one slot, at contiguous positions. -/
def prefillShape (call : AttnCall) : Bool :=
  match call.rows with
  | [] => true
  | (slot, start) :: _ =>
    call.rows.zipIdx.all fun r => r.1.1 == slot && r.1.2 == start + r.2

end AttnCall

namespace PagedLayer

def start (layer : PagedLayer) : PagedState where
  pool := PagePool.new layer.nPages (max layer.maxSlots 1) layer.maxPagesPerSlot
  blockTables _ _ := 0

/-- `block_tables[slot][entry] = page`. -/
def patch (tables : Nat → Nat → Nat) (slot entry page : Nat) : Nat → Nat → Nat :=
  fun s i => if s = slot ∧ i = entry then page else tables s i

def patchAll (tables : Nat → Nat → Nat) (slot : Nat) : List (Nat × Nat) → Nat → Nat → Nat
  | [] => tables
  | (entry, page) :: newPages => patchAll (patch tables slot entry page) slot newPages

/-- What the kernels touch for one row of a batch: the row's own K/V unless it is
shared, then every position up to it. -/
def rowAccesses (layer : PagedLayer) (tables : Nat → Nat → Nat) (isKvShared : Bool)
    (tableRow slot pos : Nat) : List PageAccess :=
  let access (t : Nat) : PageAccess :=
    ⟨slot, t, tableRow, t / layer.pageSize, tables tableRow (t / layer.pageSize)⟩
  (if isKvShared then [] else [access pos]) ++ (List.range (pos + 1)).map access

/-- The single-slot branch. The slot's row of the table is patched with the pages that
`ensure_pages_up_to` returns; an error keeps what it has acquired. -/
def forwardPrefill (layer : PagedLayer) (state : PagedState) (call : AttnCall)
    (slot startPosition : Nat) : PagedState × Option (List PageAccess) :=
  if call.vUnitNorm ∨ 0 < call.windowSize then (state, none)
  else
    let totalKvAfter := startPosition + call.rows.length
    let pagesNeeded := (totalKvAfter + layer.pageSize - 1) / layer.pageSize
    match state.pool.ensurePagesUpTo slot pagesNeeded with
    | (pool, .error _) => ({ state with pool := pool }, none)
    | (pool, .ok newPages) =>
      let tables := patchAll state.blockTables slot newPages
      (⟨pool, tables⟩,
        some (call.rows.flatMap fun r => layer.rowAccesses tables call.isKvShared slot slot r.2))

/-- A row on a page boundary acquires a page for its slot. -/
def acquireRow (layer : PagedLayer) (state : PagedState) (slot pos : Nat) : Option PagedState :=
  if layer.pageSize * layer.maxPagesPerSlot ≤ pos then none
  else if pos % layer.pageSize = 0 then
    (state.pool.acquireFor slot).map fun taken =>
      ⟨taken.2, patch state.blockTables slot (pos / layer.pageSize) taken.1⟩
  else some state

/-- An error keeps the pages and entries of the rows before it. -/
def acquireRows (layer : PagedLayer) : List (Nat × Nat) → PagedState → PagedState × Bool
  | [], state => (state, true)
  | (slot, pos) :: rows, state =>
    match layer.acquireRow state slot pos with
    | none => (state, false)
    | some state => acquireRows layer rows state

/-- The kernels of the multi-slot branch take row `i` of the tables for row `i` of the
batch. The scratch for the positions is there for more than one slot only. -/
def forwardSlots (layer : PagedLayer) (state : PagedState) (call : AttnCall) :
    PagedState × Option (List PageAccess) :=
  match layer.acquireRows call.rows state with
  | (state, false) => (state, none)
  | (state, true) =>
    if layer.maxSlots ≤ 1 then (state, none)
    else
      (state, some (call.rows.zipIdx.flatMap fun r =>
        layer.rowAccesses state.blockTables call.isKvShared r.2 r.1.1 r.1.2))

def valid (layer : PagedLayer) (call : AttnCall) : Bool :=
  !call.rows.isEmpty && call.rows.length ≤ layer.maxPrefillTokens &&
    call.rows.all fun r => r.2 < layer.maxSeqLen && r.1 < max layer.maxSlots 1

/-- `standard_attn_local` on a paged pool; `none` is an error. -/
def forward (layer : PagedLayer) (state : PagedState) (call : AttnCall) :
    PagedState × Option (List PageAccess) :=
  if layer.valid call then
    match call.rows with
    | [] => (state, none)
    | (slot, startPosition) :: _ =>
      if call.prefillShape then layer.forwardPrefill state call slot startPosition
      else layer.forwardSlots state call
  else (state, none)

/-- The entries of the slot's table row are the pages it holds. -/
def Entries (state : PagedState) (slot : Nat) : Prop :=
  ∀ i page, (state.pool.pagesHeldBy slot)[i]? = some page → state.blockTables slot i = page

theorem patch_other (h : s ≠ slot) : patch tables slot entry page s = tables s := by
  funext i
  unfold patch
  rw [if_neg]
  intro heq
  exact h heq.1

theorem patch_self (tables : Nat → Nat → Nat) (slot entry page i : Nat) :
    patch tables slot entry page slot i = if i = entry then page else tables slot i := by
  unfold patch
  by_cases hi : i = entry
  · rw [if_pos ⟨rfl, hi⟩, if_pos hi]
  · rw [if_neg hi, if_neg]
    intro heq
    exact hi heq.2

theorem patchAll_other (h : s ≠ slot) : patchAll tables slot newPages s = tables s := by
  induction newPages generalizing tables with
  | nil => rfl
  | cons new newPages ih =>
    unfold patchAll
    rw [ih, patch_other h]

/-- Patching a run of entries sets those and no other. -/
theorem patchAll_self (tables : Nat → Nat → Nat) (slot : Nat)
    (hidx : newPages.map Prod.fst = List.range' first newPages.length) :
    (∀ i < first, patchAll tables slot newPages slot i = tables slot i) ∧
    ∀ k page, (newPages.map Prod.snd)[k]? = some page →
      patchAll tables slot newPages slot (first + k) = page := by
  induction newPages generalizing tables first with
  | nil => exact ⟨fun _ _ => rfl, fun k page h => by simp at h⟩
  | cons new newPages ih =>
    obtain ⟨entry, page⟩ := new
    simp only [List.map_cons, List.length_cons, List.range'_succ, List.cons.injEq] at hidx
    obtain ⟨hfirst, hrest⟩ := hidx
    subst hfirst
    obtain ⟨hbelow, habove⟩ := @ih _ (patch tables slot entry page) hrest
    unfold patchAll
    constructor
    · intro i hi
      rw [hbelow i (by omega), patch_self, if_neg (by omega)]
    · intro k found hk
      cases k with
      | zero =>
        simp only [List.map_cons, List.getElem?_cons_zero, Option.some.injEq] at hk
        rw [Nat.add_zero, hbelow entry (by omega), patch_self, if_pos rfl, hk]
      | succ k =>
        rw [← Nat.add_assoc, Nat.add_right_comm]
        apply habove
        simpa using hk

/-- The single-slot branch keeps the slot's row in step with its pages. -/
theorem prefill_entries {state : PagedState} (hslot : slot < state.pool.perSlotHeld.length)
    (hent : Entries state slot)
    (h : state.pool.ensurePagesUpTo slot target = (pool, .ok newPages)) :
    Entries ⟨pool, patchAll state.blockTables slot newPages⟩ slot := by
  obtain ⟨-, hok⟩ := PagePool.ensurePagesUpTo_grows hslot h
  obtain ⟨hheld, hidx, -⟩ := hok newPages rfl
  obtain ⟨hbelow, habove⟩ := patchAll_self state.blockTables slot hidx
  intro i page hpage
  simp only [hheld] at hpage
  by_cases hi : i < (state.pool.pagesHeldBy slot).length
  · rw [List.getElem?_append_left hi] at hpage
    simp only
    rw [hbelow i hi, hent i page hpage]
  · rw [List.getElem?_append_right (by omega)] at hpage
    have hset := habove _ page hpage
    rwa [Nat.add_sub_cancel' (by omega)] at hset

/-- A row finds its slot with the pages up to its position: all of those before it on
a boundary, its own page elsewhere. -/
def RowReady (layer : PagedLayer) (state : PagedState) (slot pos : Nat) : Prop :=
  if pos % layer.pageSize = 0 then (state.pool.pagesHeldBy slot).length = pos / layer.pageSize
  else pos / layer.pageSize < (state.pool.pagesHeldBy slot).length

/-- Every row is ready when its turn comes. -/
def RowsReady (layer : PagedLayer) : List (Nat × Nat) → PagedState → Prop
  | [], _ => True
  | (slot, pos) :: rows, state =>
    RowReady layer state slot pos ∧
    match layer.acquireRow state slot pos with
    | none => True
    | some state => RowsReady layer rows state

instance (layer : PagedLayer) (state : PagedState) (slot pos : Nat) :
    Decidable (RowReady layer state slot pos) :=
  inferInstanceAs (Decidable (if pos % layer.pageSize = 0
    then (state.pool.pagesHeldBy slot).length = pos / layer.pageSize
    else pos / layer.pageSize < (state.pool.pagesHeldBy slot).length))

instance decidableRowsReady (layer : PagedLayer) :
    (rows : List (Nat × Nat)) → (state : PagedState) → Decidable (RowsReady layer rows state)
  | [], _ => isTrue trivial
  | (slot, pos) :: rows, state =>
    match h : layer.acquireRow state slot pos with
    | none => decidable_of_iff (RowReady layer state slot pos) (by simp [RowsReady, h])
    | some next =>
      have := decidableRowsReady layer rows next
      decidable_of_iff (RowReady layer state slot pos ∧ RowsReady layer rows next)
        (by simp [RowsReady, h])

/-- What handing out pages keeps. -/
structure Keeps (state state' : PagedState) : Prop where
  slots : state'.pool.perSlotHeld.length = state.pool.perSlotHeld.length
  pages : state'.pool.pages.Perm state.pool.pages
  held : ∀ s, (state.pool.pagesHeldBy s).length ≤ (state'.pool.pagesHeldBy s).length

theorem Keeps.refl (state : PagedState) : Keeps state state :=
  ⟨rfl, .refl _, fun _ => Nat.le_refl _⟩

theorem Keeps.trans (h : Keeps state mid) (h' : Keeps mid state') : Keeps state state' := by
  refine ⟨h'.slots.trans h.slots, h'.pages.trans h.pages, ?_⟩
  intro s
  exact Nat.le_trans (h.held s) (h'.held s)

theorem acquireRow_keeps {layer : PagedLayer} {state state' : PagedState}
    (hslot : slot < state.pool.perSlotHeld.length)
    (h : layer.acquireRow state slot pos = some state') :
    Keeps state state' := by
  unfold acquireRow at h
  split at h
  case isTrue => cases h
  case isFalse =>
    split at h
    case isFalse =>
      cases h
      exact .refl _
    case isTrue =>
      obtain ⟨taken, htake, hstate⟩ := Option.map_eq_some_iff.mp h
      subst hstate
      obtain ⟨hgrows, hheld⟩ := PagePool.acquireFor_grows hslot htake
      refine ⟨hgrows.slots, hgrows.pages, ?_⟩
      intro s
      by_cases hs : s = slot
      · subst hs
        simp [hheld]
      · exact Nat.le_of_eq (by rw [hgrows.others s hs])

/-- A ready row keeps every table row in step, and has its page afterwards. -/
theorem acquireRow_entries {layer : PagedLayer} {state state' : PagedState}
    (hslot : slot < state.pool.perSlotHeld.length) (hready : RowReady layer state slot pos)
    (h : layer.acquireRow state slot pos = some state') :
    (∀ s, Entries state s → Entries state' s) ∧
      pos / layer.pageSize < (state'.pool.pagesHeldBy slot).length := by
  unfold acquireRow at h
  unfold RowReady at hready
  split at h
  case isTrue => cases h
  case isFalse =>
    split at h
    case isFalse hoff =>
      rw [if_neg hoff] at hready
      cases h
      exact ⟨fun _ hs => hs, hready⟩
    case isTrue hon =>
      rw [if_pos hon] at hready
      obtain ⟨taken, htake, hstate⟩ := Option.map_eq_some_iff.mp h
      subst hstate
      obtain ⟨hgrows, hheld⟩ := PagePool.acquireFor_grows hslot htake
      refine ⟨?_, by simp [hheld, hready]⟩
      intro s hent i page hpage
      by_cases hs : s = slot
      · subst hs
        simp only [hheld] at hpage
        simp only [← hready]
        rw [patch_self]
        by_cases hi : i = (state.pool.pagesHeldBy s).length
        · rw [if_pos hi]
          subst hi
          simpa using hpage
        · rw [if_neg hi]
          apply hent
          have hlt := (List.getElem?_eq_some_iff.mp hpage).1
          rw [List.length_append, List.length_singleton] at hlt
          rw [← hpage, List.getElem?_append_left (by omega)]
      · simp only [hgrows.others s hs] at hpage
        simp only [patch_other hs]
        exact hent i page hpage

theorem acquireRows_keeps {layer : PagedLayer} {state state' : PagedState} {rows : List (Nat × Nat)}
    (hslots : ∀ r ∈ rows, r.1 < state.pool.perSlotHeld.length)
    (h : layer.acquireRows rows state = (state', ok)) : Keeps state state' := by
  induction rows generalizing state with
  | nil =>
    cases h
    exact .refl _
  | cons row rows ih =>
    obtain ⟨slot, pos⟩ := row
    unfold acquireRows at h
    cases hrow : layer.acquireRow state slot pos with
    | none =>
      simp only [hrow] at h
      cases h
      exact .refl _
    | some mid =>
      simp only [hrow] at h
      have hkeeps := acquireRow_keeps (hslots (slot, pos) (by simp)) hrow
      apply hkeeps.trans
      apply ih _ h
      intro r hr
      rw [hkeeps.slots]
      exact hslots r (by simp [hr])

/-- Ready rows keep every table row in step, and each has its page afterwards. -/
theorem acquireRows_entries {layer : PagedLayer} {state state' : PagedState}
    {rows : List (Nat × Nat)} (hslots : ∀ r ∈ rows, r.1 < state.pool.perSlotHeld.length)
    (hready : RowsReady layer rows state) (h : layer.acquireRows rows state = (state', ok)) :
    (∀ s, Entries state s → Entries state' s) ∧
      (ok = true → ∀ r ∈ rows, r.2 / layer.pageSize < (state'.pool.pagesHeldBy r.1).length) := by
  induction rows generalizing state with
  | nil =>
    cases h
    exact ⟨fun _ hs => hs, fun _ r hr => by simp at hr⟩
  | cons row rows ih =>
    obtain ⟨slot, pos⟩ := row
    unfold acquireRows at h
    unfold RowsReady at hready
    cases hrow : layer.acquireRow state slot pos with
    | none =>
      simp only [hrow] at h
      cases h
      exact ⟨fun _ hs => hs, fun hok => by cases hok⟩
    | some mid =>
      simp only [hrow] at h hready
      have hkeeps := acquireRow_keeps (hslots (slot, pos) (by simp)) hrow
      obtain ⟨hent, hpage⟩ := acquireRow_entries (hslots (slot, pos) (by simp)) hready.1 hrow
      have hslots' : ∀ r ∈ rows, r.1 < mid.pool.perSlotHeld.length := by
        intro r hr
        rw [hkeeps.slots]
        exact hslots r (by simp [hr])
      obtain ⟨hent', hpages⟩ := ih hslots' hready.2 h
      refine ⟨fun s hs => hent' s (hent s hs), ?_⟩
      intro hok r hr
      cases List.mem_cons.mp hr with
      | inl heq =>
        subst heq
        exact Nat.lt_of_lt_of_le hpage ((acquireRows_keeps hslots' h).held slot)
      | inr hr => exact hpages hok r hr

end PagedLayer

/-- A history of a layer's pool: `torn` are the slots whose pages a single-slot forward
kept when it ran out, until they are released. -/
structure PagedHistory where
  state : PagedState
  torn : Nat → Bool

inductive PagedAction where
  | forward (call : AttnCall)
  | releaseSlot (slot : Nat)

namespace PagedLayer

/-- The slots a forward leaves with pages that it kept and did not enter. -/
def tears (layer : PagedLayer) (state : PagedState) (call : AttnCall) (slot : Nat) : Bool :=
  let (state', result) := layer.forward state call
  call.prefillShape && result.isNone &&
    (state'.pool.pagesHeldBy slot).length != (state.pool.pagesHeldBy slot).length

/-- `Command::ReleasePagedSlot` panics on a slot out of bounds. -/
def history (layer : PagedLayer) : System PagedHistory PagedAction where
  init h := h = ⟨layer.start, fun _ => false⟩
  step h
    | .forward call =>
      some ⟨(layer.forward h.state call).1, fun s => h.torn s || layer.tears h.state call s⟩
    | .releaseSlot slot =>
      if slot < h.state.pool.perSlotHeld.length then
        some ⟨{ h.state with pool := h.state.pool.releaseSlot slot },
          fun s => if s = slot then false else h.torn s⟩
      else none

/-- No torn slot is used, and the rows of a multi-slot batch are ready. -/
def Careful (layer : PagedLayer) (h : PagedHistory) : PagedAction → Prop
  | .releaseSlot _ => True
  | .forward call =>
    layer.valid call = true →
      (∀ r ∈ call.rows, h.torn r.1 = false) ∧
      (call.prefillShape = false → RowsReady layer call.rows h.state)

instance (layer : PagedLayer) (h : PagedHistory) : (a : PagedAction) → Decidable (Careful layer h a)
  | .releaseSlot _ => isTrue trivial
  | .forward call =>
    inferInstanceAs (Decidable (layer.valid call = true →
      (∀ r ∈ call.rows, h.torn r.1 = false) ∧
      (call.prefillShape = false → RowsReady layer call.rows h.state)))

structure Inv (layer : PagedLayer) (h : PagedHistory) : Prop where
  slots : h.state.pool.perSlotHeld.length = max layer.maxSlots 1
  once : h.state.pool.pages.Nodup
  entries : ∀ s, h.torn s = false → Entries h.state s

theorem inv_start (layer : PagedLayer) : Inv layer ⟨layer.start, fun _ => false⟩ := by
  refine ⟨?_, PagePool.new_pages_nodup _ _ _, ?_⟩
  · simp [start, PagePool.new]
  · intro s _ i page hpage
    have hnone : (layer.start.pool.pagesHeldBy s) = [] := by
      unfold start PagePool.new PagePool.pagesHeldBy
      simp only [List.getD_eq_getElem?_getD, List.getElem?_replicate]
      split <;> rfl
    simp [hnone] at hpage

/-- The forward's branch, with what `valid` has checked. -/
theorem forward_cases {layer : PagedLayer} {state after : PagedState} {call : AttnCall}
    (h : layer.forward state call = (after, result)) :
    (after = state ∧ result = none) ∨
    (layer.valid call = true ∧ ∃ slot pos rows, call.rows = (slot, pos) :: rows ∧
      (∀ r ∈ call.rows, r.1 < max layer.maxSlots 1) ∧
      ((call.prefillShape = true ∧ layer.forwardPrefill state call slot pos = (after, result)) ∨
        (call.prefillShape = false ∧ layer.forwardSlots state call = (after, result)))) := by
  unfold forward at h
  split at h
  case isFalse =>
    cases h
    exact .inl ⟨rfl, rfl⟩
  case isTrue hvalid =>
    have hslots : ∀ r ∈ call.rows, r.1 < max layer.maxSlots 1 := by
      intro r hr
      simp only [valid, Bool.and_eq_true, List.all_eq_true, decide_eq_true_eq] at hvalid
      exact (hvalid.2 r hr).2
    split at h
    case h_1 =>
      cases h
      exact .inl ⟨rfl, rfl⟩
    case h_2 slot pos rows hrows =>
      refine .inr ⟨hvalid, slot, pos, rows, hrows, hslots, ?_⟩
      split at h
      case isTrue hshape => exact .inl ⟨hshape, h⟩
      case isFalse hshape => exact .inr ⟨by simpa using hshape, h⟩

theorem keeps_of_grows {state : PagedState} (h : PagePool.Grows state.pool slot pool)
    (tables : Nat → Nat → Nat) : Keeps state ⟨pool, tables⟩ := by
  refine ⟨h.slots, h.pages, ?_⟩
  intro s
  by_cases hs : s = slot
  · subst hs
    exact h.own.length_le
  · simp only [h.others s hs]
    exact Nat.le_refl _

/-- The single-slot branch runs out, or patches the slot's row. -/
theorem forwardPrefill_cases {layer : PagedLayer} {state after : PagedState} {call : AttnCall}
    (hslot : slot < state.pool.perSlotHeld.length)
    (h : layer.forwardPrefill state call slot pos = (after, result)) :
    Keeps state after ∧ (∀ s, s ≠ slot → Entries state s → Entries after s) ∧
    (result = none → Entries state slot →
      (after.pool.pagesHeldBy slot).length = (state.pool.pagesHeldBy slot).length →
      Entries after slot) ∧
    ∀ accesses, result = some accesses →
      (Entries state slot → Entries after slot) ∧
      (pos + call.rows.length + layer.pageSize - 1) / layer.pageSize ≤
        (after.pool.pagesHeldBy slot).length ∧
      accesses = call.rows.flatMap fun r =>
        layer.rowAccesses after.blockTables call.isKvShared slot slot r.2 := by
  unfold forwardPrefill at h
  split at h
  case isTrue =>
    cases h
    exact ⟨.refl _, fun _ _ hs => hs, fun _ hs _ => hs, fun _ hr => by cases hr⟩
  case isFalse =>
    simp only at h
    split at h
    case h_1 pool held hensure =>
      cases h
      obtain ⟨hgrows, -⟩ := PagePool.ensurePagesUpTo_grows hslot hensure
      refine ⟨keeps_of_grows hgrows _, ?_, ?_, fun _ hr => by cases hr⟩
      · intro s hs hent i page hpage
        simp only [hgrows.others s hs] at hpage
        exact hent i page hpage
      · intro _ hent hlen i page hpage
        have hsame := hgrows.own.eq_of_length hlen.symm
        simp only [← hsame] at hpage
        exact hent i page hpage
    case h_2 pool newPages hensure =>
      cases h
      obtain ⟨hgrows, hok⟩ := PagePool.ensurePagesUpTo_grows hslot hensure
      refine ⟨keeps_of_grows hgrows _, ?_, nofun, ?_⟩
      · intro s hs hent i page hpage
        simp only [hgrows.others s hs] at hpage
        simp only [patchAll_other hs]
        exact hent i page hpage
      · intro accesses hr
        cases hr
        exact ⟨fun hent => prefill_entries hslot hent hensure, (hok newPages rfl).2.2, rfl⟩

theorem forwardSlots_cases {layer : PagedLayer} {state after : PagedState} {call : AttnCall}
    (h : layer.forwardSlots state call = (after, result)) :
    ∃ ok, layer.acquireRows call.rows state = (after, ok) ∧
      ∀ accesses, result = some accesses → ok = true ∧
        accesses = call.rows.zipIdx.flatMap fun r =>
          layer.rowAccesses after.blockTables call.isKvShared r.2 r.1.1 r.1.2 := by
  unfold forwardSlots at h
  split at h
  case h_1 hrows =>
    cases h
    exact ⟨false, hrows, fun _ hr => by cases hr⟩
  case h_2 hrows =>
    split at h
    case isTrue =>
      cases h
      exact ⟨true, hrows, fun _ hr => by cases hr⟩
    case isFalse =>
      cases h
      refine ⟨true, hrows, ?_⟩
      intro accesses hr
      cases hr
      exact ⟨rfl, rfl⟩

/-- One forward keeps the invariant when it is careful. -/
theorem inv_forward {layer : PagedLayer} {hist : PagedHistory} {call : AttnCall}
    (hinv : Inv layer hist) (hcare : Careful layer hist (.forward call)) :
    Inv layer ⟨(layer.forward hist.state call).1,
      fun s => hist.torn s || layer.tears hist.state call s⟩ := by
  cases hf : layer.forward hist.state call with
  | mk after result =>
    obtain hsame | ⟨hvalid, slot, pos, rows, hrows, hslots, hcases⟩ := forward_cases hf
    · obtain ⟨hsame, hnone⟩ := hsame
      subst hsame
      refine ⟨hinv.slots, hinv.once, ?_⟩
      intro s hs
      simp only [Bool.or_eq_false_iff] at hs
      exact hinv.entries s hs.1
    · obtain ⟨hlive, hready⟩ := hcare hvalid
      have hbound : ∀ r ∈ call.rows, r.1 < hist.state.pool.perSlotHeld.length := by
        rw [hinv.slots]
        exact hslots
      have hmem : (slot, pos) ∈ call.rows := by simp [hrows]
      obtain ⟨hshape, hbranch⟩ | ⟨hshape, hbranch⟩ := hcases
      · obtain ⟨hkeeps, hothers, herr, hok⟩ := forwardPrefill_cases (hbound _ hmem) hbranch
        refine ⟨hkeeps.slots.trans hinv.slots, hkeeps.pages.nodup_iff.mpr hinv.once, ?_⟩
        intro s hs
        simp only [Bool.or_eq_false_iff] at hs
        obtain ⟨hlive', htears⟩ := hs
        by_cases heq : s = slot
        · subst heq
          cases result with
          | none =>
            apply herr rfl (hinv.entries s hlive')
            simpa [tears, hf, hshape] using htears
          | some accesses => exact (hok accesses rfl).1 (hinv.entries s hlive')
        · exact hothers s heq (hinv.entries s hlive')
      · obtain ⟨ok, hacquire, -⟩ := forwardSlots_cases hbranch
        have hkeeps := acquireRows_keeps hbound hacquire
        obtain ⟨hent, -⟩ := acquireRows_entries hbound (hready hshape) hacquire
        refine ⟨hkeeps.slots.trans hinv.slots, hkeeps.pages.nodup_iff.mpr hinv.once, ?_⟩
        intro s hs
        simp only [Bool.or_eq_false_iff] at hs
        exact hent s (hinv.entries s hs.1)

theorem inv_release {layer : PagedLayer} {hist : PagedHistory}
    (hinv : Inv layer hist) (hslot : slot < hist.state.pool.perSlotHeld.length) :
    Inv layer ⟨{ hist.state with pool := hist.state.pool.releaseSlot slot },
      fun s => if s = slot then false else hist.torn s⟩ := by
  refine ⟨?_, (PagePool.releaseSlot_pages hslot).nodup_iff.mpr hinv.once, ?_⟩
  · simpa [PagePool.releaseSlot] using hinv.slots
  · intro s hs i page hpage
    by_cases heq : s = slot
    · subst heq
      simp [PagePool.releaseSlot_self] at hpage
    · simp only [PagePool.releaseSlot_others _ heq] at hpage
      simp only [if_neg heq] at hs
      exact hinv.entries s hs i page hpage

theorem run_inv {layer : PagedLayer} (h : layer.history.Run (Careful layer) hist) :
    Inv layer hist := by
  apply System.Run.invariant _ _ h
  · intro hist hinit
    cases hinit
    exact inv_start layer
  · intro hist action hist' hinv hcare hstep
    cases action with
    | forward call =>
      cases hstep
      exact inv_forward hinv hcare
    | releaseSlot slot =>
      simp only [history] at hstep
      split at hstep
      case isTrue hslot =>
        cases hstep
        exact inv_release hinv hslot
      case isFalse => cases hstep

theorem mem_rowAccesses {layer : PagedLayer}
    (h : a ∈ layer.rowAccesses tables shared tableRow slot pos) :
    a.slot = slot ∧ a.position ≤ pos ∧ a.entry = a.position / layer.pageSize ∧
      a.tableRow = tableRow ∧ a.page = tables tableRow a.entry := by
  unfold rowAccesses at h
  cases List.mem_append.mp h with
  | inl hown =>
    split at hown
    · simp at hown
    · simp only [List.mem_singleton] at hown
      subst hown
      exact ⟨rfl, Nat.le_refl _, rfl, rfl, rfl⟩
  | inr hread =>
    obtain ⟨t, ht, heq⟩ := List.mem_map.mp hread
    subst heq
    exact ⟨rfl, Nat.le_of_lt_succ (List.mem_range.mp ht), rfl, rfl, rfl⟩

/-- The entry for the position is a page the slot holds at that index. -/
def EntryHeld (state : PagedState) (a : PageAccess) : Prop :=
  (state.pool.pagesHeldBy a.slot)[a.entry]? = some (state.blockTables a.slot a.entry)

theorem entryHeld_of {state : PagedState} {a : PageAccess} (hent : Entries state a.slot)
    (hlt : a.entry < (state.pool.pagesHeldBy a.slot).length) : EntryHeld state a := by
  unfold EntryHeld
  rw [List.getElem?_eq_getElem hlt, Option.some.injEq]
  exact (hent _ _ (List.getElem?_eq_getElem hlt)).symm

/-- Row `i` of a multi-slot batch is for slot `i`. -/
def InSlotOrder (call : AttnCall) : Prop :=
  call.prefillShape = true ∨ ∀ r ∈ call.rows.zipIdx, r.1.1 = r.2

theorem prefill_rows {call : AttnCall} (hshape : call.prefillShape = true)
    (hrows : call.rows = (slot, pos) :: rows) (hr : r ∈ call.rows) :
    r.1 = slot ∧ r.2 < pos + call.rows.length := by
  unfold AttnCall.prefillShape at hshape
  rw [hrows] at hshape hr ⊢
  obtain ⟨i, hi, hget⟩ := List.getElem_of_mem hr
  have hall := List.all_eq_true.mp hshape (r, i) (by
    rw [List.mem_zipIdx_iff_getElem?]
    rw [List.getElem?_eq_getElem hi, hget])
  simp only [Bool.and_eq_true, beq_iff_eq] at hall
  exact ⟨hall.1, by omega⟩

/-- A position below a count is on a page that the count needs. -/
theorem page_needed (hsize : 0 < size) (ht : t < total) :
    t / size < (total + size - 1) / size := by
  rw [Nat.div_lt_iff_lt_mul hsize]
  have hup := Nat.lt_div_mul_add (a := total + size - 1) hsize
  omega

/-- In every history of careful steps no page is held twice, and a careful forward goes
through entries that are the pages its slots hold; the kernels find those pages when
the rows of a batch are in slot order. -/
theorem mapping_sound {layer : PagedLayer} (h : layer.history.Run (Careful layer) hist) :
    hist.state.pool.perSlotHeld.flatten.Nodup ∧
    ∀ call after accesses, Careful layer hist (.forward call) →
      layer.forward hist.state call = (after, some accesses) →
      after.pool.perSlotHeld.flatten.Nodup ∧ ∀ a ∈ accesses,
        a.entry = a.position / layer.pageSize ∧ EntryHeld after a ∧
        (InSlotOrder call → a.page = after.blockTables a.slot a.entry) := by
  have hinv := run_inv h
  refine ⟨(List.nodup_append.mp hinv.once).2.1, ?_⟩
  intro call after accesses hcare hf
  have hafter : Inv layer ⟨after, fun s => hist.torn s || layer.tears hist.state call s⟩ := by
    have hkept := inv_forward hinv hcare
    rwa [hf] at hkept
  refine ⟨(List.nodup_append.mp hafter.once).2.1, ?_⟩
  intro a ha
  obtain ⟨-, hnone⟩ | ⟨hvalid, slot, pos, rows, hrows, hslots, hcases⟩ := forward_cases hf
  · cases hnone
  · obtain ⟨hlive, hready⟩ := hcare hvalid
    have hbound : ∀ r ∈ call.rows, r.1 < hist.state.pool.perSlotHeld.length := by
      rw [hinv.slots]
      exact hslots
    have hmem : (slot, pos) ∈ call.rows := by simp [hrows]
    obtain ⟨hshape, hbranch⟩ | ⟨hshape, hbranch⟩ := hcases
    · obtain ⟨-, -, -, hok⟩ := forwardPrefill_cases (hbound _ hmem) hbranch
      obtain ⟨hent, hneeded, haccesses⟩ := hok accesses rfl
      rw [haccesses] at ha
      obtain ⟨r, hr, har⟩ := List.mem_flatMap.mp ha
      obtain ⟨haslot, hapos, haentry, -, hapage⟩ := mem_rowAccesses har
      obtain ⟨-, hrpos⟩ := prefill_rows hshape hrows hr
      have hpage := page_needed layer.pageSize_pos (Nat.lt_of_le_of_lt hapos hrpos)
      refine ⟨haentry, ?_, ?_⟩
      · apply entryHeld_of
        · rw [haslot]
          exact hent (hinv.entries slot (hlive _ hmem))
        · rw [haslot, haentry]
          omega
      · intro _
        rw [hapage, haslot]
    · obtain ⟨ok, hacquire, hok⟩ := forwardSlots_cases hbranch
      obtain ⟨htrue, haccesses⟩ := hok accesses rfl
      obtain ⟨hent, hpages⟩ := acquireRows_entries hbound (hready hshape) hacquire
      rw [haccesses] at ha
      obtain ⟨⟨r, i⟩, hr, har⟩ := List.mem_flatMap.mp ha
      obtain ⟨haslot, hapos, haentry, -, hapage⟩ := mem_rowAccesses har
      have hrow : r ∈ call.rows := List.mem_of_getElem? (List.mem_zipIdx_iff_getElem?.mp hr)
      have hpage := Nat.div_le_div_right (c := layer.pageSize) hapos
      have hheld := hpages htrue r hrow
      refine ⟨haentry, ?_, ?_⟩
      · apply entryHeld_of
        · rw [haslot]
          exact hent r.1 (hinv.entries r.1 (hlive r hrow))
        · rw [haslot, haentry]
          exact Nat.lt_of_le_of_lt hpage hheld
      · intro horder
        cases horder with
        | inl hprefill =>
          rw [hprefill] at hshape
          cases hshape
        | inr horder =>
          rw [hapage, haslot, horder _ hr]

/-- Two slots over pages of 16. -/
def twoSlots (nPages : Nat) : PagedLayer := ⟨16, nPages, 4, 2, 64, 32, by decide⟩

/-- A prefill of a slot from position 0. -/
def prompt (slot len : Nat) : AttnCall :=
  ⟨(List.range len).map fun p => (slot, p), false, 0, false⟩

def decodePair (pos₀ pos₁ : Nat) : AttnCall := ⟨[(0, pos₀), (1, pos₁)], false, 0, false⟩

/-- A prompt of 17 on one slot, one of 16 on the other, and a token for both. -/
theorem pair_mapping_sound :
    ∃ hist after accesses,
      (twoSlots 8).history.Run (Careful (twoSlots 8)) hist ∧
      (twoSlots 8).forward hist.state (decodePair 17 16) = (after, some accesses) ∧
      hist.state.pool.perSlotHeld.flatten.Nodup ∧
      ∀ a ∈ accesses, EntryHeld after a ∧ a.page = after.blockTables a.slot a.entry := by
  have hfirst : Careful (twoSlots 8) ⟨(twoSlots 8).start, fun _ => false⟩
      (.forward (prompt 0 17)) := by decide
  have hrun := System.Run.step (M := (twoSlots 8).history) (.init rfl) hfirst rfl
  have hsecond := System.Run.step (a := .forward (prompt 1 16)) hrun (by decide) rfl
  have hsound := mapping_sound hsecond
  refine ⟨_, _, _, hsecond, rfl, hsound.1, ?_⟩
  intro a ha
  obtain ⟨-, hheld, hpage⟩ := (hsound.2 (decodePair 17 16) _ _ (by decide) rfl).2 a ha
  exact ⟨hheld, hpage (.inr (by decide))⟩

/-- Two pages, one of them with slot 1: the prompt of 17 on slot 0 keeps the other one
and fails; once slot 1 is released it is retried, and goes through an entry that was
never written. -/
theorem retried_forward_misses :
    ∃ hist after accesses,
      (twoSlots 2).history.runFrom ⟨(twoSlots 2).start, fun _ => false⟩
        [.forward (prompt 1 1), .forward (prompt 0 17), .releaseSlot 1] = some hist ∧
      (twoSlots 2).forward hist.state (prompt 0 17) = (after, some accesses) ∧
      after.pool.pagesHeldBy 0 = [1, 0] ∧
      ∃ a ∈ accesses, a.slot = 0 ∧ a.position = 0 ∧ a.page = 0 ∧ ¬ EntryHeld after a := by
  refine ⟨_, _, _, rfl, rfl, rfl, ⟨0, 0, 0, 0, 0⟩, by decide, rfl, rfl, rfl, ?_⟩
  unfold EntryHeld
  decide

end PagedLayer

end Flambeau.Forward
