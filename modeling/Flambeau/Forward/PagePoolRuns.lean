import Flambeau.Systems.Words
import Flambeau.Forward.Scratch

namespace Flambeau.Forward

inductive BudgetPanic where
  | pageSize
  | arithmeticOverflow
deriving DecidableEq

namespace PagedKvCacheConfig
open Systems

/-- `from_vram_budget` on words, build by build. -/
def fromVramBudgetWords (o : Overflow) (perLayerBudgetBytes pageSize kvWidth maxSlots maxPagesPerSlot : Nat) :
    Outcome Empty BudgetPanic PagedKvCacheConfig :=
  if ¬ (0 < pageSize ∧ pageSize &&& (pageSize - 1) = 0) then .fault .pageSize
  else do
    let tableEntries ← o.word .arithmeticOverflow (maxSlots * maxPagesPerSlot)
    let tableBytes ← o.word .arithmeticOverflow (tableEntries * 4)
    let lensBytes ← o.word .arithmeticOverflow (maxSlots * 4)
    let overhead ← o.word .arithmeticOverflow (tableBytes + lensBytes)
    let usable := perLayerBudgetBytes - overhead
    let pageElems ← o.word .arithmeticOverflow (2 * pageSize)
    let pairElems ← o.word .arithmeticOverflow (pageElems * kvWidth)
    let bytesPerPagePair ← o.word .arithmeticOverflow (pairElems * 2)
    let fromBudget := if bytesPerPagePair = 0 then 0 else usable / bytesPerPagePair
    let minPages ← o.word .arithmeticOverflow (maxSlots * maxPagesPerSlot)
    .ok ⟨pageSize, max fromBudget minPages, maxPagesPerSlot⟩

variable {o : Overflow} {perLayerBudgetBytes pageSize kvWidth maxSlots maxPagesPerSlot : Nat} {cfg : PagedKvCacheConfig}

/-- The pages are no fewer than the word that the tables' entries make. -/
theorem fromVramBudgetWords_pages
    (h : fromVramBudgetWords o perLayerBudgetBytes pageSize kvWidth maxSlots maxPagesPerSlot = .ok cfg) :
    cfg.maxPagesPerSlot = maxPagesPerSlot ∧
      (maxSlots * maxPagesPerSlot < 2 ^ 64 → maxSlots * maxPagesPerSlot ≤ cfg.nPages) := by
  unfold fromVramBudgetWords at h
  split at h
  · cases h
  obtain ⟨_, -, h⟩ := Outcome.bind_eq_ok.mp h
  obtain ⟨_, -, h⟩ := Outcome.bind_eq_ok.mp h
  obtain ⟨_, -, h⟩ := Outcome.bind_eq_ok.mp h
  obtain ⟨_, -, h⟩ := Outcome.bind_eq_ok.mp h
  obtain ⟨_, -, h⟩ := Outcome.bind_eq_ok.mp h
  obtain ⟨_, -, h⟩ := Outcome.bind_eq_ok.mp h
  obtain ⟨_, -, h⟩ := Outcome.bind_eq_ok.mp h
  obtain ⟨minPages, hmin, h⟩ := Outcome.bind_eq_ok.mp h
  cases h
  refine ⟨rfl, fun hfits => ?_⟩
  rw [Overflow.word_fits _ _ hfits] at hmin
  cases hmin
  exact Nat.le_max_right _ _

theorem word_exact {fault : BudgetPanic} (h : (Overflow.panics.word fault n : Outcome Empty BudgetPanic Nat) = .ok m) :
    m = n := by
  unfold Overflow.word at h
  split at h
  · cases h
    rfl
  · cases h

/-- A build with overflow checks has the exact count or none. -/
theorem fromVramBudgetWords_panics
    (h : fromVramBudgetWords .panics perLayerBudgetBytes pageSize kvWidth maxSlots maxPagesPerSlot = .ok cfg) :
    cfg = fromVramBudget perLayerBudgetBytes pageSize kvWidth maxSlots maxPagesPerSlot := by
  unfold fromVramBudgetWords at h
  split at h
  · cases h
  obtain ⟨_, h₁, h⟩ := Outcome.bind_eq_ok.mp h
  obtain ⟨_, h₂, h⟩ := Outcome.bind_eq_ok.mp h
  obtain ⟨_, h₃, h⟩ := Outcome.bind_eq_ok.mp h
  obtain ⟨_, h₄, h⟩ := Outcome.bind_eq_ok.mp h
  obtain ⟨_, h₅, h⟩ := Outcome.bind_eq_ok.mp h
  obtain ⟨_, h₆, h⟩ := Outcome.bind_eq_ok.mp h
  obtain ⟨_, h₇, h⟩ := Outcome.bind_eq_ok.mp h
  obtain ⟨_, h₈, h⟩ := Outcome.bind_eq_ok.mp h
  cases h
  rw [word_exact h₈, word_exact h₇, word_exact h₆, word_exact h₅, word_exact h₄, word_exact h₃, word_exact h₂,
    word_exact h₁]
  unfold fromVramBudget
  congr 2
  split
  · rename_i hzero
    rw [hzero, Nat.div_zero]
  · rfl

end PagedKvCacheConfig

namespace PagePool

/-- A call that changes the pool. -/
inductive Call where
  | acquireFor (slot : Nat)
  | ensurePagesUpTo (slot targetPageCount : Nat)
  | releaseSlot (slot : Nat)
deriving DecidableEq

def Call.slot : Call → Nat
  | acquireFor slot => slot
  | ensurePagesUpTo slot _ => slot
  | releaseSlot slot => slot

/-- The pool after a call, whether it succeeds or not. -/
def step (pool : PagePool) : Call → PagePool
  | .acquireFor slot => ((pool.acquireFor slot).map (·.2)).getD pool
  | .ensurePagesUpTo slot target => (pool.ensurePagesUpTo slot target).1
  | .releaseSlot slot => pool.releaseSlot slot

def run (pool : PagePool) (calls : List Call) : PagePool := calls.foldl step pool

/-- A pool of these sizes that has lost no page and given no slot too many. -/
structure Sound (pages maxSlots limit : Nat) (pool : PagePool) : Prop where
  slots : pool.perSlotHeld.length = maxSlots
  cap : pool.maxPagesPerSlot = limit
  conserved : pool.pages.Perm (List.range pages)
  held : ∀ slot, (pool.pagesHeldBy slot).length ≤ limit

section Sound
variable {pool pool' : PagePool} {nPages maxSlots limit slot : Nat}

theorem take_cap (h : pool.take slot = some (page, pool')) : pool'.maxPagesPerSlot = pool.maxPagesPerSlot := by
  unfold take at h
  split at h
  · cases h
  · cases h
    rfl

/-- Whatever becomes of it, a row of acquisitions keeps the cap and adds no more than asked. -/
theorem acquireAll_adds (hslot : slot < pool.perSlotHeld.length) (count pageIdx : Nat) :
    (acquireAll slot count pageIdx pool).1.maxPagesPerSlot = pool.maxPagesPerSlot ∧
      ((acquireAll slot count pageIdx pool).1.pagesHeldBy slot).length ≤ (pool.pagesHeldBy slot).length + count := by
  induction count generalizing pool pageIdx with
  | zero => exact ⟨rfl, Nat.le_refl _⟩
  | succ count ih =>
    unfold acquireAll
    cases htake : pool.take slot with
    | none => exact ⟨rfl, Nat.le_add_right _ _⟩
    | some taken =>
      obtain ⟨page, mid⟩ := taken
      obtain ⟨hgrows, hheld⟩ := take_grows hslot htake
      obtain ⟨hcap, hlen⟩ := ih (hgrows.slots.symm ▸ hslot) (pageIdx + 1)
      have hend : (acquireAll slot count (pageIdx + 1) mid).1.maxPagesPerSlot = pool.maxPagesPerSlot ∧
          ((acquireAll slot count (pageIdx + 1) mid).1.pagesHeldBy slot).length ≤
            (pool.pagesHeldBy slot).length + (count + 1) := by
        rw [hheld, List.length_append, List.length_singleton] at hlen
        exact ⟨hcap.trans (take_cap htake), by omega⟩
      dsimp only
      split
      · rename_i hrest
        rw [hrest] at hend
        exact hend
      · rename_i hrest
        rw [hrest] at hend
        exact hend

theorem new_sound (hpages : nPages < 2 ^ 32) (maxSlots limit : Nat) :
    Sound nPages maxSlots limit (new nPages maxSlots limit) := by
  refine ⟨List.length_replicate, rfl, ?_, fun slot => ?_⟩
  · unfold new pages
    rw [List.flatten_replicate_nil, List.append_nil, Nat.mod_eq_of_lt hpages]
  · have hnone : (new nPages maxSlots limit).pagesHeldBy slot = [] := by
      unfold new pagesHeldBy
      rw [List.getD_eq_getElem?_getD, List.getElem?_replicate]
      split <;> rfl
    rw [hnone]
    exact Nat.zero_le _

/-- A call of one slot keeps what a step of it keeps. -/
theorem Sound.grows (h : Sound nPages maxSlots limit pool) (hgrows : Grows pool slot pool')
    (hcap : pool'.maxPagesPerSlot = pool.maxPagesPerSlot) (hown : (pool'.pagesHeldBy slot).length ≤ limit) :
    Sound nPages maxSlots limit pool' := by
  refine ⟨hgrows.slots.trans h.slots, hcap.trans h.cap, hgrows.pages.trans h.conserved, fun s => ?_⟩
  by_cases hs : s = slot
  · rw [hs]
    exact hown
  · rw [hgrows.others s hs]
    exact h.held s

/-- A failed call leaves the pool as it is, and a successful one hands pages to one slot. -/
theorem acquireFor_step (h : Sound nPages maxSlots limit pool) (hslot : slot < maxSlots) :
    Grows pool slot (pool.step (.acquireFor slot)) ∧ Sound nPages maxSlots limit (pool.step (.acquireFor slot)) := by
  have hstep : pool.step (.acquireFor slot) = ((pool.acquireFor slot).map (·.2)).getD pool := rfl
  rw [hstep]
  cases hacquire : pool.acquireFor slot with
  | none => exact ⟨.refl _ _, h⟩
  | some taken =>
    obtain ⟨page, pool'⟩ := taken
    obtain ⟨hgrows, hheld⟩ := acquireFor_grows (h.slots.symm ▸ hslot) hacquire
    unfold acquireFor at hacquire
    split at hacquire
    · cases hacquire
    · rename_i hroom
      rw [h.cap] at hroom
      refine ⟨hgrows, h.grows hgrows (take_cap hacquire) ?_⟩
      change (pool'.pagesHeldBy slot).length ≤ limit
      rw [hheld, List.length_append, List.length_singleton]
      omega

theorem ensurePagesUpTo_step (h : Sound nPages maxSlots limit pool) (hslot : slot < maxSlots) (target : Nat) :
    Grows pool slot (pool.step (.ensurePagesUpTo slot target)) ∧
      Sound nPages maxSlots limit (pool.step (.ensurePagesUpTo slot target)) := by
  have hslot' : slot < pool.perSlotHeld.length := h.slots.symm ▸ hslot
  have hgrows : Grows pool slot (pool.ensurePagesUpTo slot target).1 := (ensurePagesUpTo_grows hslot' rfl).1
  refine ⟨hgrows, h.grows hgrows ?_ ?_⟩
  · unfold step ensurePagesUpTo
    dsimp only
    split
    · rfl
    · split
      · rfl
      · exact (acquireAll_adds hslot' _ _).1
  · unfold step ensurePagesUpTo
    dsimp only
    split
    · exact h.held slot
    · rename_i hcap
      rw [h.cap] at hcap
      split
      · exact h.held slot
      · have hlen := (acquireAll_adds hslot' (target - (pool.pagesHeldBy slot).length)
          (pool.pagesHeldBy slot).length).2
        omega

theorem releaseSlot_step (h : Sound nPages maxSlots limit pool) (hslot : slot < maxSlots) :
    Sound nPages maxSlots limit (pool.step (.releaseSlot slot)) := by
  refine ⟨?_, h.cap, (releaseSlot_pages (h.slots.symm ▸ hslot)).trans h.conserved, fun s => ?_⟩
  · exact List.length_set.trans h.slots
  · by_cases hs : s = slot
    · rw [hs]
      change ((pool.releaseSlot slot).pagesHeldBy slot).length ≤ limit
      rw [releaseSlot_self]
      exact Nat.zero_le _
    · change ((pool.releaseSlot slot).pagesHeldBy s).length ≤ limit
      rw [releaseSlot_others pool hs]
      exact h.held s

/-- What one call keeps. -/
theorem step_sound (h : Sound nPages maxSlots limit pool) (call : Call) (hslot : call.slot < maxSlots) :
    Sound nPages maxSlots limit (pool.step call) ∧
      ∀ s, s ≠ call.slot → (pool.step call).pagesHeldBy s = pool.pagesHeldBy s := by
  cases call with
  | acquireFor slot =>
    obtain ⟨hgrows, hsound⟩ := acquireFor_step h hslot
    exact ⟨hsound, hgrows.others⟩
  | ensurePagesUpTo slot target =>
    obtain ⟨hgrows, hsound⟩ := ensurePagesUpTo_step h hslot target
    exact ⟨hsound, hgrows.others⟩
  | releaseSlot slot => exact ⟨releaseSlot_step h hslot, fun s hs => releaseSlot_others pool hs⟩

/-- What a run keeps. -/
theorem run_sound (h : Sound nPages maxSlots limit pool) {calls : List Call}
    (hcalls : ∀ call ∈ calls, call.slot < maxSlots) : Sound nPages maxSlots limit (pool.run calls) := by
  induction calls generalizing pool with
  | nil => exact h
  | cons call calls ih =>
    exact ih (step_sound h call (hcalls call List.mem_cons_self)).1 fun c hc => hcalls c (List.mem_cons_of_mem _ hc)

/-- The pages of an answer are in the slot's list, where it says. -/
theorem reported_pages (h : Sound nPages maxSlots limit pool) (hslot : slot < maxSlots)
    (hok : pool.ensurePagesUpTo slot target = (pool', .ok newPages)) (he : e ∈ newPages) :
    (pool'.pagesHeldBy slot)[e.1]? = some e.2 := by
  obtain ⟨hheld, hidx, -⟩ := (ensurePagesUpTo_grows (h.slots.symm ▸ hslot) hok).2 newPages rfl
  obtain ⟨i, hi, hat⟩ := List.getElem_of_mem he
  have hfirst : e.1 = (pool.pagesHeldBy slot).length + i := by
    have hget := congrArg (·[i]?) hidx
    simp only [List.getElem?_map, List.getElem?_eq_getElem hi, Option.map_some, List.getElem?_range' hi, hat,
      Option.some.injEq] at hget
    omega
  rw [hheld, hfirst, List.getElem?_append_right (Nat.le_add_right _ _), Nat.add_sub_cancel_left,
    List.getElem?_map, List.getElem?_eq_getElem hi, hat, Option.map_some]

/-- Slots with no more than `limit` pages each, and where one has fewer. -/
theorem flatten_length_le {held : List (List Nat)} (hheld : ∀ pages ∈ held, pages.length ≤ limit) :
    held.flatten.length ≤ held.length * limit := by
  induction held with
  | nil => exact Nat.zero_le _
  | cons first held ih =>
    have htail := ih fun pages hpages => hheld pages (List.mem_cons_of_mem _ hpages)
    have hfirst := hheld first List.mem_cons_self
    rw [List.flatten_cons, List.length_append, List.length_cons, Nat.succ_mul]
    omega

theorem flatten_length_lt {held : List (List Nat)} (hheld : ∀ pages ∈ held, pages.length ≤ limit)
    (hroom : ∃ pages ∈ held, pages.length < limit) : held.flatten.length < held.length * limit := by
  induction held with
  | nil =>
    obtain ⟨pages, hpages, -⟩ := hroom
    cases hpages
  | cons first held ih =>
    have hrest : ∀ pages ∈ held, pages.length ≤ limit := fun pages hpages =>
      hheld pages (List.mem_cons_of_mem _ hpages)
    have htail := flatten_length_le hrest
    have hfirst := hheld first List.mem_cons_self
    rw [List.flatten_cons, List.length_append, List.length_cons, Nat.succ_mul]
    obtain ⟨pages, hpages, hlt⟩ := hroom
    rcases List.mem_cons.mp hpages with rfl | hpages
    · omega
    · have hless := ih hrest ⟨pages, hpages, hlt⟩
      omega

theorem mem_perSlotHeld {list : List Nat} (h : list ∈ pool.perSlotHeld) :
    ∃ slot < pool.perSlotHeld.length, pool.pagesHeldBy slot = list := by
  obtain ⟨slot, hslot, hat⟩ := List.getElem_of_mem h
  refine ⟨slot, hslot, ?_⟩
  unfold pagesHeldBy
  rw [List.getD_eq_getElem?_getD, List.getElem?_eq_getElem hslot, Option.getD_some, hat]

theorem pagesHeldBy_mem (h : slot < pool.perSlotHeld.length) : pool.pagesHeldBy slot ∈ pool.perSlotHeld := by
  unfold pagesHeldBy
  rw [List.getD_eq_getElem?_getD, List.getElem?_eq_getElem h, Option.getD_some]
  exact List.getElem_mem h

theorem Sound.count (h : Sound nPages maxSlots limit pool) :
    pool.free.length + pool.perSlotHeld.flatten.length = nPages := by
  have hlen := h.conserved.length_eq
  unfold pages at hlen
  rwa [List.length_append, List.length_range] at hlen

/-- With a page for every place of every slot, a slot below the cap finds one. -/
theorem Sound.free_of_room (h : Sound nPages maxSlots limit pool) (hsized : maxSlots * limit ≤ nPages)
    (hslot : slot < maxSlots) (hroom : (pool.pagesHeldBy slot).length < limit) : pool.free ≠ [] := by
  intro hnone
  have hcount := h.count
  have hslots := h.slots
  have hheld : ∀ pages ∈ pool.perSlotHeld, pages.length ≤ limit := fun pages hpages => by
    obtain ⟨s, -, rfl⟩ := mem_perSlotHeld hpages
    exact h.held s
  have hfew := flatten_length_lt hheld ⟨_, pagesHeldBy_mem (hslots.symm ▸ hslot), hroom⟩
  rw [hnone, List.length_nil, Nat.zero_add] at hcount
  rw [hslots] at hfew
  omega

/-- With fewer pages than places, a dry pool has a slot below the cap. -/
theorem Sound.room_of_few (h : Sound nPages maxSlots limit pool) (hfew : nPages < maxSlots * limit) :
    ∃ slot < maxSlots, (pool.pagesHeldBy slot).length < limit := by
  by_contra hfull
  have hall : ∀ held : List (List Nat), (∀ pages ∈ held, limit ≤ pages.length) →
      held.length * limit ≤ held.flatten.length := by
    intro held hheld
    induction held with
    | nil => rw [List.length_nil, Nat.zero_mul]; exact Nat.zero_le _
    | cons first held ih =>
      have htail := ih fun pages hpages => hheld pages (List.mem_cons_of_mem _ hpages)
      have hfirst := hheld first List.mem_cons_self
      rw [List.flatten_cons, List.length_append, List.length_cons, Nat.succ_mul]
      omega
  have hmany := hall pool.perSlotHeld fun pages hpages => by
    obtain ⟨s, hs, rfl⟩ := mem_perSlotHeld hpages
    exact Nat.not_lt.mp fun hlt => hfull ⟨s, h.slots ▸ hs, hlt⟩
  have hcount := h.count
  rw [h.slots] at hmany
  omega

theorem take_isSome (hfree : pool.free ≠ []) (slot : Nat) : ∃ page rest, pool.free = page :: rest ∧
    ∃ pool', pool.take slot = some (page, pool') ∧ pool'.free = rest := by
  cases hlist : pool.free with
  | nil => exact absurd hlist hfree
  | cons page rest =>
    refine ⟨page, rest, rfl, { pool with
      free := rest, perSlotHeld := pool.perSlotHeld.set slot (pool.pagesHeldBy slot ++ [page]) }, ?_, rfl⟩
    unfold take
    rw [hlist]

theorem take_sound (h : Sound nPages maxSlots limit pool) (hslot : slot < maxSlots)
    (hroom : (pool.pagesHeldBy slot).length < limit) (htake : pool.take slot = some (page, pool')) :
    Sound nPages maxSlots limit pool' ∧ (pool'.pagesHeldBy slot).length = (pool.pagesHeldBy slot).length + 1 := by
  obtain ⟨hgrows, hheld⟩ := take_grows (h.slots.symm ▸ hslot) htake
  have hlen : (pool'.pagesHeldBy slot).length = (pool.pagesHeldBy slot).length + 1 := by
    rw [hheld, List.length_append, List.length_singleton]
  exact ⟨h.grows hgrows (take_cap htake) (by omega), hlen⟩

/-- With a page for every place, one page more fails only at the cap. -/
theorem Sound.acquire_fails (h : Sound nPages maxSlots limit pool) (hsized : maxSlots * limit ≤ nPages)
    (hslot : slot < maxSlots) : pool.acquireFor slot = none ↔ (pool.pagesHeldBy slot).length = limit := by
  have hheld := h.held slot
  unfold acquireFor
  rw [h.cap]
  split
  · rename_i hfull
    exact iff_of_true rfl (Nat.le_antisymm hheld hfull)
  · rename_i hroom
    obtain ⟨page, rest, -, pool', htake, -⟩ := take_isSome (h.free_of_room hsized hslot (by omega)) slot
    rw [htake]
    exact iff_of_false nofun (by omega)

theorem Sound.acquireAll_ok (h : Sound nPages maxSlots limit pool) (hsized : maxSlots * limit ≤ nPages)
    (hslot : slot < maxSlots) (count pageIdx : Nat) (hroom : (pool.pagesHeldBy slot).length + count ≤ limit) :
    ∃ newPages, (acquireAll slot count pageIdx pool).2 = .ok newPages := by
  induction count generalizing pool pageIdx with
  | zero => exact ⟨[], rfl⟩
  | succ count ih =>
    obtain ⟨page, rest, -, pool', htake, -⟩ := take_isSome (h.free_of_room hsized hslot (by omega)) slot
    obtain ⟨hsound, hlen⟩ := take_sound h hslot (by omega) htake
    obtain ⟨newPages, hrest⟩ := ih hsound (pageIdx + 1) (by omega)
    unfold acquireAll
    rw [htake]
    dsimp only
    split
    · rename_i heq
      rw [heq] at hrest
      cases hrest
    · exact ⟨_, rfl⟩

/-- And so does a row of pages. -/
theorem Sound.ensure_fails (h : Sound nPages maxSlots limit pool) (hsized : maxSlots * limit ≤ nPages)
    (hslot : slot < maxSlots) (target : Nat) :
    (∃ count, (pool.ensurePagesUpTo slot target).2 = .error count) ↔ limit < target := by
  unfold ensurePagesUpTo
  dsimp only
  rw [h.cap]
  split
  · rename_i hover
    exact iff_of_true ⟨_, rfl⟩ hover
  · rename_i hunder
    refine iff_of_false (fun ⟨count, hfails⟩ => ?_) hunder
    split at hfails
    · cases hfails
    · obtain ⟨newPages, hok⟩ := h.acquireAll_ok hsized hslot (target - (pool.pagesHeldBy slot).length)
        (pool.pagesHeldBy slot).length (by omega)
      rw [hok] at hfails
      cases hfails

/-- With fewer pages than places, some calls leave no page free. -/
theorem Sound.runs_dry (h : Sound nPages maxSlots limit pool) (hfew : nPages < maxSlots * limit) :
    ∃ calls : List Call, (∀ call ∈ calls, call.slot < maxSlots) ∧ (pool.run calls).free = [] := by
  generalize hn : pool.free.length = n
  induction n generalizing pool with
  | zero => exact ⟨[], nofun, List.length_eq_zero_iff.mp hn⟩
  | succ n ih =>
    obtain ⟨slot, hslot, hroom⟩ := h.room_of_few hfew
    have hfree : pool.free ≠ [] := fun hnone => by
      rw [hnone] at hn
      cases hn
    obtain ⟨page, rest, hlist, pool', htake, hrest⟩ := take_isSome hfree slot
    have hstep : pool.step (.acquireFor slot) = pool' := by
      change ((pool.acquireFor slot).map (·.2)).getD pool = pool'
      unfold acquireFor
      rw [h.cap, if_neg (by omega), htake]
      rfl
    rw [hlist, List.length_cons] at hn
    obtain ⟨calls, hcalls, hdry⟩ := ih (take_sound h hslot hroom htake).1 (by rw [hrest]; omega)
    refine ⟨.acquireFor slot :: calls, fun call hcall => ?_, ?_⟩
    · rcases List.mem_cons.mp hcall with rfl | hcall
      · exact hslot
      · exact hcalls call hcall
    · change ((pool.step (.acquireFor slot)).run calls).free = []
      rw [hstep]
      exact hdry

end Sound

/-- What holds of a pool after any calls: its pages, the caps of its slots, what an answer
reports, and that a call changes one slot's list. -/
structure Conserves (nPages maxSlots limit : Nat) (pool : PagePool) : Prop where
  slots : pool.perSlotHeld.length = maxSlots
  conserved : (pool.free ++ pool.perSlotHeld.flatten).Perm (List.range nPages)
  capped : ∀ slot < maxSlots, (pool.pagesHeldBy slot).length ≤ limit
  reported : ∀ slot < maxSlots, ∀ target pool' newPages, pool.ensurePagesUpTo slot target = (pool', .ok newPages) →
    ∀ e ∈ newPages, (pool'.pagesHeldBy slot)[e.1]? = some e.2
  others : ∀ call : Call, call.slot < maxSlots → ∀ s, s ≠ call.slot →
    (pool.step call).pagesHeldBy s = pool.pagesHeldBy s

/-- After any calls, `acquire_for` fails exactly for a slot at the cap, and
`ensure_pages_up_to` exactly for a target above it. -/
def FailsAtCap (maxSlots limit : Nat) (pool : PagePool) : Prop :=
  ∀ calls : List Call, (∀ call ∈ calls, call.slot < maxSlots) → ∀ slot < maxSlots,
    ((pool.run calls).acquireFor slot = none ↔ ((pool.run calls).pagesHeldBy slot).length = limit) ∧
      ∀ target, (∃ count, ((pool.run calls).ensurePagesUpTo slot target).2 = .error count) ↔ limit < target

theorem failsAtCap_iff {nPages : Nat} (hpages : nPages < 2 ^ 32) (maxSlots limit : Nat) :
    FailsAtCap maxSlots limit (new nPages maxSlots limit) ↔ maxSlots * limit ≤ nPages := by
  have hnew := new_sound hpages maxSlots limit
  constructor
  · intro hfails
    by_contra hfew
    obtain ⟨calls, hcalls, hdry⟩ := hnew.runs_dry (Nat.not_le.mp hfew)
    have hsound := run_sound hnew hcalls
    obtain ⟨slot, hslot, hroom⟩ := hsound.room_of_few (Nat.not_le.mp hfew)
    have hnone : ((new nPages maxSlots limit).run calls).acquireFor slot = none := by
      unfold acquireFor take
      rw [hdry, ite_self]
    exact absurd ((hfails calls hcalls slot hslot).1.mp hnone) (Nat.ne_of_lt hroom)
  · intro hsized calls hcalls slot hslot
    have hsound := run_sound hnew hcalls
    exact ⟨hsound.acquire_fails hsized hslot, hsound.ensure_fails hsized hslot⟩

/-- Every run of a pool conserves its pages; and a pool sized by a budget fails exactly at the
caps when the places of all slots are a word. -/
theorem conserves_and_fails_iff (maxSlots maxPagesPerSlot : Nat) :
    (∀ nPages < 2 ^ 32, ∀ calls : List Call, (∀ call ∈ calls, call.slot < maxSlots) →
      Conserves nPages maxSlots maxPagesPerSlot ((new nPages maxSlots maxPagesPerSlot).run calls)) ∧
    ∀ (o : Systems.Overflow) (perLayerBudgetBytes pageSize kvWidth : Nat) (cfg : PagedKvCacheConfig),
      PagedKvCacheConfig.fromVramBudgetWords o perLayerBudgetBytes pageSize kvWidth maxSlots maxPagesPerSlot =
        .ok cfg → cfg.nPages < 2 ^ 32 →
      (FailsAtCap maxSlots maxPagesPerSlot (new cfg.nPages maxSlots cfg.maxPagesPerSlot) ↔
        maxSlots * maxPagesPerSlot < 2 ^ 64) := by
  constructor
  · intro nPages hpages calls hcalls
    have hsound := run_sound (new_sound hpages maxSlots maxPagesPerSlot) hcalls
    exact ⟨hsound.slots, hsound.conserved, fun slot _ => hsound.held slot,
      fun slot hslot target pool' newPages hok e he => reported_pages hsound hslot hok he,
      fun call hcall => (step_sound hsound call hcall).2⟩
  · intro o perLayerBudgetBytes pageSize kvWidth cfg hcfg hpages
    obtain ⟨hcap, hmany⟩ := PagedKvCacheConfig.fromVramBudgetWords_pages hcfg
    rw [hcap, failsAtCap_iff hpages]
    exact ⟨fun hle => by omega, hmany⟩

theorem small_pool_sized : Conserves 3 2 2
      ((new 3 2 2).run [.ensurePagesUpTo 0 2, .acquireFor 1, .ensurePagesUpTo 1 2, .releaseSlot 0]) ∧
    FailsAtCap 4 8 (new 32 4 8) :=
  ⟨(conserves_and_fails_iff 2 2).1 3 (by decide) _ (by decide),
    ((conserves_and_fails_iff 4 8).2 .wraps 0 16 64 ⟨16, 32, 8⟩ (by decide) (by decide)).mpr (by decide)⟩

/-- Two slots of `2^63` pages each: their places wrap to none, and the pool has no page. -/
theorem wrapped_pool_dry : ∃ cfg,
    PagedKvCacheConfig.fromVramBudgetWords .wraps 0 16 64 2 (2 ^ 63) = .ok cfg ∧ cfg.nPages < 2 ^ 32 ∧
      ¬ FailsAtCap 2 (2 ^ 63) (new cfg.nPages 2 cfg.maxPagesPerSlot) := by
  refine ⟨⟨16, 0, 2 ^ 63⟩, by decide, by decide, fun hfails => ?_⟩
  have hnone := (hfails [] nofun 0 (by decide)).1.mp (by decide)
  exact absurd hnone (by decide)

end PagePool
end Flambeau.Forward
