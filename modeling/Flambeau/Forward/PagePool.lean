import Mathlib

namespace Flambeau.Forward

/-- The free-list allocator over the pages of one layer's paged cache. -/
structure PagePool where
  nPages : Nat
  maxPagesPerSlot : Nat
  /-- The front of the queue is handed out next. -/
  free : List Nat
  perSlotHeld : List (List Nat)
deriving Repr, DecidableEq

namespace PagePool

/-- `(0..n_pages as u32).collect()`: every page starts free. -/
def new (nPages maxSlots maxPagesPerSlot : Nat) : PagePool where
  nPages := nPages
  maxPagesPerSlot := maxPagesPerSlot
  free := List.range (nPages % 2 ^ 32)
  perSlotHeld := List.replicate maxSlots []

def pagesHeldBy (pool : PagePool) (slot : Nat) : List Nat := pool.perSlotHeld.getD slot []

/-- `free.pop_front()`, then `per_slot_held[slot].push(page)`. -/
def take (pool : PagePool) (slot : Nat) : Option (Nat × PagePool) :=
  match pool.free with
  | [] => none
  | page :: free =>
    some (page, { pool with
      free := free,
      perSlotHeld := pool.perSlotHeld.set slot (pool.pagesHeldBy slot ++ [page]) })

/-- One free page for the slot, if the slot may hold another one. -/
def acquireFor (pool : PagePool) (slot : Nat) : Option (Nat × PagePool) :=
  if pool.maxPagesPerSlot ≤ (pool.pagesHeldBy slot).length then none else pool.take slot

/-- The slot's pages go to the back of the queue. -/
def releaseSlot (pool : PagePool) (slot : Nat) : PagePool :=
  { pool with
    free := pool.free ++ pool.pagesHeldBy slot,
    perSlotHeld := pool.perSlotHeld.set slot [] }

/-- `for page_idx_in_slot in already..target_page_count`. An error carries the
count held by then; what was acquired before it stays with the slot. -/
def acquireAll (slot : Nat) : (count pageIdx : Nat) → PagePool → PagePool × Except Nat (List (Nat × Nat))
  | 0, _, pool => (pool, .ok [])
  | count + 1, pageIdx, pool =>
    match pool.take slot with
    | none => (pool, .error (pool.pagesHeldBy slot).length)
    | some (page, pool) =>
      match acquireAll slot count (pageIdx + 1) pool with
      | (pool, .error held) => (pool, .error held)
      | (pool, .ok newPages) => (pool, .ok ((pageIdx, page) :: newPages))

/-- The pages `[already, target)` of the slot, each with its index. -/
def ensurePagesUpTo (pool : PagePool) (slot targetPageCount : Nat) :
    PagePool × Except Nat (List (Nat × Nat)) :=
  let already := (pool.pagesHeldBy slot).length
  if pool.maxPagesPerSlot < targetPageCount then (pool, .error already)
  else if targetPageCount ≤ already then (pool, .ok [])
  else acquireAll slot (targetPageCount - already) already pool

/-- Every page of the pool, free or held. -/
def pages (pool : PagePool) : List Nat := pool.free ++ pool.perSlotHeld.flatten

theorem flatten_set_append {held : List (List Nat)} (h : slot < held.length) (page : Nat) :
    (held.set slot (held.getD slot [] ++ [page])).flatten.Perm (page :: held.flatten) := by
  induction held generalizing slot with
  | nil => simp at h
  | cons x held ih =>
    cases slot with
    | zero =>
      simp only [List.set_cons_zero, List.getD_cons_zero, List.flatten_cons, List.append_assoc]
      exact List.perm_middle
    | succ slot =>
      have hslot : slot < held.length := by simpa using h
      have htail := ih hslot
      simp only [List.set_cons_succ, List.getD_cons_succ, List.flatten_cons]
      exact (htail.append_left x).trans List.perm_middle

theorem flatten_set_nil {held : List (List Nat)} (h : slot < held.length) :
    (held.getD slot [] ++ (held.set slot []).flatten).Perm held.flatten := by
  induction held generalizing slot with
  | nil => simp at h
  | cons x held ih =>
    cases slot with
    | zero => simp
    | succ slot =>
      have hslot : slot < held.length := by simpa using h
      have htail := ih hslot
      simp only [List.set_cons_succ, List.getD_cons_succ, List.flatten_cons]
      rw [← List.append_assoc]
      apply (List.perm_append_comm.append_right _).trans
      rw [List.append_assoc]
      exact htail.append_left x

/-- What an operation that hands pages to one slot leaves as it is. -/
structure Grows (pool : PagePool) (slot : Nat) (pool' : PagePool) : Prop where
  slots : pool'.perSlotHeld.length = pool.perSlotHeld.length
  pages : pool'.pages.Perm pool.pages
  own : pool.pagesHeldBy slot <+: pool'.pagesHeldBy slot
  others : ∀ s, s ≠ slot → pool'.pagesHeldBy s = pool.pagesHeldBy s

theorem Grows.refl (pool : PagePool) (slot : Nat) : Grows pool slot pool :=
  ⟨rfl, .refl _, List.prefix_refl _, fun _ _ => rfl⟩

theorem Grows.trans (h : Grows pool slot mid) (h' : Grows mid slot pool') : Grows pool slot pool' := by
  refine ⟨h'.slots.trans h.slots, h'.pages.trans h.pages, h.own.trans h'.own, ?_⟩
  intro s hs
  rw [h'.others s hs, h.others s hs]

theorem take_grows (hslot : slot < pool.perSlotHeld.length)
    (h : pool.take slot = some (page, pool')) :
    Grows pool slot pool' ∧ pool'.pagesHeldBy slot = pool.pagesHeldBy slot ++ [page] := by
  unfold take at h
  cases hfree : pool.free with
  | nil => simp [hfree] at h
  | cons front free =>
    simp only [hfree, Option.some.injEq, Prod.mk.injEq] at h
    obtain ⟨hpage, hpool⟩ := h
    subst hpage hpool
    have hheld : (pool.perSlotHeld.set slot (pool.pagesHeldBy slot ++ [front])).getD slot [] =
        pool.pagesHeldBy slot ++ [front] := by
      simp [List.getD_eq_getElem?_getD, List.getElem?_set_self hslot]
    refine ⟨⟨by simp, ?_, ?_, ?_⟩, hheld⟩
    · unfold pages
      rw [hfree]
      exact ((flatten_set_append hslot front).append_left free).trans List.perm_middle
    · exact ⟨[front], hheld.symm⟩
    · intro s hs
      simp [pagesHeldBy, List.getD_eq_getElem?_getD, List.getElem?_set_ne (Ne.symm hs)]

theorem acquireFor_grows (hslot : slot < pool.perSlotHeld.length)
    (h : pool.acquireFor slot = some (page, pool')) :
    Grows pool slot pool' ∧ pool'.pagesHeldBy slot = pool.pagesHeldBy slot ++ [page] := by
  unfold acquireFor at h
  split at h
  case isTrue => cases h
  case isFalse => exact take_grows hslot h

/-- The pages come with the indices they have in the slot's list. -/
theorem acquireAll_grows (hslot : slot < pool.perSlotHeld.length) {count : Nat}
    (h : acquireAll slot count (pool.pagesHeldBy slot).length pool = (pool', r)) :
    Grows pool slot pool' ∧ ∀ newPages, r = .ok newPages →
      newPages.length = count ∧
      pool'.pagesHeldBy slot = pool.pagesHeldBy slot ++ newPages.map Prod.snd ∧
      newPages.map Prod.fst = List.range' (pool.pagesHeldBy slot).length count := by
  induction count generalizing pool pool' r with
  | zero =>
    unfold acquireAll at h
    cases h
    refine ⟨.refl _ _, ?_⟩
    intro newPages hok
    cases hok
    simp
  | succ count ih =>
    unfold acquireAll at h
    cases htake : pool.take slot with
    | none =>
      simp only [htake, Prod.mk.injEq] at h
      obtain ⟨hpool, hr⟩ := h
      subst hpool hr
      exact ⟨.refl _ _, fun _ hok => nomatch hok⟩
    | some taken =>
      obtain ⟨page, mid⟩ := taken
      obtain ⟨hgrows, hheld⟩ := take_grows hslot htake
      have hlen : (mid.pagesHeldBy slot).length = (pool.pagesHeldBy slot).length + 1 := by
        simp [hheld]
      have hslot' : slot < mid.perSlotHeld.length := by rw [hgrows.slots]; exact hslot
      simp only [htake, ← hlen] at h
      cases hrest : acquireAll slot count (mid.pagesHeldBy slot).length mid with
      | mk last r' =>
        obtain ⟨hgrows', hok'⟩ := ih hslot' hrest
        cases r' with
        | error held =>
          simp only [hrest, Prod.mk.injEq] at h
          obtain ⟨hpool, hr⟩ := h
          subst hpool hr
          exact ⟨hgrows.trans hgrows', fun _ hok => nomatch hok⟩
        | ok rest =>
          simp only [hrest, Prod.mk.injEq] at h
          obtain ⟨hpool, hr⟩ := h
          subst hpool hr
          refine ⟨hgrows.trans hgrows', ?_⟩
          intro newPages hok
          cases hok
          obtain ⟨hcount, hlast, hidx⟩ := hok' rest rfl
          refine ⟨by simp [hcount], ?_, ?_⟩
          · rw [hlast, hheld]
            simp
          · simp only [List.map_cons, hidx, hlen, List.range'_succ]

theorem ensurePagesUpTo_grows (hslot : slot < pool.perSlotHeld.length)
    (h : pool.ensurePagesUpTo slot target = (pool', r)) :
    Grows pool slot pool' ∧ ∀ newPages, r = .ok newPages →
      pool'.pagesHeldBy slot = pool.pagesHeldBy slot ++ newPages.map Prod.snd ∧
      newPages.map Prod.fst = List.range' (pool.pagesHeldBy slot).length newPages.length ∧
      target ≤ (pool'.pagesHeldBy slot).length := by
  unfold ensurePagesUpTo at h
  simp only at h
  split at h
  case isTrue =>
    cases h
    exact ⟨.refl _ _, fun _ hok => nomatch hok⟩
  case isFalse =>
    split at h
    case isTrue hle =>
      cases h
      refine ⟨.refl _ _, ?_⟩
      intro newPages hok
      cases hok
      simpa using hle
    case isFalse hgt =>
      obtain ⟨hgrows, hok⟩ := acquireAll_grows hslot h
      refine ⟨hgrows, ?_⟩
      intro newPages hr
      obtain ⟨hcount, hheld, hidx⟩ := hok newPages hr
      refine ⟨hheld, by rw [hcount]; exact hidx, ?_⟩
      rw [hheld, List.length_append, List.length_map]
      omega

theorem releaseSlot_pages {pool : PagePool} (hslot : slot < pool.perSlotHeld.length) :
    (pool.releaseSlot slot).pages.Perm pool.pages := by
  unfold releaseSlot pages
  simp only [List.append_assoc]
  exact (flatten_set_nil hslot).append_left pool.free

theorem releaseSlot_others (pool : PagePool) {s slot : Nat} (hs : s ≠ slot) :
    (pool.releaseSlot slot).pagesHeldBy s = pool.pagesHeldBy s := by
  simp [releaseSlot, pagesHeldBy, List.getD_eq_getElem?_getD, List.getElem?_set_ne (Ne.symm hs)]

theorem releaseSlot_self (pool : PagePool) (slot : Nat) :
    (pool.releaseSlot slot).pagesHeldBy slot = [] := by
  unfold releaseSlot pagesHeldBy
  by_cases h : slot < pool.perSlotHeld.length
  · simp [List.getD_eq_getElem?_getD, List.getElem?_set_self h]
  · simp [List.getD_eq_getElem?_getD, h]

theorem new_pages_nodup (nPages maxSlots limit : Nat) : (new nPages maxSlots limit).pages.Nodup := by
  unfold new pages
  simp only [List.flatten_replicate_nil, List.append_nil]
  exact List.nodup_range

end PagePool

end Flambeau.Forward
