import Mathlib.Data.List.Perm.Subperm
import Flambeau.Systems.Census
import Flambeau.Server.RoutedRows

namespace Flambeau.Server.Routing
open Systems
open Scheduler (PendingDecode Then)

/-! Where a call is until it has been answered. -/

namespace Job

/-- The entries that a job runs and answers. -/
def pending : Job → List (PendingDecode Nat)
  | one entry => [entry]
  | batched _ pending => pending
  | mixed _ pending => pending
  | prefill _ _ => []

/-- The slot of the job's own thread. -/
def slotIdx : Job → Nat
  | one entry => entry.slotIdx
  | batched mine _ => mine.slotIdx
  | mixed c _ => c.slotIdx
  | prefill c _ => c.slotIdx

/-- The call that the job's own thread is in. -/
def mine : Job → Option (PendingDecode Nat)
  | one entry => some entry
  | batched mine _ => some mine
  | _ => none

/-- The slots whose rows share a forward. -/
def slots : Job → List Nat
  | batched _ pending => pending.map PendingDecode.slotIdx
  | mixed c pending => c.slotIdx :: pending.map PendingDecode.slotIdx
  | _ => []

structure Fits (cfg : Config) (job : Job) : Prop where
  own : job.slotIdx < cfg.inflightSlots
  pending : ∀ p ∈ job.pending, p.slotIdx < cfg.inflightSlots
  distinct : job.slots.Nodup

end Job

namespace Pc

variable {F : Type}

def slot : Pc F → Option Nat
  | idle => none
  | ready slotIdx => some slotIdx
  | enqueue entry => some entry.slotIdx
  | enqueueLocked entry => some entry.slotIdx
  | pushed entry => some entry.slotIdx
  | leading entry => some entry.slotIdx
  | checking entry => some entry.slotIdx
  | leaving entry => some entry.slotIdx
  | waiting entry => some entry.slotIdx
  | prefill c => some c.slotIdx
  | window c => some c.slotIdx
  | draining c => some c.slotIdx
  | drained c _ => some c.slotIdx
  | repushing c _ => some c.slotIdx
  | releasing c _ => some c.slotIdx
  | session job => some job.slotIdx
  | running job => some job.slotIdx
  | copying job => some job.slotIdx
  | answering job _ _ => some job.slotIdx

/-- The call that a thread is in. The fast path answers nobody. -/
def call : Pc F → Option (PendingDecode Nat)
  | enqueue entry => some entry
  | enqueueLocked entry => some entry
  | pushed entry => some entry
  | leading entry => some entry
  | checking entry => some entry
  | leaving entry => some entry
  | waiting entry => some entry
  | session job => job.mine
  | running job => job.mine
  | copying job => job.mine
  | answering (.batched mine _) _ _ => some mine
  | _ => none

/-- The entries in a thread's hands. -/
def carries : Pc F → List (PendingDecode Nat)
  | enqueue entry => [entry]
  | enqueueLocked entry => [entry]
  | drained _ batch => batch
  | repushing _ batch => batch
  | session job => job.pending
  | running job => job.pending
  | copying job => job.pending
  | answering _ _ rest => rest.map Prod.fst
  | _ => []

/-- Those that no forward has had. -/
def unrun : Pc F → List (PendingDecode Nat)
  | copying _ => []
  | answering _ _ _ => []
  | pc => pc.carries

def job : Pc F → Option Job
  | session job => some job
  | running job => some job
  | copying job => some job
  | _ => none

/-- Places outside the session and outside its answers. -/
def plain : Pc F → Bool
  | session _ => false
  | running _ => false
  | copying _ => false
  | answering _ _ _ => false
  | _ => true

/-- A thread that holds the shared session. -/
def holdsShared : Pc F → Bool
  | running _ => true
  | copying _ => true
  | _ => false

theorem call_slot {pc : Pc F} {p : PendingDecode Nat} (h : pc.call = some p) :
    pc.slot = some p.slotIdx := by
  have hmine : ∀ job : Job, job.mine = some p → some job.slotIdx = some p.slotIdx := by
    intro job hjob
    cases job <;> cases hjob <;> rfl
  cases pc with
  | session job => exact hmine job h
  | running job => exact hmine job h
  | copying job => exact hmine job h
  | answering job ok rest =>
    cases job <;> cases h
    rfl
  | idle => cases h
  | ready slotIdx => cases h
  | prefill c => cases h
  | window c => cases h
  | draining c => cases h
  | drained c batch => cases h
  | repushing c batch => cases h
  | releasing c andThen => cases h
  | _ =>
    cases h
    rfl

theorem unrun_carries {pc : Pc F} {p : PendingDecode Nat} (h : p ∈ pc.unrun) : p ∈ pc.carries := by
  cases pc with
  | copying job => cases h
  | answering job ok rest => cases h
  | _ => exact h

end Pc

variable {T F : Type} [DecidableEq T] {cfg : Config} {s s' : State T F cfg.vocab} {t : T}

theorem decodeRows {batch : List (PendingDecode Nat)} {request : Request}
    (hfit : ∀ p ∈ batch, p.slotIdx < cfg.inflightSlots)
    (h : decodeBatched (tuples (batchSlots batch) (inflights cfg batch)) = some request) :
    request.rows = batch.map rowOf := by
  rw [tuples_eq hfit] at h
  obtain ⟨rfl, -⟩ := decodeBatched_some h
  rfl

theorem slot_of_row {batch : List (PendingDecode Nat)} {i : Nat} {a : Row}
    (h : (batch.map rowOf)[i]? = some a) : (batch.map PendingDecode.slotIdx)[i]? = some a.slotId := by
  rw [List.getElem?_map] at h ⊢
  obtain ⟨p, hp, rfl⟩ := Option.map_eq_some_iff.mp h
  rw [hp]
  rfl

/-- Rows of one slot stand at one place of a batch. -/
theorem same_row {batch : List (PendingDecode Nat)} {i j : Nat} {a b : Row}
    (hnodup : (batch.map PendingDecode.slotIdx).Nodup) (ha : (batch.map rowOf)[i]? = some a)
    (hb : (batch.map rowOf)[j]? = some b) (hslot : a.slotId = b.slotId) : i = j := by
  have hi := slot_of_row ha
  have hj := slot_of_row hb
  rw [hslot] at hi
  exact (List.getElem?_inj (List.getElem?_eq_some_iff.mp hi).1 hnodup).mp (hi.trans hj.symm)

/-- Two rows of a forward are in one KV slot only as rows of one chunk. -/
def Apart (f : Forward F vocab) : Prop :=
  ∀ (i j : Nat) (a b : Row), i ≠ j → f.rows[i]? = some a → f.rows[j]? = some b → a.slotId = b.slotId →
    f.entries[i]? = some none ∧ f.entries[j]? = some none

theorem Job.Fits.apart {job : Job} {request : Request} {logits : Nat → Vector F vocab} (hfits : job.Fits cfg)
    (hrequest : job.request cfg = some request) :
    Apart ⟨request.rows, job.entries cfg, logits⟩ := by
  intro i j a b hij ha hb hslot
  dsimp only at ha hb ⊢
  cases job with
  | one entry =>
    rw [decodeRows hfits.pending hrequest] at ha hb
    have hone : ([entry].map PendingDecode.slotIdx).Nodup := List.nodup_singleton _
    exact absurd (same_row hone ha hb hslot) hij
  | batched mine batch =>
    rw [decodeRows hfits.pending hrequest] at ha hb
    exact absurd (same_row hfits.distinct ha hb hslot) hij
  | mixed c batch =>
    obtain ⟨hother, hnodup⟩ := List.nodup_cons.mp hfits.distinct
    have hpending : ∀ p ∈ batch, p.slotIdx < cfg.inflightSlots := hfits.pending
    have hown : c.slotIdx < cfg.inflightSlots := hfits.own
    unfold Job.request at hrequest
    dsimp only at hrequest
    split at hrequest
    · cases hrequest
    · rw [tuples_eq hpending, conv_slotId hown] at hrequest
      cases hrequest
      have hchunk : ∀ {k : Nat}, k < (c.tokens cfg).length →
          ((Job.mixed c batch).entries cfg)[k]? = some none := by
        intro k hk
        change (List.replicate (c.tokens cfg).length none ++ _)[k]? = _
        rw [List.getElem?_append_left (by rw [List.length_replicate]; exact hk)]
        exact List.getElem?_replicate_of_lt hk
      have hfront : ∀ {k : Nat} {r : Row}, k < (c.tokens cfg).length →
          (prefillRows (c.tokens cfg) c.start c.slotIdx ++ batch.map rowOf)[k]? = some r →
          r.slotId = c.slotIdx := by
        intro k r hk hr
        rw [List.getElem?_append_left (by rw [length_prefillRows]; exact hk)] at hr
        exact slots_prefillRows (List.mem_of_getElem? hr)
      have hback : ∀ {k : Nat} {r : Row}, ¬ k < (c.tokens cfg).length →
          (prefillRows (c.tokens cfg) c.start c.slotIdx ++ batch.map rowOf)[k]? = some r →
          (batch.map rowOf)[k - (c.tokens cfg).length]? = some r := by
        intro k r hk hr
        rw [List.getElem?_append_right (by rw [length_prefillRows]; omega), length_prefillRows] at hr
        exact hr
      by_cases hi : i < (c.tokens cfg).length
      · by_cases hj : j < (c.tokens cfg).length
        · exact ⟨hchunk hi, hchunk hj⟩
        · have hmem := List.mem_of_getElem? (slot_of_row (hback hj hb))
          rw [← hslot, hfront hi ha] at hmem
          exact absurd hmem hother
      · by_cases hj : j < (c.tokens cfg).length
        · have hmem := List.mem_of_getElem? (slot_of_row (hback hi ha))
          rw [hslot, hfront hj hb] at hmem
          exact absurd hmem hother
        · have heq := same_row hnodup (hback hi ha) (hback hj hb) hslot
          omega
  | prefill c at_ =>
    unfold Job.request at hrequest
    dsimp only at hrequest
    split at hrequest
    · cases hrequest
    · cases hrequest
      have hchunk : ∀ {k : Nat} {r : Row}, (prefillRows (Job.ubatch cfg c at_) (c.start + at_)
          (cfg.conv c.slotIdx).slotId)[k]? = some r → ((Job.prefill c at_).entries cfg)[k]? = some none := by
        intro k r hr
        have hk := (List.getElem?_eq_some_iff.mp hr).1
        rw [length_prefillRows] at hk
        exact List.getElem?_replicate_of_lt hk
      exact ⟨hchunk ha, hchunk hb⟩

/-- A forward has computed these logits for the call's own row. -/
def Answered (s : State T F cfg.vocab) (p : PendingDecode Nat) (logits : List F) : Prop :=
  ∃ f ∈ s.forwards, RowFor f p logits

/-- The logits are those of a call's own row. -/
def Rightly (s : State T F cfg.vocab) (call : Nat) (logits : List F) : Prop :=
  ∃ p, s.calls[call]? = some p ∧ p.response = call ∧ Answered s p logits

/-- The calls that forwards have had. -/
def forwarded (s : State T F cfg.vocab) : List Nat := s.forwards.flatMap fun f => f.entries.filterMap id

/-- An entry that still has to be answered: its thread waits for it. -/
structure Out (s : State T F cfg.vocab) (p : PendingDecode Nat) : Prop where
  owner : ∃ u, (s.pc u).call = some p
  call : s.calls[p.response]? = some p
  unanswered : s.channel p.response = none

structure Inv (s : State T F cfg.vocab) : Prop where
  custody : Custody PendingDecode.response Pc.carries s.batchedPending s.pc
  out : ∀ p, Held Pc.carries s.batchedPending s.pc p → Out s p
  slots : ∀ u k, (s.pc u).slot = some k → k < cfg.inflightSlots ∧ s.slotInUse k = some u
  bound : ∀ c, s.channel c ≠ none → c < s.calls.length
  shared : ∀ u, (s.pc u).holdsShared = true → s.shared = some u
  fits : ∀ u job, (s.pc u).job = some job → job.Fits cfg
  left : ∀ u job, s.pc u = .copying job → ∃ f ∈ s.forwards, Left cfg job f s.lastLogits
  unrun : ∀ p, Held Pc.unrun s.batchedPending s.pc p → p.response ∉ forwarded s
  once : (forwarded s).Nodup
  ran : ∀ c ∈ forwarded s, c < s.calls.length
  apart : ∀ f ∈ s.forwards, Apart f
  answers : ∀ u job ok rest, s.pc u = .answering job ok rest →
    ∀ p logits, (p, some logits) ∈ rest → Answered s p logits
  sent : ∀ c logits, s.channel c = some (some logits) → Rightly s c logits
  returns : ∀ c logits, (c, logits) ∈ s.returns → Rightly s c logits
  prefills : ∀ row logits, (row, logits) ∈ s.prefills →
    ∃ f ∈ s.forwards, ∃ j, f.rows[j]? = some row ∧ logits = (f.logits j).toList

namespace Inv

omit [DecidableEq T] in
/-- Threads with entries out hold slots of their own. -/
theorem owner_unique (h : Inv s) {p q : PendingDecode Nat} {u v : T} (hu : (s.pc u).call = some p)
    (hv : (s.pc v).slot = some q.slotIdx) (heq : p.slotIdx = q.slotIdx) : u = v := by
  have hp := (h.slots u _ (Pc.call_slot hu)).2
  have hq := (h.slots v _ hv).2
  rw [heq, hq] at hp
  exact (Option.some.inj hp).symm

omit [DecidableEq T] in
/-- A batch has one row for a slot. -/
theorem slots_nodup (h : Inv s) {batch : List (PendingDecode Nat)}
    (hheld : ∀ p ∈ batch, Held Pc.carries s.batchedPending s.pc p)
    (hnodup : (batch.map PendingDecode.response).Nodup) : (batch.map PendingDecode.slotIdx).Nodup := by
  refine List.Nodup.map_on ?_ (List.Nodup.of_map _ hnodup)
  intro p hp q hq heq
  obtain ⟨u, hu⟩ := (h.out p (hheld p hp)).owner
  obtain ⟨v, hv⟩ := (h.out q (hheld q hq)).owner
  obtain rfl := h.owner_unique hu (Pc.call_slot hv) heq
  exact Option.some.inj (hu.symm.trans hv)

omit [DecidableEq T] in
theorem slots_fit (h : Inv s) {p : PendingDecode Nat} (hheld : Held Pc.carries s.batchedPending s.pc p) :
    p.slotIdx < cfg.inflightSlots := by
  obtain ⟨u, hu⟩ := (h.out p hheld).owner
  exact (h.slots u _ (Pc.call_slot hu)).1

/-- What a step by thread `t` may do to the queue, the locks and its own place. -/
structure Moves (s : State T F cfg.vocab) (t : T) (queue : List (PendingDecode Nat)) (shared : Option T)
    (x : Pc F) : Prop where
  custody : (queue ++ x.carries).Subperm (s.batchedPending ++ (s.pc t).carries)
  unrun : ∀ p, p ∈ queue ++ x.unrun → p ∈ s.batchedPending ++ (s.pc t).unrun
  slot : x.slot = (s.pc t).slot
  /-- A thread leaves its call when nothing of it is out. -/
  call : ∀ p, (s.pc t).call = some p → x.call = some p ∨ ¬ Held Pc.carries queue (set s.pc t x) p
  shared : ∀ u, (set s.pc t x u).holdsShared = true → shared = some u
  fits : ∀ job, x.job = some job → job.Fits cfg
  left : ∀ job, x = .copying job → ∃ f ∈ s.forwards, Left cfg job f s.lastLogits
  answers : ∀ job ok rest, x = .answering job ok rest →
    ∀ p logits, (p, some logits) ∈ rest → Answered s p logits

theorem held_before {queue : List (PendingDecode Nat)} {x : Pc F}
    (hsub : (queue ++ x.carries).Subperm (s.batchedPending ++ (s.pc t).carries))
    {p : PendingDecode Nat} (hp : Held Pc.carries queue (set s.pc t x) p) :
    Held Pc.carries s.batchedPending s.pc p := by
  refine hp.of_set fun q hq => ?_
  obtain ⟨l, hperm, hl⟩ := hsub
  exact hl.subset (hperm.mem_iff.mpr hq)

theorem moved (h : Inv s) {queue : List (PendingDecode Nat)} {lock dispatcher shared : Option T} {x : Pc F}
    (hm : Moves s t queue shared x) :
    Inv { s with
      batchedPending := queue, queueLock := lock, dispatcher := dispatcher, shared := shared
      pc := set s.pc t x } where
  custody := h.custody.move hm.custody
  out p hp := by
    obtain ⟨⟨u, hu⟩, hcall, hnone⟩ := h.out p (held_before hm.custody hp)
    refine ⟨?_, hcall, hnone⟩
    by_cases hut : u = t
    · subst hut
      rcases hm.call p hu with hx | hx
      · exact ⟨u, by dsimp only; rw [set_self]; exact hx⟩
      · exact absurd hp hx
    · exact ⟨u, by dsimp only; rw [set_ne _ _ hut]; exact hu⟩
  slots := set_cases (P := fun (u : T) (pc : Pc F) => ∀ k, pc.slot = some k →
    k < cfg.inflightSlots ∧ s.slotInUse k = some u) (by rw [hm.slot]; exact h.slots t) fun u _ => h.slots u
  bound := h.bound
  shared := hm.shared
  fits := set_cases (P := fun (_ : T) (pc : Pc F) => ∀ job, pc.job = some job → job.Fits cfg) hm.fits
    fun u _ => h.fits u
  left := set_cases (P := fun (_ : T) (pc : Pc F) => ∀ job, pc = .copying job →
    ∃ f ∈ s.forwards, Left cfg job f s.lastLogits) hm.left fun u _ => h.left u
  unrun p hp := h.unrun p (hp.of_set hm.unrun)
  once := h.once
  ran := h.ran
  apart := h.apart
  answers := set_cases (P := fun (_ : T) (pc : Pc F) => ∀ job ok rest, pc = .answering job ok rest →
    ∀ p logits, (p, some logits) ∈ rest → Answered s p logits) hm.answers fun u _ => h.answers u
  sent := h.sent
  returns := h.returns
  prefills := h.prefills

omit [DecidableEq T] in
theorem returned (h : Inv s) {call : Nat} {logits : List F} (hright : Rightly s call logits) :
    Inv (s.returned call logits) :=
  { h with
    out := fun p hp => ⟨(h.out p hp).owner, (h.out p hp).call, (h.out p hp).unanswered⟩
    returns := by
      intro c l hmem
      rcases List.mem_append.mp hmem with hmem | hmem
      · exact h.returns c l hmem
      · cases List.mem_singleton.mp hmem
        exact hright }

omit [DecidableEq T] in
theorem prefilled (h : Inv s) {row : Row} {logits : List F}
    (hrow : ∃ f ∈ s.forwards, ∃ j, f.rows[j]? = some row ∧ logits = (f.logits j).toList) :
    Inv (s.prefilled row logits) :=
  { h with
    out := fun p hp => ⟨(h.out p hp).owner, (h.out p hp).call, (h.out p hp).unanswered⟩
    prefills := by
      intro r l hmem
      rcases List.mem_append.mp hmem with hmem | hmem
      · exact h.prefills r l hmem
      · cases List.mem_singleton.mp hmem
        exact hrow }

omit [DecidableEq T] in
/-- A response for a call of which nothing is out. -/
theorem send (h : Inv s) {p : PendingDecode Nat} {result : Option (List F)}
    (hcall : s.calls[p.response]? = some p) (hgone : ∀ q, Held Pc.carries s.batchedPending s.pc q →
      q.response ≠ p.response) (hright : ∀ logits, result = some logits → Answered s p logits) :
    Inv (s.send p.response result) :=
  { h with
    out := by
      intro q hq
      obtain ⟨howner, hq', hnone⟩ := h.out q hq
      refine ⟨howner, hq', ?_⟩
      change set s.channel p.response (some result) q.response = none
      rw [set_ne _ _ (hgone q hq)]
      exact hnone
    bound := by
      intro c hc
      change set s.channel p.response (some result) c ≠ none at hc
      by_cases heq : c = p.response
      · rw [heq]
        exact (List.getElem?_eq_some_iff.mp hcall).1
      · rw [set_ne _ _ heq] at hc
        exact h.bound c hc
    sent := by
      intro c logits hc
      change set s.channel p.response (some result) c = _ at hc
      by_cases heq : c = p.response
      · rw [heq, set_self] at hc
        rw [heq]
        exact ⟨p, hcall, rfl, hright logits (Option.some.inj hc)⟩
      · rw [set_ne _ _ heq] at hc
        exact h.sent c logits hc }

/-- The other threads' claims on the session stand, unless `t` had it. -/
theorem others_shared (h : Inv s) {shared : Option T} {x : Pc F}
    (hshared : shared = s.shared ∨ (s.pc t).holdsShared = true) {u : T} (hut : u ≠ t)
    (hu : (set s.pc t x u).holdsShared = true) : shared = some u := by
  rw [set_ne _ _ hut] at hu
  have hheld := h.shared u hu
  rcases hshared with rfl | ht
  · exact hheld
  · have hboth := h.shared t ht
    rw [hheld] at hboth
    exact absurd (Option.some.inj hboth) hut

/-- To a place without a job. -/
theorem toPlain (h : Inv s) {queue : List (PendingDecode Nat)} {shared : Option T} {x : Pc F}
    (hplain : x.plain = true) (hshared : shared = s.shared ∨ (s.pc t).holdsShared = true)
    (hsub : (queue ++ x.carries).Subperm (s.batchedPending ++ (s.pc t).carries))
    (hunrun : ∀ p, p ∈ queue ++ x.unrun → p ∈ s.batchedPending ++ (s.pc t).unrun)
    (hslot : x.slot = (s.pc t).slot)
    (hcall : ∀ p, (s.pc t).call = some p → x.call = some p ∨ ¬ Held Pc.carries queue (set s.pc t x) p) :
    Moves s t queue shared x where
  custody := hsub
  unrun := hunrun
  slot := hslot
  call := hcall
  shared u hu := by
    by_cases hut : u = t
    · subst hut
      rw [set_self] at hu
      cases x <;> cases hplain <;> cases hu
    · exact h.others_shared hshared hut hu
  fits job hjob := by cases x <;> cases hplain <;> cases hjob
  left job hjob := by
    rw [hjob] at hplain
    cases hplain
  answers job ok rest hjob := by
    rw [hjob] at hplain
    cases hplain

/-- A step that moves no entry and ends no call. -/
theorem stays (h : Inv s) {lock dispatcher : Option T} {x y : Pc F} (hpc : s.pc t = y)
    (hplain : x.plain = true) (hcarries : x.carries = y.carries) (hunrun : x.unrun = y.unrun)
    (hslot : x.slot = y.slot) (hcall : x.call = y.call) :
    Inv { s with queueLock := lock, dispatcher := dispatcher, pc := set s.pc t x } := by
  subst hpc
  refine h.moved (h.toPlain hplain (.inl rfl) ?_ ?_ hslot ?_)
  · rw [hcarries]
  · rw [hunrun]
    exact fun p hp => hp
  · rw [hcall]
    exact fun p hp => .inl hp

/-- To the session's lock. -/
theorem toSession (h : Inv s) {queue : List (PendingDecode Nat)} {job : Job} (hfits : job.Fits cfg)
    (hsub : (queue ++ job.pending).Subperm (s.batchedPending ++ (s.pc t).carries))
    (hunrun : ∀ p, p ∈ queue ++ job.pending → p ∈ s.batchedPending ++ (s.pc t).unrun)
    (hslot : some job.slotIdx = (s.pc t).slot) (hcall : job.mine = (s.pc t).call) :
    Moves s t queue s.shared (.session job) where
  custody := hsub
  unrun := hunrun
  slot := hslot
  call p hp := .inl (hcall.trans hp)
  shared u hu := by
    by_cases hut : u = t
    · subst hut
      rw [set_self] at hu
      cases hu
    · exact h.others_shared (.inl rfl) hut hu
  fits other hjob := by
    cases hjob
    exact hfits
  left other hjob := by cases hjob
  answers other ok rest hjob := by cases hjob

/-- To the answers of a job that has left the session. -/
theorem toAnswers (h : Inv s) {shared : Option T} {job : Job} {ok : Bool}
    {rest : List (PendingDecode Nat × Option (List F))}
    (hshared : shared = s.shared ∨ (s.pc t).holdsShared = true)
    (hsub : (rest.map Prod.fst).Subperm (s.pc t).carries)
    (hslot : some job.slotIdx = (s.pc t).slot)
    (hcall : (Pc.answering job ok rest).call = (s.pc t).call)
    (hanswers : ∀ p logits, (p, some logits) ∈ rest → Answered s p logits) :
    Moves s t s.batchedPending shared (.answering job ok rest) where
  custody := (List.subperm_append_left _).mpr hsub
  unrun p hp := by
    rcases List.mem_append.mp hp with hp | hp
    · exact List.mem_append_left _ hp
    · cases hp
  slot := hslot
  call p hp := .inl (hcall.trans hp)
  shared u hu := by
    by_cases hut : u = t
    · subst hut
      rw [set_self] at hu
      cases hu
    · exact h.others_shared hshared hut hu
  fits other hjob := by cases hjob
  left other hjob := by cases hjob
  answers other ok' rest' hjob := by
    cases hjob
    exact hanswers

/-- A call begins, with the next number for its channel. -/
theorem opened (h : Inv s) {entry : PendingDecode Nat} {x : Pc F} (hnext : entry.response = s.calls.length)
    (hready : s.pc t = .ready entry.slotIdx)
    (hx : x = .session (.one entry) ∨ x = .enqueue entry) : Inv ((s.open_ entry).goto t x) := by
  have hslot : (s.pc t).slot = some entry.slotIdx := by rw [hready]; rfl
  have hcarries : x.carries = [entry] := by rcases hx with rfl | rfl <;> rfl
  have hcall : x.call = some entry := by rcases hx with rfl | rfl <;> rfl
  have hsame : x.slot = (s.pc t).slot := by rw [hslot]; rcases hx with rfl | rfl <;> rfl
  have hunrun : x.unrun = [entry] := by rcases hx with rfl | rfl <;> rfl
  have hfree : ∀ p, Held Pc.carries s.batchedPending s.pc p → p.response < s.calls.length := fun p hp =>
    (List.getElem?_eq_some_iff.mp (h.out p hp).call).1
  have hgrown : ∀ {c : Nat} {p : PendingDecode Nat}, s.calls[c]? = some p →
      (s.calls ++ [entry])[c]? = some p := by
    intro c p hc
    rw [List.getElem?_append_left (List.getElem?_eq_some_iff.mp hc).1]
    exact hc
  have hheld : ∀ {carries : Pc F → List (PendingDecode Nat)}, carries x = [entry] → ∀ p,
      Held carries s.batchedPending (set s.pc t x) p → p = entry ∨ Held carries s.batchedPending s.pc p := by
    intro carries hone p hp
    rcases hp with hp | ⟨u, hp⟩
    · exact .inr (.inl hp)
    · by_cases hut : u = t
      · subst hut
        rw [set_self, hone] at hp
        exact .inl (List.mem_singleton.mp hp)
      · rw [set_ne _ _ hut] at hp
        exact .inr (.inr ⟨u, hp⟩)
  have hright : ∀ {c : Nat} {logits : List F}, Rightly s c logits →
      Rightly ((s.open_ entry).goto t x) c logits := fun ⟨p, hp, ha⟩ =>
    ⟨p, hgrown hp, ha⟩
  refine ⟨h.custody.enter hcarries ?_, ?_, ?_, ?_, ?_, ?_, ?_, ?_, h.once, ?_, h.apart, ?_, fun c l hc =>
    hright (h.sent c l hc), fun c l hc => hright (h.returns c l hc), h.prefills⟩
  · intro p hp heq
    have hlt := hfree p hp
    omega
  · intro p hp
    rcases hheld hcarries p hp with rfl | hp
    · refine ⟨⟨t, ?_⟩, ?_, ?_⟩
      · change (set s.pc t x t).call = _
        rw [set_self]
        exact hcall
      · change (s.calls ++ [p])[p.response]? = _
        rw [hnext, List.getElem?_append_right (Nat.le_refl _), Nat.sub_self]
        rfl
      · by_contra hsome
        have hlt := h.bound _ hsome
        omega
    · obtain ⟨⟨u, hu⟩, hcalls, hnone⟩ := h.out p hp
      refine ⟨⟨u, ?_⟩, hgrown hcalls, hnone⟩
      change (set s.pc t x u).call = _
      have hut : u ≠ t := by
        rintro rfl
        rw [hready] at hu
        cases hu
      rw [set_ne _ _ hut]
      exact hu
  · exact set_cases (P := fun (u : T) (pc : Pc F) => ∀ k, pc.slot = some k →
      k < cfg.inflightSlots ∧ s.slotInUse k = some u) (by rw [hsame]; exact h.slots t) fun u _ => h.slots u
  · intro c hc
    have hlt := h.bound c hc
    change c < (s.calls ++ [entry]).length
    rw [List.length_append]
    omega
  · refine set_cases (P := fun (u : T) (pc : Pc F) => pc.holdsShared = true → s.shared = some u) ?_
      fun u _ => h.shared u
    intro hu
    rcases hx with rfl | rfl <;> cases hu
  · refine set_cases (P := fun (_ : T) (pc : Pc F) => ∀ job, pc.job = some job → job.Fits cfg) ?_
      fun u _ => h.fits u
    intro job hjob
    have hfit := (h.slots t _ hslot).1
    rcases hx with rfl | rfl <;> cases hjob
    exact ⟨hfit, fun p hp => by cases List.mem_singleton.mp hp; exact hfit, List.nodup_nil⟩
  · refine set_cases (P := fun (_ : T) (pc : Pc F) => ∀ job, pc = .copying job →
      ∃ f ∈ s.forwards, Left cfg job f s.lastLogits) ?_ fun u _ => h.left u
    intro job hjob
    rcases hx with rfl | rfl <;> cases hjob
  · intro p hp hmem
    rcases hheld hunrun p hp with rfl | hp
    · have hlt := h.ran _ hmem
      omega
    · exact h.unrun p hp hmem
  · intro c hc
    have hlt := h.ran c hc
    change c < (s.calls ++ [entry]).length
    rw [List.length_append]
    omega
  · refine set_cases (P := fun (_ : T) (pc : Pc F) => ∀ job ok rest, pc = .answering job ok rest →
      ∀ p logits, (p, some logits) ∈ rest → Answered s p logits) ?_ fun u _ => h.answers u
    intro job ok rest hpc
    rcases hx with rfl | rfl <;> cases hpc

/-- The rows of a forward belong to the entries of its job. -/
theorem entries_calls (job : Job) :
    (job.entries cfg).filterMap id = job.pending.map PendingDecode.response := by
  have hreplicate : ∀ n, (List.replicate n (none : Option Nat)).filterMap id = [] := by
    intro n
    induction n with
    | zero => rfl
    | succ n ih => rw [List.replicate_succ, List.filterMap_cons_none rfl, ih]
  have hmap : ∀ batch : List (PendingDecode Nat),
      (batch.map fun p => some p.response).filterMap id = batch.map PendingDecode.response := by
    intro batch
    rw [List.filterMap_map]
    exact List.filterMap_eq_map ▸ rfl
  cases job with
  | one entry => rfl
  | batched mine batch => exact hmap batch
  | mixed c batch =>
    change (List.replicate _ none ++ _).filterMap id = _
    rw [List.filterMap_append, hreplicate, List.nil_append]
    exact hmap batch
  | prefill c at_ => exact hreplicate _

/-- Where a forward leaves its thread: before the next micro-batch, or before the copies. -/
def afterForward (F : Type) (cfg : Config) (job : Job) : Pc F :=
  match job.more cfg with
  | some next => .running next
  | none => .copying job

/-- Only a prefill runs again, and it carries no entry. -/
theorem more_prefill {job next : Job} (h : job.more cfg = some next) :
    ∃ c at_, job = .prefill c at_ ∧ next = .prefill c (at_ + cfg.prefillUbatch) := by
  cases job with
  | prefill c at_ =>
    unfold Job.more at h
    dsimp only at h
    split at h
    · exact ⟨c, at_, rfl, (Option.some.inj h).symm⟩
    · cases h
  | _ => cases h

/-- A forward puts the job's entries behind the ones that ran before. -/
theorem ranJob (h : Inv s) {job : Job} {request : Request} (hpc : s.pc t = .running job)
    (hrequest : job.request cfg = some request) (logits : Nat → Vector F cfg.vocab) :
    Inv ((s.ran cfg job request logits).goto t (afterForward F cfg job)) := by
  have hx : (afterForward F cfg job).carries = job.pending ∧ (afterForward F cfg job).unrun = [] ∧
      (afterForward F cfg job).slot = (s.pc t).slot ∧ (afterForward F cfg job).call = (s.pc t).call ∧
      (∀ other, (afterForward F cfg job).job = some other → other.Fits cfg) ∧
      (∀ other ok rest, afterForward F cfg job ≠ .answering other ok rest) ∧
      (∀ other, afterForward F cfg job = .copying other → other = job ∧ job.more cfg = none) := by
    have hfits : job.Fits cfg := h.fits t job (by rw [hpc]; rfl)
    rw [hpc]
    unfold afterForward
    cases hmore : job.more cfg with
    | none =>
      refine ⟨rfl, rfl, rfl, rfl, ?_, ?_, ?_⟩
      · intro other hother
        cases hother
        exact hfits
      · intro other ok rest hother
        cases hother
      · intro other hother
        cases hother
        exact ⟨rfl, rfl⟩
    | some next =>
      obtain ⟨c, at_, rfl, rfl⟩ := more_prefill hmore
      refine ⟨rfl, rfl, rfl, rfl, ?_, ?_, ?_⟩
      · intro other hother
        cases hother
        exact ⟨hfits.own, (fun p hp => by cases hp), List.nodup_nil⟩
      · intro other ok rest hother
        cases hother
      · intro other hother
        cases hother
  obtain ⟨hcarries, hunrun, hslot, hcall, hfits, hanswers, hcopying⟩ := hx
  have hmine : (s.pc t).carries = job.pending := by rw [hpc]; rfl
  have hmineUnrun : (s.pc t).unrun = job.pending := by rw [hpc]; rfl
  have hheld : ∀ p ∈ job.pending, Held Pc.carries s.batchedPending s.pc p := fun p hp =>
    .inr ⟨t, by rw [hmine]; exact hp⟩
  have hrun : forwarded ((s.ran cfg job request logits).goto t (afterForward F cfg job)) =
      forwarded s ++ job.pending.map PendingDecode.response := by
    change (s.forwards ++ [_]).flatMap _ = _
    rw [List.flatMap_append, List.flatMap_singleton]
    exact congrArg _ (entries_calls job)
  have hmono : ∀ {p : PendingDecode Nat} {l : List F}, Answered s p l →
      Answered ((s.ran cfg job request logits).goto t (afterForward F cfg job)) p l := fun ⟨f, hf, hrow⟩ =>
    ⟨f, List.mem_append_left _ hf, hrow⟩
  have hright : ∀ {c : Nat} {l : List F}, Rightly s c l →
      Rightly ((s.ran cfg job request logits).goto t (afterForward F cfg job)) c l := fun ⟨p, hp, hr, ha⟩ =>
    ⟨p, hp, hr, hmono ha⟩
  have hsub : (s.batchedPending ++ (afterForward F cfg job).carries).Subperm
      (s.batchedPending ++ (s.pc t).carries) := by
    rw [hcarries, hmine]
  refine ⟨h.custody.move hsub, ?_, ?_, h.bound, ?_, ?_, ?_, ?_, ?_, ?_, ?_, ?_,
    fun c l hc => hright (h.sent c l hc), fun c l hc => hright (h.returns c l hc), ?_⟩
  · intro p hp
    obtain ⟨⟨u, hu⟩, hcalls, hnone⟩ := h.out p (held_before hsub hp)
    refine ⟨⟨u, ?_⟩, hcalls, hnone⟩
    change (set s.pc t _ u).call = _
    by_cases hut : u = t
    · subst hut
      rw [set_self, hcall]
      exact hu
    · rw [set_ne _ _ hut]
      exact hu
  · exact set_cases (P := fun (u : T) (pc : Pc F) => ∀ k, pc.slot = some k →
      k < cfg.inflightSlots ∧ s.slotInUse k = some u) (by rw [hslot]; exact h.slots t) fun u _ => h.slots u
  · intro u hu
    by_cases hut : u = t
    · subst hut
      exact h.shared u (by rw [hpc]; rfl)
    · exact h.others_shared (.inl rfl) hut hu
  · exact set_cases (P := fun (_ : T) (pc : Pc F) => ∀ job, pc.job = some job → job.Fits cfg) hfits
      fun u _ => h.fits u
  · intro u other hother
    change set s.pc t _ u = .copying other at hother
    by_cases hut : u = t
    · subst hut
      rw [set_self] at hother
      obtain ⟨rfl, hmore⟩ := hcopying other hother
      exact ⟨_, List.mem_append_right _ List.mem_cons_self, hmore, rfl, request, hrequest, rfl, rfl⟩
    · -- Two threads would hold the session.
      rw [set_ne _ _ hut] at hother
      have hu := h.shared u (by rw [hother]; rfl)
      have ht := h.shared t (by rw [hpc]; rfl)
      rw [hu] at ht
      exact absurd (Option.some.inj ht) hut
  · intro p hp hmem
    rw [hrun] at hmem
    rcases List.mem_append.mp hmem with hmem | hmem
    · refine h.unrun p (hp.of_set fun q hq => ?_) hmem
      rw [hunrun, List.append_nil] at hq
      exact List.mem_append_left _ hq
    · obtain ⟨q, hq, heq⟩ := List.mem_map.mp hmem
      rcases hp with hp | ⟨u, hp⟩
      · exact h.custody.pool_apart hp (by rw [hmine]; exact hq) heq.symm
      · change p ∈ (set s.pc t _ u).unrun at hp
        by_cases hut : u = t
        · subst hut
          rw [set_self, hunrun] at hp
          cases hp
        · rw [set_ne _ _ hut] at hp
          exact h.custody.apart u t hut p (Pc.unrun_carries hp) q (by rw [hmine]; exact hq) heq.symm
  · rw [hrun]
    have hnodup := h.custody.nodup t
    rw [List.map_append, hmine] at hnodup
    refine List.Nodup.append h.once hnodup.of_append_right ?_
    rw [List.disjoint_iff_ne]
    intro c hc d hd heq
    obtain ⟨q, hq, rfl⟩ := List.mem_map.mp hd
    exact h.unrun q (.inr ⟨t, by rw [hmineUnrun]; exact hq⟩) (heq ▸ hc)
  · intro c hc
    rw [hrun] at hc
    rcases List.mem_append.mp hc with hc | hc
    · exact h.ran c hc
    · obtain ⟨q, hq, rfl⟩ := List.mem_map.mp hc
      exact (List.getElem?_eq_some_iff.mp (h.out q (hheld q hq)).call).1
  · intro f hf
    rcases List.mem_append.mp hf with hf | hf
    · exact h.apart f hf
    · cases List.mem_singleton.mp hf
      exact (h.fits t job (by rw [hpc]; rfl)).apart hrequest
  · refine set_cases (P := fun (_ : T) (pc : Pc F) => ∀ other ok rest, pc = .answering other ok rest →
      ∀ p logits, (p, some logits) ∈ rest → Answered _ p logits) ?_ ?_
    · exact fun other ok rest hother => absurd hother (hanswers other ok rest)
    · exact fun u _ other ok rest hother p l hmem => hmono (h.answers u other ok rest hother p l hmem)
  · intro row l hmem
    obtain ⟨f, hf, hrow⟩ := h.prefills row l hmem
    exact ⟨f, List.mem_append_left _ hf, hrow⟩

/-- A thread's slot is claimed or given back while it has no call. -/
theorem reslot (h : Inv s) {k : Nat} {owner : Option T} {x : Pc F}
    (hidle : s.pc t = .idle ∧ x = .ready k ∧ owner = some t ∧ k < cfg.inflightSlots ∧ s.slotInUse k = none ∨
      s.pc t = .ready k ∧ x = .idle ∧ owner = none) : Inv ((s.setSlot k owner).goto t x) := by
  have hempty : (s.pc t).carries = [] ∧ (s.pc t).unrun = [] ∧ (s.pc t).call = none ∧ x.carries = [] ∧
      x.unrun = [] ∧ x.plain = true := by
    rcases hidle with ⟨hpc, rfl, -⟩ | ⟨hpc, rfl, -⟩ <;> rw [hpc] <;> exact ⟨rfl, rfl, rfl, rfl, rfl, rfl⟩
  obtain ⟨hcarries, hunrun, hcall, hx, hx', hplain⟩ := hempty
  have hsub : (s.batchedPending ++ x.carries).Subperm (s.batchedPending ++ (s.pc t).carries) := by
    rw [hcarries, hx]
  have hthere : ∀ {P : Pc F → Prop} {u : T}, ¬ P x → P (set s.pc t x u) → u ≠ t ∧ P (s.pc u) := by
    intro P u hnot hu
    by_cases hut : u = t
    · subst hut
      rw [set_self] at hu
      exact absurd hu hnot
    · rw [set_ne _ _ hut] at hu
      exact ⟨hut, hu⟩
  refine ⟨h.custody.move hsub, ?_, ?_, h.bound, ?_, ?_, ?_, ?_, h.once, h.ran, h.apart, ?_, h.sent, h.returns,
    h.prefills⟩
  · intro p hp
    obtain ⟨⟨u, hu⟩, hcalls, hnone⟩ := h.out p (held_before hsub hp)
    refine ⟨⟨u, ?_⟩, hcalls, hnone⟩
    have hut : u ≠ t := by
      rintro rfl
      rw [hcall] at hu
      cases hu
    change (set s.pc t x u).call = _
    rw [set_ne _ _ hut]
    exact hu
  · intro u j hj
    change (set s.pc t x u).slot = some j at hj
    change j < cfg.inflightSlots ∧ set s.slotInUse k owner j = some u
    by_cases hut : u = t
    · subst hut
      rw [set_self] at hj
      rcases hidle with ⟨-, rfl, rfl, hk, -⟩ | ⟨-, rfl, -⟩
      · cases hj
        exact ⟨hk, set_self ..⟩
      · cases hj
    · rw [set_ne _ _ hut] at hj
      obtain ⟨hfit, hheld⟩ := h.slots u j hj
      have hjk : j ≠ k := by
        rintro rfl
        rcases hidle with ⟨-, -, -, -, hfree⟩ | ⟨hpc, -⟩
        · rw [hfree] at hheld
          cases hheld
        · have hmine := (h.slots t j (by rw [hpc]; rfl)).2
          rw [hheld] at hmine
          exact hut (Option.some.inj hmine)
      exact ⟨hfit, (set_ne _ _ hjk).trans hheld⟩
  · intro u hu
    exact h.shared u (hthere (P := fun pc => pc.holdsShared = true)
      (fun hx => by cases x <;> cases hplain <;> cases hx) hu).2
  · intro u job hjob
    exact h.fits u job (hthere (P := fun pc => pc.job = some job)
      (fun hx => by cases x <;> cases hplain <;> cases hx) hjob).2
  · intro u job hjob
    exact h.left u job (hthere (P := fun pc => pc = .copying job)
      (fun hx => by rw [hx] at hplain; cases hplain) hjob).2
  · intro p hp
    refine h.unrun p (hp.of_set fun q hq => ?_)
    rw [hx'] at hq
    change q ∈ s.batchedPending ++ (s.pc t).unrun
    rw [hunrun]
    exact hq
  · intro u job ok rest hpc
    exact h.answers u job ok rest (hthere (P := fun pc => pc = .answering job ok rest)
      (fun hx => by rw [hx] at hplain; cases hplain) hpc).2

/-- A thread that has its answer leaves its call. -/
theorem done (h : Inv s) {entry : PendingDecode Nat} {result : Option (List F)}
    (hpc : s.pc t = .waiting entry) (hresult : s.channel entry.response = some result) :
    Moves s t s.batchedPending s.shared (.ready entry.slotIdx) := by
  refine h.toPlain rfl (.inl rfl) ?_ ?_ ?_ ?_
  · rw [hpc]
    rfl
  · rw [hpc]
    exact fun p hp => hp
  · rw [hpc]
    rfl
  · intro p hp
    refine .inr fun hheld => ?_
    rw [hpc] at hp
    cases hp
    have hbefore := held_before (by rw [hpc]; rfl) hheld
    rw [(h.out _ hbefore).unanswered] at hresult
    cases hresult

/-! The steps. -/

theorem decodeStep_keeps (h : Inv s) (hs : decodeStep s t = some s') : Inv s' := by
  unfold decodeStep at hs
  split at hs
  · rename_i entry hpc
    split at hs <;> cases hs
    exact h.stays hpc rfl rfl rfl rfl rfl
  · rename_i entry hpc
    cases hs
    refine h.moved (h.toPlain rfl (.inl rfl) ?_ ?_ ?_ ?_) <;> rw [hpc]
    · change (s.batchedPending ++ [entry] ++ []).Subperm (s.batchedPending ++ [entry])
      rw [List.append_nil]
    · intro p hp
      change p ∈ s.batchedPending ++ [entry] ++ [] at hp
      rw [List.append_nil] at hp
      exact hp
    · rfl
    · exact fun p hp => .inl hp
  · rename_i entry hpc
    split at hs <;> cases hs
    · exact h.stays hpc rfl rfl rfl rfl rfl
    · exact h.stays hpc rfl rfl rfl rfl rfl
  · rename_i entry hpc
    split at hs <;> cases hs
    exact h.stays hpc rfl rfl rfl rfl rfl
  · rename_i entry hpc
    split at hs <;> cases hs
    · exact h.stays hpc rfl rfl rfl rfl rfl
    · have hnodup := h.custody.nodup t
      rw [List.map_append] at hnodup
      have hfits : (Job.batched entry s.batchedPending).Fits cfg :=
        ⟨(h.slots t entry.slotIdx (by rw [hpc]; rfl)).1, fun p hp => h.slots_fit (.inl hp),
          h.slots_nodup (fun p hp => .inl hp) hnodup.of_append_left⟩
      refine h.moved (h.toSession hfits ?_ ?_ ?_ ?_) <;> rw [hpc]
      · change ([] ++ s.batchedPending).Subperm (s.batchedPending ++ [])
        rw [List.append_nil, List.nil_append]
      · exact fun p hp => List.mem_append_left _ hp
      · rfl
      · rfl
  · rename_i entry hpc
    cases hs
    exact h.stays hpc rfl rfl rfl rfl rfl
  · rename_i entry hpc
    split at hs
    · rename_i logits hresult
      cases hs
      exact (h.returned (h.sent _ _ hresult)).moved ((h.returned (h.sent _ _ hresult)).done hpc hresult)
    · rename_i hresult
      cases hs
      exact h.moved (h.done hpc hresult)
    · cases hs
  · cases hs

theorem prefillStep_keeps (h : Inv s) (hs : prefillStep cfg s t = some s') : Inv s' := by
  unfold prefillStep at hs
  split at hs
  · rename_i c hpc
    have hfits : (Job.prefill c 0).Fits cfg :=
      ⟨(h.slots t c.slotIdx (by rw [hpc]; rfl)).1, (fun p hp => by cases hp), List.nodup_nil⟩
    split at hs
    · split at hs
      · split at hs <;> cases hs
        exact h.stays hpc rfl rfl rfl rfl rfl
      · cases hs
        refine h.moved (h.toSession hfits ?_ ?_ ?_ ?_) <;> rw [hpc]
        · rfl
        · exact fun p hp => hp
        · rfl
        · rfl
    · cases hs
      exact h.stays hpc rfl rfl rfl rfl rfl
  · rename_i c hpc
    split at hs <;> cases hs
    exact h.stays hpc rfl rfl rfl rfl rfl
  · rename_i c hpc
    cases hs
    refine h.moved (h.toPlain rfl (.inl rfl) ?_ ?_ ?_ ?_) <;> rw [hpc]
    · change ([] ++ s.batchedPending).Subperm (s.batchedPending ++ [])
      rw [List.append_nil, List.nil_append]
    · exact fun p hp => List.mem_append_left _ hp
    · rfl
    · exact fun p hp => .inl hp
  · rename_i c batch hpc
    split at hs
    · rename_i hempty
      cases hs
      rw [List.isEmpty_iff.mp hempty] at hpc
      exact h.stays hpc rfl rfl rfl rfl rfl
    · split at hs
      · split at hs <;> cases hs
        exact h.stays hpc rfl rfl rfl rfl rfl
      · cases hs
        have hslot : (s.pc t).slot = some c.slotIdx := by rw [hpc]; rfl
        have hheld : ∀ p ∈ batch, Held Pc.carries s.batchedPending s.pc p := fun p hp =>
          .inr ⟨t, by rw [hpc]; exact hp⟩
        have hnodup := h.custody.nodup t
        rw [List.map_append, hpc] at hnodup
        have hother : c.slotIdx ∉ batch.map PendingDecode.slotIdx := by
          intro hmem
          obtain ⟨p, hp, heq⟩ := List.mem_map.mp hmem
          obtain ⟨u, hu⟩ := (h.out p (hheld p hp)).owner
          obtain rfl := h.owner_unique (q := ⟨c.slotIdx, 0, 0, 0⟩) hu hslot heq
          rw [hpc] at hu
          cases hu
        have hfits : (Job.mixed c batch).Fits cfg :=
          ⟨(h.slots t _ hslot).1, fun p hp => h.slots_fit (hheld p hp),
            List.nodup_cons.mpr ⟨hother, h.slots_nodup hheld hnodup.of_append_right⟩⟩
        refine h.moved (h.toSession hfits ?_ ?_ ?_ ?_) <;> rw [hpc]
        · rfl
        · exact fun p hp => hp
        · rfl
        · rfl
  · rename_i c batch hpc
    cases hs
    refine h.moved (h.toPlain rfl (.inl rfl) ?_ ?_ ?_ ?_) <;> rw [hpc]
    · change (s.batchedPending ++ batch ++ []).Subperm (s.batchedPending ++ batch)
      rw [List.append_nil]
    · intro p hp
      change p ∈ s.batchedPending ++ batch ++ [] at hp
      rw [List.append_nil] at hp
      exact hp
    · rfl
    · exact fun p hp => .inl hp
  · rename_i c andThen hpc
    cases hs
    cases andThen with
    | forward =>
      have hfits : (Job.prefill c 0).Fits cfg :=
        ⟨(h.slots t c.slotIdx (by rw [hpc]; rfl)).1, (fun p hp => by cases hp), List.nodup_nil⟩
      refine h.moved (h.toSession hfits ?_ ?_ ?_ ?_) <;> rw [hpc]
      · rfl
      · exact fun p hp => hp
      · rfl
      · rfl
    | next => exact h.stays hpc rfl rfl rfl rfl rfl
    | fail => exact h.stays hpc rfl rfl rfl rfl rfl
  · cases hs

/-- What a job that has failed leaves to be told. -/
theorem refusals_pending (job : Job) (hjob : ∀ entry, job ≠ .one entry) :
    (job.refusals F).map Prod.fst = job.pending := by
  have hmap : ∀ batch : List (PendingDecode Nat),
      (batch.map fun p => (p, (none : Option (List F)))).map Prod.fst = batch := by
    intro batch
    rw [List.map_map]
    exact List.map_id _
  cases job with
  | one entry => exact absurd rfl (hjob entry)
  | batched mine batch => exact hmap batch
  | mixed c batch => exact hmap batch
  | prefill c at_ => rfl

theorem refusals_none {job : Job} {p : PendingDecode Nat} {result : Option (List F)}
    (h : (p, result) ∈ job.refusals F) : result = none := by
  have hmap : ∀ batch : List (PendingDecode Nat),
      (p, result) ∈ (batch.map fun p => (p, (none : Option (List F)))) → result = none := by
    intro batch hmem
    obtain ⟨q, -, heq⟩ := List.mem_map.mp hmem
    cases heq
    rfl
  cases job with
  | batched mine batch => exact hmap batch h
  | mixed c batch => exact hmap batch h
  | _ => cases h

theorem answers_pending {lastLogits : List F} {job : Job} (hjob : ∀ entry, job ≠ .one entry) :
    (job.answers cfg lastLogits).map Prod.fst = job.pending := by
  have hmap : ∀ (batch : List (PendingDecode Nat)) (g : Nat → PendingDecode Nat → Option (List F)),
      (batch.mapIdx fun i p => (p, g i p)).map Prod.fst = batch := by
    intro batch g
    refine List.ext_getElem? fun i => ?_
    rw [List.getElem?_map, List.getElem?_mapIdx]
    cases batch[i]? <;> rfl
  cases job with
  | one entry => exact absurd rfl (hjob entry)
  | batched mine batch =>
    unfold Job.answers
    dsimp only
    split
    · rw [List.map_map]
      exact List.map_id _
    · exact hmap batch _
  | mixed c batch => exact hmap batch _
  | prefill c at_ => rfl

/-- A forward that failed: the session is dropped, and its entries are refused. -/
theorem failed (h : Inv s) {job : Job} (hpc : s.pc t = .running job) :
    Inv (s.dropShared.goto t (afterFailure F job)) := by
  have hholds : (s.pc t).holdsShared = true := by rw [hpc]; rfl
  have hanswering : (∀ entry, job ≠ .one entry) → (Pc.answering job false (job.refusals F)).call = job.mine →
      Inv (s.dropShared.goto t (.answering job false (job.refusals F))) := by
    intro hjob hcall
    refine h.moved (h.toAnswers (.inr hholds) ?_ ?_ ?_ ?_)
    · rw [hpc, refusals_pending job hjob]
      exact .refl _
    · rw [hpc]
      rfl
    · rw [hpc]
      exact hcall
    · intro p logits hmem
      cases refusals_none hmem
  cases job with
  | one entry =>
    refine h.moved (h.toPlain rfl (.inr hholds) ?_ ?_ ?_ ?_) <;> rw [hpc]
    · exact ((List.nil_sublist [entry]).append_left s.batchedPending).subperm
    · intro p hp
      change p ∈ s.batchedPending ++ [] at hp
      rw [List.append_nil] at hp
      exact List.mem_append_left _ hp
    · rfl
    · intro p hp
      cases hp
      exact .inr fun hheld => h.custody.gone (by rw [hpc]; rfl) entry hheld rfl
  | batched mine batch => exact hanswering (fun _ heq => by cases heq) rfl
  | mixed c batch => exact hanswering (fun _ heq => by cases heq) rfl
  | prefill c at_ =>
    refine h.moved (h.toPlain rfl (.inr hholds) ?_ ?_ ?_ ?_) <;> rw [hpc]
    · rfl
    · exact fun p hp => hp
    · rfl
    · exact fun p hp => by cases hp

/-- The rows that are copied out are the calls' own. -/
theorem copied (h : Inv s) {job : Job} (hpc : s.pc t = .copying job) : Inv (copyOut cfg s t job) := by
  have hholds : (s.pc t).holdsShared = true := by rw [hpc]; rfl
  have hfits : job.Fits cfg := h.fits t job (by rw [hpc]; rfl)
  obtain ⟨f, hf, hleft⟩ := h.left t job hpc
  cases job with
  | one entry =>
    have hout := h.out entry (.inr ⟨t, by rw [hpc]; exact List.mem_cons_self⟩)
    have hright : Rightly s entry.response s.lastLogits :=
      ⟨entry, hout.call, rfl, f, hf, hleft.alone rfl rfl hfits.own⟩
    have h' := h.returned hright
    refine h'.moved (h'.toPlain rfl (.inr hholds) ?_ ?_ ?_ ?_) <;> change s.pc t = _ at hpc <;>
      dsimp only [State.returned] <;> rw [hpc]
    · exact ((List.nil_sublist [entry]).append_left s.batchedPending).subperm
    · exact fun p hp => hp
    · rfl
    · intro p hp
      cases hp
      exact .inr fun hheld => h.custody.gone (by rw [hpc]; rfl) entry hheld rfl
  | batched mine batch =>
    refine h.moved (h.toAnswers (.inr hholds) ?_ ?_ ?_ ?_)
    · rw [hpc, answers_pending fun _ heq => by cases heq]
      exact .refl _
    · rw [hpc]
      rfl
    · rw [hpc]
      rfl
    · exact fun p logits hmem => ⟨f, hf, hleft.batched hfits.pending hfits.distinct hmem⟩
  | mixed c batch =>
    have h' := h.prefilled ⟨f, hf, hleft.mixed_prefill hfits.pending hfits.own hfits.distinct⟩
    refine h'.moved (h'.toAnswers (.inr hholds) ?_ ?_ ?_ ?_)
    · dsimp only [State.prefilled]
      rw [hpc, answers_pending fun _ heq => by cases heq]
      exact .refl _
    · dsimp only [State.prefilled]
      rw [hpc]
      rfl
    · dsimp only [State.prefilled]
      rw [hpc]
      rfl
    · exact fun p logits hmem => ⟨f, hf, hleft.mixed hfits.pending hfits.own hfits.distinct hmem⟩
  | prefill c at_ =>
    have h' := h.prefilled ⟨f, hf, hleft.prefill⟩
    refine h'.moved (h'.toPlain rfl (.inr hholds) ?_ ?_ ?_ ?_) <;> dsimp only [State.prefilled] <;> rw [hpc]
    · rfl
    · exact fun p hp => hp
    · rfl
    · exact fun p hp => by cases hp

theorem sessionStep_keeps (h : Inv s) {logits : Option (Nat → Vector F cfg.vocab)}
    (hs : sessionStep cfg s t logits = some s') : Inv s' := by
  unfold sessionStep at hs
  split at hs
  · rename_i job hpc
    split at hs
    · rename_i hfree
      cases hs
      have hfits : job.Fits cfg := h.fits t job (by rw [hpc]; rfl)
      refine h.moved ⟨?_, ?_, ?_, ?_, ?_, ?_, ?_, ?_⟩
      · rw [hpc]
        rfl
      · rw [hpc]
        exact fun p hp => hp
      · rw [hpc]
        rfl
      · rw [hpc]
        exact fun p hp => .inl hp
      · intro u hu
        by_cases hut : u = t
        · exact congrArg some hut.symm
        · have hother := h.others_shared (.inl rfl) hut hu
          rw [hfree] at hother
          cases hother
      · intro other hother
        cases hother
        exact hfits
      · intro other hother
        cases hother
      · intro other ok rest hother
        cases hother
    · cases hs
  · rename_i job hpc
    split at hs
    · rename_i request logits hrequest
      cases hs
      exact h.ranJob hpc hrequest logits
    · cases hs
      exact h.failed hpc
  · rename_i job hpc
    cases hs
    exact h.copied hpc
  · rename_i job ok hpc
    cases hs
    cases job with
    | one entry => exact h.stays hpc rfl rfl rfl rfl rfl
    | batched mine batch => exact h.stays hpc rfl rfl rfl rfl rfl
    | mixed c batch => exact h.stays hpc rfl rfl rfl rfl rfl
    | prefill c at_ => exact h.stays hpc rfl rfl rfl rfl rfl
  · rename_i job ok p result rest hpc
    cases hs
    have hcarries : (s.pc t).carries = p :: (Pc.answering job ok rest : Pc F).carries := by rw [hpc]; rfl
    have hout := h.out p (.inr ⟨t, by rw [hcarries]; exact List.mem_cons_self⟩)
    have hanswers := h.answers t job ok _ hpc
    have hm : Moves s t s.batchedPending s.shared (.answering job ok rest) := by
      refine h.toAnswers (.inl rfl) ?_ ?_ ?_ ?_
      · rw [hcarries]
        exact (List.sublist_cons_self ..).subperm
      · rw [hpc]
        rfl
      · rw [hpc]
        cases job <;> rfl
      · exact fun q logits hmem => hanswers q logits (List.mem_cons_of_mem _ hmem)
    refine (h.moved hm).send hout.call (h.custody.gone hcarries) ?_
    rintro logits rfl
    exact hanswers p logits List.mem_cons_self
  · cases hs

theorem step_keeps (h : Inv s) {c : Choice F cfg.vocab} (hs : step cfg s t c = some s') : Inv s' := by
  unfold step at hs
  split at hs
  · rename_i slotIdx hpc
    split at hs
    · rename_i hfree
      cases hs
      exact h.reslot (.inl ⟨hpc, rfl, rfl, hfree⟩)
    · cases hs
  · rename_i slotIdx tokenId position alone hpc
    cases hs
    refine @opened _ _ _ _ _ _ h ⟨slotIdx, tokenId, position, s.calls.length⟩ _ rfl hpc ?_
    cases alone
    · exact .inr rfl
    · exact .inl rfl
  · rename_i slotIdx promptIds start hpc
    cases hs
    exact h.stays hpc rfl rfl rfl rfl rfl
  · rename_i slotIdx hpc
    cases hs
    exact h.reslot (.inr ⟨hpc, rfl, rfl⟩)
  · cases hdecode : decodeStep s t with
    | some next =>
      rw [hdecode] at hs
      cases hs
      exact h.decodeStep_keeps hdecode
    | none =>
      cases hprefill : prefillStep cfg s t with
      | some next =>
        rw [hdecode, hprefill] at hs
        cases hs
        exact h.prefillStep_keeps hprefill
      | none =>
        rw [hdecode, hprefill] at hs
        exact h.sessionStep_keeps hs
  · cases hs

theorem initial (hinit : (routing T F cfg).init s) : Inv s := by
  cases hinit
  have hnone : ∀ {carries : Pc F → List (PendingDecode Nat)} {p}, carries .idle = [] →
      ¬ Held carries [] (fun _ : T => Pc.idle) p := by
    intro carries p hidle hp
    rcases hp with hp | ⟨u, hp⟩
    · cases hp
    · rw [hidle] at hp
      cases hp
  refine ⟨⟨fun u => List.nodup_nil, fun u v huv p hp => by cases hp⟩, fun p hp => absurd hp (hnone rfl), ?_, ?_,
    ?_, ?_, ?_, fun p hp => absurd hp (hnone rfl), List.nodup_nil, ?_, ?_, ?_, ?_, ?_, ?_⟩
  · intro u k hk
    cases hk
  · intro c hc
    exact absurd rfl hc
  · intro u hu
    cases hu
  · intro u job hjob
    cases hjob
  · intro u job hjob
    cases hjob
  · intro c hc
    cases hc
  · intro f hf
    cases hf
  · intro u job ok rest hpc
    cases hpc
  · intro c logits hc
    cases hc
  · intro c logits hc
    cases hc
  · intro row logits hmem
    cases hmem

end Inv

theorem reachable_inv (h : (routing T F cfg).Reachable s) : Inv s :=
  System.Run.invariant (fun _ => Inv.initial) (fun _ _ _ hinv _ hs => hinv.step_keeps hs) h

/-- No call's entry is in two forwards, and whatever a call or a prefilled chunk returns
is the row that a forward computed for its own slot, token and position. -/
theorem replies_own_rows (h : (routing T F cfg).Reachable s) :
    (forwarded s).Nodup ∧
    (∀ call logits, (call, logits) ∈ s.returns → ∃ p, s.calls[call]? = some p ∧ p.response = call ∧
      ∃ f ∈ s.forwards, RowFor f p logits) ∧
    (∀ row logits, (row, logits) ∈ s.prefills →
      ∃ f ∈ s.forwards, ∃ j, f.rows[j]? = some row ∧ logits = (f.logits j).toList) :=
  have hinv := reachable_inv h
  ⟨hinv.once, hinv.returns, hinv.prefills⟩

/-- No forward has two calls, or a call and a chunk, in one KV slot. -/
theorem forwards_apart (h : (routing T F cfg).Reachable s) : ∀ f ∈ s.forwards, ∀ (i j : Nat) (a b : Row),
    i ≠ j → f.rows[i]? = some a → f.rows[j]? = some b → a.slotId = b.slotId →
    f.entries[i]? = some none ∧ f.entries[j]? = some none :=
  (reachable_inv h).apart

/-- Two slots of one logit each. -/
def twoSlots : Config where
  inflightSlots := 2
  prefillChunkTokens := 4
  prefillUbatch := 2
  supportsMixedBatch := true
  vocab := 1

def idleThreads : State Bool Nat twoSlots.vocab :=
  ⟨[], none, none, none, [], fun _ => none, fun _ => none, fun _ => .idle, [], [], [], []⟩

/-- One thread leads with its own entry and the other thread's. -/
def ledPair : List (Bool × Choice Nat twoSlots.vocab) :=
  [(false, .claim 0), (true, .claim 1), (true, .decode 6 9 false), (false, .decode 5 3 false)] ++
  [true, true, false, false, false, true].map (·, .go none) ++
  (List.replicate 12 false ++ [true]).map (·, .go (some fun i => ⟨#[10 + i], rfl⟩))

def ledState : State Bool Nat twoSlots.vocab :=
  ((routing Bool Nat twoSlots).runFrom idleThreads ledPair).getD idleThreads

theorem ledState_reachable : (routing Bool Nat twoSlots).Reachable ledState :=
  System.Run.runFrom (.init rfl) (System.meets_true idleThreads ledPair) rfl

theorem pair_replies : ledState.returns = [(1, [11]), (0, [10])] ∧ (forwarded ledState).Nodup ∧
    (∀ call logits, (call, logits) ∈ ledState.returns → ∃ p, ledState.calls[call]? = some p ∧
      p.response = call ∧ ∃ f ∈ ledState.forwards, RowFor f p logits) ∧
    (∀ row logits, (row, logits) ∈ ledState.prefills →
      ∃ f ∈ ledState.forwards, ∃ j, f.rows[j]? = some row ∧ logits = (f.logits j).toList) :=
  ⟨rfl, replies_own_rows ledState_reachable⟩

theorem pair_apart : ledState.forwards.map (fun f => f.rows.map Row.slotId) = [[1, 0]] ∧
    ∀ f ∈ ledState.forwards, ∀ (i j : Nat) (a b : Row), i ≠ j → f.rows[i]? = some a → f.rows[j]? = some b →
      a.slotId = b.slotId → f.entries[i]? = some none ∧ f.entries[j]? = some none :=
  ⟨rfl, forwards_apart ledState_reachable⟩

end Flambeau.Server.Routing
