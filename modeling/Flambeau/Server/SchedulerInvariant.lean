import Flambeau.Server.SchedulerMoves

namespace Flambeau.Server.Scheduler
open Flambeau.Systems

variable {T : Type} [DecidableEq T] {cfg : Config} {s s' : State T} {t : T}

def holdsQueue : Pc T → Bool
  | .enqueueLocked _ => true
  | .checking => true
  | .leaving => true
  | .draining _ _ => true
  | .repushing _ _ _ => true
  | _ => false

def holdsDispatcher : Pc T → Bool
  | .leading => true
  | .checking => true
  | .dispatching _ => true
  | .window _ _ => true
  | .draining _ _ => true
  | pc => hasDrained pc

/-- The entries a thread has taken off the queue. -/
def batchOf : Pc T → List (PendingDecode T)
  | .dispatching batch => batch
  | .drained _ _ batch => batch
  | .repushing _ _ batch => batch
  | _ => []

/-- A thread whose entry may be out: pushed, and not yet answered for sure. -/
def owns : Pc T → Bool
  | .pushed => true
  | .leading => true
  | .checking => true
  | .dispatching _ => true
  | .waiting => true
  | _ => false

/-- The entries off the queue are in the hands of the dispatcher's holder. -/
def inHand (dispatcher : Option T) (pc : T → Pc T) : List (PendingDecode T) :=
  match dispatcher with
  | some h => batchOf (pc h)
  | none => []

/-- Every entry that is out belongs to a thread of its own, which is owed an
answer. -/
structure Owed (pc : T → Pc T) (answered : T → Bool) (out : List (PendingDecode T)) : Prop where
  nodup : (out.map PendingDecode.response).Nodup
  owner : ∀ p ∈ out, owns (pc p.response) = true
  unanswered : ∀ p ∈ out, answered p.response = false

/-- Nobody will drain the queue unless a `try_lock` succeeds. -/
def Unwatched (dispatcher : Option T) (pc : T → Pc T) : Prop :=
  ∀ h, dispatcher = some h → hasDrained (pc h) = true

def aboutToPush : Pc T → Option (PendingDecode T)
  | .enqueue entry => some entry
  | .enqueueLocked entry => some entry
  | _ => none

/-- A thread about to push is owed nothing. -/
def Fresh (pc : T → Pc T) (answered : T → Bool) : Prop :=
  ∀ u entry, aboutToPush (pc u) = some entry → entry.response = u ∧ answered u = false

/-- What nobody will drain, its own threads will. -/
def Clean (dispatcher : Option T) (pc : T → Pc T) (pending : List (PendingDecode T)) : Prop :=
  Unwatched dispatcher pc → ∀ p ∈ pending, pc p.response = .pushed

structure Inv (s : State T) : Prop where
  queue : Guards holdsQueue s.queueLock s.pc
  dispatcher : Guards holdsDispatcher s.dispatcher s.pc
  owed : Owed s.pc s.answered (s.batchedPending ++ inHand s.dispatcher s.pc)
  fresh : Fresh s.pc s.answered
  clean : Clean s.dispatcher s.pc s.batchedPending

/-! The locks. -/

theorem move_queue (h : Move cfg s t s') (hq : Guards holdsQueue s.queueLock s.pc) :
    Guards holdsQueue s'.queueLock s'.pc := by
  cases h with
  | call hpc => exact hq.keep (by rw [hpc]; rfl)
  | begin hpc => exact hq.keep (by rw [hpc]; rfl)
  | lockToPush hpc hfree =>
    rw [hfree] at hq
    exact hq.take rfl
  | push hpc => exact hq.drop (by rw [hpc]; rfl) rfl
  | lead hpc => exact hq.keep (by rw [hpc]; rfl)
  | follow hpc => exact hq.keep (by rw [hpc]; rfl)
  | lockToCheck hpc hfree =>
    rw [hfree] at hq
    exact hq.take rfl
  | leave hpc => exact hq.keep (by rw [hpc]; rfl)
  | take hpc => exact hq.drop (by rw [hpc]; rfl) rfl
  | unlock hpc => exact hq.drop (by rw [hpc]; rfl) rfl
  | dispatch hpc => exact hq.keep (by rw [hpc]; rfl)
  | receive hpc => exact hq.keep (by rw [hpc]; rfl)
  | lockChunk hpc => exact hq.keep (by rw [hpc]; rfl)
  | chunkAlone hpc => exact hq.keep (by rw [hpc]; rfl)
  | done hpc => exact hq.keep (by rw [hpc]; rfl)
  | lockToDrain hpc hfree =>
    rw [hfree] at hq
    exact hq.take rfl
  | drain hpc => exact hq.drop (by rw [hpc]; rfl) rfl
  | nothing hpc => exact hq.keep (by rw [hpc]; rfl)
  | lockToRepush hpc hfree =>
    rw [hfree] at hq
    exact hq.take rfl
  | mixed hpc => exact hq.keep (by rw [hpc]; rfl)
  | repush hpc => exact hq.drop (by rw [hpc]; rfl) rfl
  | release hpc hnext =>
    refine hq.keep ?_
    rw [hpc]
    rcases hnext with rfl | ⟨e, rfl⟩ | rfl <;> rfl
  | advance hpc => exact hq.keep (by rw [hpc]; rfl)
  | fail hpc => exact hq.keep (by rw [hpc]; rfl)

theorem move_dispatcher (h : Move cfg s t s') (hd : Guards holdsDispatcher s.dispatcher s.pc) :
    Guards holdsDispatcher s'.dispatcher s'.pc := by
  cases h with
  | call hpc => exact hd.keep (by rw [hpc]; rfl)
  | begin hpc => exact hd.keep (by rw [hpc]; rfl)
  | lockToPush hpc => exact hd.keep (by rw [hpc]; rfl)
  | push hpc => exact hd.keep (by rw [hpc]; rfl)
  | lead hpc hfree =>
    rw [hfree] at hd
    exact hd.take rfl
  | follow hpc => exact hd.keep (by rw [hpc]; rfl)
  | lockToCheck hpc => exact hd.keep (by rw [hpc]; rfl)
  | leave hpc => exact hd.drop (by rw [hpc]; rfl) rfl
  | take hpc => exact hd.keep (by rw [hpc]; rfl)
  | unlock hpc => exact hd.keep (by rw [hpc]; rfl)
  | dispatch hpc => exact hd.keep (by rw [hpc]; rfl)
  | receive hpc => exact hd.keep (by rw [hpc]; rfl)
  | lockChunk hpc hfree =>
    rw [hfree] at hd
    exact hd.take rfl
  | chunkAlone hpc => exact hd.keep (by rw [hpc]; rfl)
  | done hpc => exact hd.keep (by rw [hpc]; rfl)
  | lockToDrain hpc => exact hd.keep (by rw [hpc]; rfl)
  | drain hpc => exact hd.keep (by rw [hpc]; rfl)
  | nothing hpc => exact hd.keep (by rw [hpc]; rfl)
  | lockToRepush hpc => exact hd.keep (by rw [hpc]; rfl)
  | mixed hpc => exact hd.keep (by rw [hpc]; rfl)
  | repush hpc => exact hd.keep (by rw [hpc]; rfl)
  | release hpc hnext =>
    refine hd.drop (by rw [hpc]; rfl) ?_
    rcases hnext with rfl | ⟨e, rfl⟩ | rfl <;> rfl
  | advance hpc => exact hd.keep (by rw [hpc]; rfl)
  | fail hpc => exact hd.keep (by rw [hpc]; rfl)

/-! The entries that are out. -/

theorem inHand_goto {dispatcher : Option T} {pc : T → Pc T} {x : Pc T}
    (hx : dispatcher = some t → batchOf x = batchOf (pc t)) :
    inHand dispatcher (set pc t x) = inHand dispatcher pc := by
  cases dispatcher with
  | none => rfl
  | some h =>
    by_cases ht : h = t
    · subst ht
      simpa [inHand] using hx rfl
    · simp [inHand, set_ne _ _ ht]

theorem inHand_self (pc : T → Pc T) (x : Pc T) : inHand (some t) (set pc t x) = batchOf x := by
  simp [inHand]

variable {pc : T → Pc T} {answered : T → Bool} {out : List (PendingDecode T)}

theorem Owed.goto {x : Pc T} (h : Owed pc answered out)
    (hx : owns x = true ∨ ∀ p ∈ out, p.response ≠ t) : Owed (set pc t x) answered out := by
  refine ⟨h.nodup, ?_, h.unanswered⟩
  intro p hp
  by_cases ht : p.response = t
  · rw [ht, set_self]
    rcases hx with hx | hx
    · exact hx
    · exact absurd ht (hx p hp)
  · rw [set_ne _ _ ht]
    exact h.owner p hp

omit [DecidableEq T] in
theorem Owed.not_owner (h : Owed pc answered out) (ht : owns (pc t) = false) :
    ∀ p ∈ out, p.response ≠ t := by
  intro p hp he
  have ho := h.owner p hp
  rw [he, ht] at ho
  cases ho

omit [DecidableEq T] in
theorem Owed.not_answered (h : Owed pc answered out) (ht : answered t = true) :
    ∀ p ∈ out, p.response ≠ t := by
  intro p hp he
  have hu := h.unanswered p hp
  rw [he, ht] at hu
  cases hu

omit [DecidableEq T] in
theorem Owed.perm {out' : List (PendingDecode T)} (h : Owed pc answered out) (hp : out.Perm out') :
    Owed pc answered out' :=
  ⟨(hp.map _).nodup_iff.mp h.nodup, fun p hm => h.owner p (hp.mem_iff.mpr hm),
    fun p hm => h.unanswered p (hp.mem_iff.mpr hm)⟩

/-- A fresh channel is opened for a thread that is owed nothing. -/
theorem Owed.open_ (h : Owed pc answered out) (ht : ∀ p ∈ out, p.response ≠ t) :
    Owed pc (set answered t false) out := by
  refine ⟨h.nodup, h.owner, ?_⟩
  intro p hp
  rw [set_ne _ _ (ht p hp)]
  exact h.unanswered p hp

theorem Owed.push {entry : PendingDecode T} {x : Pc T} (h : Owed pc answered out)
    (ht : owns (pc t) = false) (he : entry.response = t) (ha : answered t = false)
    (hx : owns x = true) : Owed (set pc t x) answered (entry :: out) := by
  have hne := h.not_owner ht
  have hmove := h.goto (t := t) (x := x) (.inl hx)
  refine ⟨?_, ?_, ?_⟩
  · rw [List.map_cons, List.nodup_cons]
    refine ⟨?_, h.nodup⟩
    intro hm
    obtain ⟨p, hp, hr⟩ := List.mem_map.mp hm
    exact hne p hp (hr.trans he)
  · intro p hp
    rcases List.mem_cons.mp hp with rfl | hp
    · rw [he, set_self]
      exact hx
    · exact hmove.owner p hp
  · intro p hp
    rcases List.mem_cons.mp hp with rfl | hp
    · rw [he]
      exact ha
    · exact h.unanswered p hp

/-- Answering a batch settles its entries and no other. -/
theorem Owed.answer {rest batch : List (PendingDecode T)} (h : Owed pc answered (rest ++ batch)) :
    Owed pc (fun u => answered u || batch.any fun p => p.response = u) rest := by
  have hn := h.nodup
  rw [List.map_append, List.nodup_append] at hn
  obtain ⟨hrest, -, hdisj⟩ := hn
  refine ⟨hrest, fun p hp => h.owner p (List.mem_append_left _ hp), ?_⟩
  intro p hp
  simp only [h.unanswered p (List.mem_append_left _ hp), Bool.false_or, List.any_eq_false,
    decide_eq_true_eq]
  intro q hq he
  exact hdisj _ (List.mem_map_of_mem hp) _ (List.mem_map_of_mem hq) he.symm

/-- The thread moves on, with nothing taken off the queue or put on it. -/
theorem Owed.move {x : Pc T} {dispatcher : Option T} {pending : List (PendingDecode T)}
    (h : Owed pc answered (pending ++ inHand dispatcher pc)) (hb : batchOf x = batchOf (pc t))
    (hx : owns x = true ∨ owns (pc t) = false ∨ answered t = true) :
    Owed (set pc t x) answered (pending ++ inHand dispatcher (set pc t x)) := by
  rw [inHand_goto fun _ => hb]
  apply h.goto
  rcases hx with hx | hx | hx
  · exact .inl hx
  · exact .inr (h.not_owner hx)
  · exact .inr (h.not_answered hx)

omit [DecidableEq T] in
theorem inHand_holder (hd : Guards holdsDispatcher s.dispatcher s.pc)
    (ht : holdsDispatcher (s.pc t) = true) : inHand s.dispatcher s.pc = batchOf (s.pc t) := by
  rw [hd.holder ht]
  rfl

theorem move_owed (h : Move cfg s t s') (hi : Inv s) :
    Owed s'.pc s'.answered (s'.batchedPending ++ inHand s'.dispatcher s'.pc) := by
  have ho := hi.owed
  have hd := hi.dispatcher
  cases h with
  | call hpc =>
    have howns : owns (s.pc t) = false := by rw [hpc]; rfl
    have hopen := ho.open_ (ho.not_owner howns)
    exact hopen.move (by rw [hpc]; rfl) (.inr (.inl howns))
  | begin hpc => exact ho.move (by rw [hpc]; rfl) (.inr (.inl (by rw [hpc]; rfl)))
  | lockToPush hpc _ => exact ho.move (by rw [hpc]; rfl) (.inr (.inl (by rw [hpc]; rfl)))
  | @push entry hpc =>
    obtain ⟨he, ha⟩ := hi.fresh t entry (by rw [hpc]; rfl)
    have howns : owns (s.pc t) = false := by rw [hpc]; rfl
    have hpush := ho.push (x := .pushed) howns he ha rfl
    have hhand : inHand s.dispatcher (set s.pc t .pushed) = inHand s.dispatcher s.pc :=
      inHand_goto fun _ => by rw [hpc]; rfl
    have hperm : (entry :: (s.batchedPending ++ inHand s.dispatcher s.pc)).Perm
        (s.batchedPending ++ [entry] ++ inHand s.dispatcher s.pc) := by
      rw [List.append_assoc]
      exact List.perm_middle.symm
    have hout := hpush.perm hperm
    rw [← hhand] at hout
    exact hout
  | lead hpc hfree =>
    rw [hfree] at ho
    have hhand : inHand (some t) (set s.pc t .leading) = [] := inHand_self _ _
    have hgoto := ho.goto (t := t) (x := .leading) (.inl rfl)
    simp only [State.goto, State.lockDispatcher, hhand]
    exact hgoto
  | follow hpc _ => exact ho.move (by rw [hpc]; rfl) (.inl rfl)
  | lockToCheck hpc _ => exact ho.move (by rw [hpc]; rfl) (.inl rfl)
  | leave hpc hempty =>
    simp only [State.goto, State.dropDispatcher, hempty, inHand, List.append_nil]
    exact ⟨List.nodup_nil, by simp, by simp⟩
  | take hpc =>
    have hhold : holdsDispatcher (s.pc t) = true := by rw [hpc]; rfl
    have hhand : inHand s.dispatcher s.pc = [] := by
      rw [inHand_holder hd hhold, hpc]
      rfl
    rw [hhand, List.append_nil] at ho
    have hgoto := ho.goto (t := t) (x := .dispatching s.batchedPending) (.inl rfl)
    simp only [State.goto, State.setPending, State.unlockQueue, hd.holder hhold, inHand_self]
    exact hgoto
  | unlock hpc => exact ho.move (by rw [hpc]; rfl) (.inl rfl)
  | @dispatch batch hpc =>
    have hhold : holdsDispatcher (s.pc t) = true := by rw [hpc]; rfl
    have hhand : inHand s.dispatcher s.pc = batch := by
      rw [inHand_holder hd hhold, hpc]
      rfl
    rw [hhand] at ho
    have hgoto := ho.answer.goto (t := t) (x := .leading) (.inl rfl)
    simp only [State.goto, State.answer, hd.holder hhold, inHand_self, batchOf, List.append_nil]
    exact hgoto
  | receive hpc ha => exact ho.move (by rw [hpc]; rfl) (.inr (.inr ha))
  | @lockChunk start len hpc hfree =>
    rw [hfree] at ho
    have howns : owns (s.pc t) = false := by rw [hpc]; rfl
    have hgoto := ho.goto (t := t) (x := .window start len) (.inr (ho.not_owner howns))
    simp only [State.goto, State.lockDispatcher, inHand_self]
    exact hgoto
  | chunkAlone hpc => exact ho.move (by rw [hpc]; rfl) (.inr (.inl (by rw [hpc]; rfl)))
  | done hpc => exact ho.move (by rw [hpc]; rfl) (.inr (.inl (by rw [hpc]; rfl)))
  | lockToDrain hpc _ => exact ho.move (by rw [hpc]; rfl) (.inr (.inl (by rw [hpc]; rfl)))
  | @drain start len hpc =>
    have hhold : holdsDispatcher (s.pc t) = true := by rw [hpc]; rfl
    have hhand : inHand s.dispatcher s.pc = [] := by
      rw [inHand_holder hd hhold, hpc]
      rfl
    rw [hhand, List.append_nil] at ho
    have howns : owns (s.pc t) = false := by rw [hpc]; rfl
    have hgoto := ho.goto (t := t) (x := .drained start len s.batchedPending)
      (.inr (ho.not_owner howns))
    simp only [State.goto, State.setPending, State.unlockQueue, hd.holder hhold, inHand_self]
    exact hgoto
  | nothing hpc => exact ho.move (by rw [hpc]; rfl) (.inr (.inl (by rw [hpc]; rfl)))
  | lockToRepush hpc _ => exact ho.move (by rw [hpc]; rfl) (.inr (.inl (by rw [hpc]; rfl)))
  | @mixed start len batch after hpc _ =>
    have hhold : holdsDispatcher (s.pc t) = true := by rw [hpc]; rfl
    have hhand : inHand s.dispatcher s.pc = batch := by
      rw [inHand_holder hd hhold, hpc]
      rfl
    rw [hhand] at ho
    have howns : owns (s.pc t) = false := by rw [hpc]; rfl
    have hgoto := ho.answer.goto (t := t) (x := .releasing start len after)
      (.inr (ho.answer.not_owner howns))
    simp only [State.goto, State.answer, hd.holder hhold, inHand_self, batchOf, List.append_nil]
    exact hgoto
  | @repush start len batch hpc =>
    have hhold : holdsDispatcher (s.pc t) = true := by rw [hpc]; rfl
    have hhand : inHand s.dispatcher s.pc = batch := by
      rw [inHand_holder hd hhold, hpc]
      rfl
    rw [hhand] at ho
    have howns : owns (s.pc t) = false := by rw [hpc]; rfl
    have hgoto := ho.goto (t := t) (x := .releasing start len .forward) (.inr (ho.not_owner howns))
    simp only [State.goto, State.setPending, State.unlockQueue, hd.holder hhold, inHand_self,
      batchOf, List.append_nil]
    exact hgoto
  | @release start len after next hpc hnext =>
    have hhold : holdsDispatcher (s.pc t) = true := by rw [hpc]; rfl
    have hhand : inHand s.dispatcher s.pc = [] := by
      rw [inHand_holder hd hhold, hpc]
      rfl
    rw [hhand] at ho
    have howns : owns (s.pc t) = false := by rw [hpc]; rfl
    exact ho.goto (t := t) (x := next) (.inr (ho.not_owner howns))
  | advance hpc => exact ho.move (by rw [hpc]; rfl) (.inr (.inl (by rw [hpc]; rfl)))
  | fail hpc => exact ho.move (by rw [hpc]; rfl) (.inr (.inl (by rw [hpc]; rfl)))

/-! A thread about to push. -/

theorem Fresh.goto {x : Pc T} (h : Fresh pc answered)
    (hx : aboutToPush x = none ∨ aboutToPush x = aboutToPush (pc t)) :
    Fresh (set pc t x) answered := by
  intro u entry hu
  by_cases ht : u = t
  · subst ht
    rw [set_self] at hu
    rcases hx with hx | hx
    · rw [hx] at hu
      cases hu
    · rw [hx] at hu
      exact h u entry hu
  · rw [set_ne _ _ ht] at hu
    exact h u entry hu

omit [DecidableEq T] in
theorem aboutToPush_owns {x : Pc T} (h : aboutToPush x = some entry) : owns x = false := by
  cases x with
  | enqueue entry => rfl
  | enqueueLocked entry => rfl
  | _ => cases h

theorem Fresh.answer {batch : List (PendingDecode T)} (h : Fresh pc answered)
    (hb : ∀ p ∈ batch, owns (pc p.response) = true) :
    Fresh pc fun u => answered u || batch.any fun p => p.response = u := by
  intro u entry hu
  obtain ⟨he, ha⟩ := h u entry hu
  refine ⟨he, ?_⟩
  have howns := aboutToPush_owns hu
  simp only [ha, Bool.false_or, List.any_eq_false, decide_eq_true_eq]
  intro p hp hr
  have hown := hb p hp
  rw [hr, howns] at hown
  cases hown

theorem move_fresh (h : Move cfg s t s') (hi : Inv s) : Fresh s'.pc s'.answered := by
  have hf := hi.fresh
  have hbatch : ∀ batch, batchOf (s.pc t) = batch → holdsDispatcher (s.pc t) = true →
      ∀ p ∈ batch, owns (s.pc p.response) = true := by
    intro batch hb hhold p hp
    apply hi.owed.owner p
    rw [inHand_holder hi.dispatcher hhold, hb]
    exact List.mem_append_right _ hp
  cases h with
  | call hpc =>
    intro u entry hu
    by_cases ht : u = t
    · subst ht
      simp only [State.goto, set_self, aboutToPush] at hu
      cases hu
      exact ⟨rfl, set_self _ _ _⟩
    · simp only [State.goto, State.open_, set_ne _ _ ht] at hu ⊢
      exact hf u entry hu
  | lockToPush hpc => exact hf.goto (.inr (by rw [hpc]; rfl))
  | dispatch hpc =>
    have hb := hbatch _ rfl (by rw [hpc]; rfl)
    rw [hpc] at hb
    exact (hf.answer hb).goto (.inl rfl)
  | mixed hpc _ =>
    have hb := hbatch _ rfl (by rw [hpc]; rfl)
    rw [hpc] at hb
    exact (hf.answer hb).goto (.inl rfl)
  | release hpc hnext =>
    refine hf.goto (.inl ?_)
    rcases hnext with rfl | ⟨e, rfl⟩ | rfl <;> rfl
  | _ => exact hf.goto (.inl rfl)

/-! The entries nobody watches. -/

variable {dispatcher : Option T} {pending : List (PendingDecode T)}

theorem Unwatched.before {x : Pc T} (h : Unwatched dispatcher (set pc t x))
    (hx : hasDrained x = true → hasDrained (pc t) = true) : Unwatched dispatcher pc := by
  intro u hu
  have hdrained := h u hu
  by_cases ht : u = t
  · subst ht
    rw [set_self] at hdrained
    exact hx hdrained
  · rw [set_ne _ _ ht] at hdrained
    exact hdrained

theorem pushed_set {x : Pc T} (hp : pc u = .pushed) (ht : u ≠ t) : set pc t x u = .pushed := by
  rw [set_ne _ _ ht]
  exact hp

theorem Clean.goto {x : Pc T} (h : Clean dispatcher pc pending) (ht : pc t ≠ .pushed)
    (hx : hasDrained x = true → hasDrained (pc t) = true) :
    Clean dispatcher (set pc t x) pending := by
  intro hu p hp
  have hpushed := h (hu.before hx) p hp
  apply pushed_set hpushed
  intro he
  rw [he] at hpushed
  exact ht hpushed

omit [DecidableEq T] in
theorem clean_nil (dispatcher : Option T) (pc : T → Pc T) : Clean dispatcher pc [] := by
  intro _ p hp
  cases hp

/-- Taking the dispatcher is watching the queue. -/
theorem clean_taken {x : Pc T} (hx : hasDrained x = false) :
    Clean (some t) (set pc t x) pending := by
  intro hu
  have hdrained := hu t rfl
  rw [set_self, hx] at hdrained
  cases hdrained

/-- The owners of a prefill's drained entries are waiting, or about to be. -/
theorem drained_owner (hi : Inv s) (hpc : s.pc t = .repushing start len batch) (hp : p ∈ batch) :
    s.pc p.response = .pushed ∨ s.pc p.response = .waiting := by
  have hhold : holdsDispatcher (s.pc t) = true := by rw [hpc]; rfl
  have hhand := inHand_holder hi.dispatcher hhold
  rw [hpc] at hhand
  have howner : owns (s.pc p.response) = true := by
    apply hi.owed.owner p
    rw [hhand]
    exact List.mem_append_right _ hp
  have hne : holdsDispatcher (s.pc p.response) = true → False := by
    intro hd
    have ht := hi.dispatcher.unique hhold hd
    rw [ht, hpc] at howner
    cases howner
  cases ho : s.pc p.response with
  | pushed => exact .inl rfl
  | waiting => exact .inr rfl
  | leading =>
    rw [ho] at hne
    exact (hne rfl).elim
  | checking =>
    rw [ho] at hne
    exact (hne rfl).elim
  | dispatching batch =>
    rw [ho] at hne
    exact (hne rfl).elim
  | _ =>
    rw [ho] at howner
    cases howner

theorem move_clean (h : Move cfg s t s') (hi : Inv s) (hs : ¬ Strands s t) :
    Clean s'.dispatcher s'.pc s'.batchedPending := by
  have hc := hi.clean
  cases h with
  | @push entry hpc =>
    obtain ⟨he, -⟩ := hi.fresh t entry (by rw [hpc]; rfl)
    have hgoto := hc.goto (t := t) (x := .pushed) (by rw [hpc]; simp) (fun hd => by cases hd)
    intro hu p hp
    rcases List.mem_append.mp hp with hp | hp
    · exact hgoto hu p hp
    · obtain rfl := List.mem_singleton.mp hp
      simp only [State.goto, he, set_self]
  | lead hpc hfree => exact clean_taken rfl
  | @follow h hpc hheld =>
    intro hu p hp
    have hbefore : Unwatched s.dispatcher s.pc := hu.before fun hd => by cases hd
    have hpushed := hc hbefore p hp
    apply pushed_set hpushed
    intro he
    apply hs
    simp only [Strands, hpc]
    exact ⟨⟨h, hheld, hbefore h hheld⟩, p, hp, he⟩
  | leave hpc hempty =>
    simp only [State.goto, State.dropDispatcher, hempty]
    exact clean_nil _ _
  | take hpc => exact clean_nil _ _
  | drain hpc => exact clean_nil _ _
  | lockChunk hpc hfree => exact clean_taken rfl
  | @repush start len batch hpc =>
    intro hu p hp
    have hne : ∀ u, s.pc u = .pushed → u ≠ t := by
      intro u hu he
      rw [he, hpc] at hu
      cases hu
    have hdrained : hasDrained (s.pc t) = true := by rw [hpc]; rfl
    have hbefore : Unwatched s.dispatcher s.pc := hu.before fun _ => hdrained
    have hpushed : s.pc p.response = .pushed := by
      rcases List.mem_append.mp hp with hp | hp
      · exact hc hbefore p hp
      · rcases drained_owner hi hpc hp with ho | ho
        · exact ho
        · refine absurd ?_ hs
          simp only [Strands, hpc]
          exact ⟨p, hp, ho⟩
    exact pushed_set hpushed (hne _ hpushed)
  | @release start len after next hpc hnext =>
    intro _ p hp
    have hhold : holdsDispatcher (s.pc t) = true := by rw [hpc]; rfl
    have hbefore : Unwatched s.dispatcher s.pc := by
      intro u hu
      rw [hi.dispatcher.holder hhold] at hu
      cases hu
      rw [hpc]
      rfl
    have hpushed := hc hbefore p hp
    apply pushed_set hpushed
    intro he
    rw [he, hpc] at hpushed
    cases hpushed
  | _ hpc => exact hc.goto (by rw [hpc]; simp) (by rw [hpc]; simp [hasDrained])

theorem inv_init (T : Type) [DecidableEq T] :
    Inv (⟨[], none, none, fun _ => false, fun _ => .idle⟩ : State T) := by
  refine ⟨?_, ?_, ⟨List.nodup_nil, by simp [inHand], by simp [inHand]⟩, ?_, clean_nil _ _⟩
  · intro u
    simp [holdsQueue]
  · intro u
    simp [holdsDispatcher, hasDrained]
  · intro u entry hu
    cases hu

theorem inv_step (hi : Inv s) (hs : ¬ Strands s t) (h : step cfg s t c = some s') : Inv s' := by
  have hm := step_move h
  exact ⟨move_queue hm hi.queue, move_dispatcher hm hi.dispatcher, move_owed hm hi,
    move_fresh hm hi, move_clean hm hi hs⟩

/-- In a run none of whose steps strands an entry, every entry queued while the
dispatcher is free has a thread that is about to try for it. -/
theorem none_stranded (cfg : Config) (s : State T)
    (h : (scheduler T cfg).Run (fun s a => ¬ Strands s a.1) s) : NoneStranded s := by
  have hi : Inv s := by
    refine h.invariant ?_ ?_
    · intro s hs
      obtain rfl : s = _ := hs
      exact inv_init T
    · intro s a s' hi hs hstep
      exact inv_step hi hs hstep
  intro hfree
  apply hi.clean
  intro h hh
  rw [hfree] at hh
  cases hh

/-- The first state, for threads numbered by `Nat`. -/
def start : State Nat := ⟨[], none, none, fun _ => false, fun _ => .idle⟩

/-- Thread 0 has pushed an entry and holds no lock. -/
def onePush : List (Nat × Choice) := [(0, .decode 0 7 4), (0, .go true), (0, .go true)]

theorem one_push_careful :
    System.Meets (scheduler Nat ⟨512, true⟩) (fun s a => ¬ Strands s a.1) start onePush := by
  refine ⟨id, ?_⟩
  intro s₁ h₁
  cases h₁
  refine ⟨id, ?_⟩
  intro s₂ h₂
  cases h₂
  refine ⟨id, ?_⟩
  intro s₃ _
  trivial

/-- The entry of a thread that has just pushed is not stranded. -/
theorem pushed_entry_not_stranded :
    ∃ s, (scheduler Nat ⟨512, true⟩).runFrom start onePush = some s ∧
      s.batchedPending = [⟨0, 7, 4, 0⟩] ∧ NoneStranded s := by
  refine ⟨_, rfl, rfl, none_stranded ⟨512, true⟩ _ ?_⟩
  exact (System.Run.init rfl).runFrom one_push_careful rfl

/-- A prefill of one whole chunk drains the entry of a waiting thread, puts it
back and drops the dispatcher. -/
def repushRun : List (Nat × Choice) :=
  [(1, .prefill 0 512), (1, .go true),
    (0, .decode 0 7 4), (0, .go true), (0, .go true), (0, .go true),
    (1, .go true), (1, .go true), (1, .go true), (1, .go true), (1, .go true)]

/-- A re-pushed entry is left in the queue with its thread waiting. -/
theorem repushed_entry_stranded :
    ¬ ∀ (cfg : Config) (s : State Nat), (scheduler Nat cfg).Reachable s → NoneStranded s := by
  intro h
  have hrun : ∃ s, (scheduler Nat ⟨512, true⟩).runFrom start repushRun = some s ∧
      s.dispatcher = none ∧ s.batchedPending = [⟨0, 7, 4, 0⟩] ∧ s.pc 0 = .waiting := by
    exact ⟨_, rfl, rfl, rfl, rfl⟩
  obtain ⟨s, hs, hfree, hpending, hpc⟩ := hrun
  have hreach : (scheduler Nat ⟨512, true⟩).Reachable s :=
    (System.Run.init rfl).runFrom (System.meets_true _ _) hs
  have hpushed := h _ s hreach hfree ⟨0, 7, 4, 0⟩ (by rw [hpending]; simp)
  rw [hpc] at hpushed
  cases hpushed

end Flambeau.Server.Scheduler
