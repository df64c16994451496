import Flambeau.Forward.Handoff

namespace Flambeau.Forward.Handoff
open Systems
open Function (update)

namespace Worker

/-- How much of a worker's stream was enqueued, and has run, since it held `base`
operations. -/
def issued (worker : Worker) (base : Nat) : Nat := worker.stream.length - base

def executed (worker : Worker) (base : Nat) : Nat := worker.done - base

/-- A worker that a forward has not reached. -/
structure Fresh (worker : Worker) (base : Nat) (reply : Option Bool) : Prop where
  phase : worker.phase = .idle
  inbox : worker.inbox = []
  reply : reply = none
  issued : worker.issued base = 0

/-- The consumer of a forward that has not looked at its edge yet. -/
def Awaits (worker : Worker) (f : Nat) : Prop := worker.inbox = [f] ∨ worker.phase = .start f

end Worker

namespace Pipeline

variable (P : Pipeline)

/-- The operations that a worker enqueues before `peer_send`. -/
def front (w : Nat) : Nat := if P.topology.isFirst w then 0 else 2

/-- The operations that a worker enqueues in a forward. -/
def script (w f : Nat) : List Op :=
  (if P.topology.isFirst w then [] else [.wait w f, .use w f]) ++
    (if P.topology.isLast w then []
    else [.copy (w + P.topology.ranks) f (P.batch f).emitted, .record (w + P.topology.ranks) f])

def scriptLength (w : Nat) : Nat := P.front w + if P.topology.isLast w then 0 else 2

theorem script_length (w f : Nat) : (P.script w f).length = P.scriptLength w := by
  unfold script scriptLength front
  cases P.topology.isFirst w <;> cases P.topology.isLast w <;> rfl

/-- How far a worker is in forward `f`. -/
def PhaseOk (f w base : Nat) (worker : Worker) (reply : Option Bool) : Prop :=
  match worker.phase with
  | .idle => worker.inbox = [f] ∧ reply = none ∧ worker.issued base = 0 ∨
    worker.inbox = [] ∧ (reply = some true → worker.issued base = P.scriptLength w ∧
      (P.topology.isLast w = true → worker.executed base = P.scriptLength w))
  | .start g => g = f ∧ worker.inbox = [] ∧ reply = none ∧ worker.issued base = 0
  | .took g => g = f ∧ worker.inbox = [] ∧ reply = none ∧ P.topology.isFirst w = false ∧
    worker.issued base = 1
  | .body g => g = f ∧ worker.inbox = [] ∧ reply = none ∧ worker.issued base = P.front w
  | .copied g => g = f ∧ worker.inbox = [] ∧ reply = none ∧ P.topology.isLast w = false ∧
    worker.issued base = P.front w + 1
  | .sent g => g = f ∧ worker.inbox = [] ∧ reply = none ∧ P.topology.isLast w = false ∧
    worker.issued base = P.front w + 2

/-- A worker while `f` is the latest forward; its stream held `base` operations
when that began. -/
structure WorkerOk (f w base : Nat) (worker : Worker) (reply : Option Bool) : Prop where
  low : base ≤ worker.done
  high : worker.done ≤ worker.stream.length
  ops : worker.stream.drop base <+: P.script w f
  old : ∀ op ∈ worker.stream.take base, op.forward < f
  phase : P.PhaseOk f w base worker reply

/-- An edge while `f` is the latest forward. The producer has enqueued `ip`
operations of it and run `xp`, the consumer `ic` and `xc`. -/
structure EdgeOk (f p ip xp ic xc : Nat) (awaits : Prop) (slot : PeerSlot) : Prop where
  after : 0 < ic → ip = P.scriptLength p
  ran : 0 < xc → xp = P.scriptLength p
  event : slot.sendDone = some f → ip = P.scriptLength p ∧ ic = 0
  published : ip = P.scriptLength p → slot.sendDone = some f ∨ 0 < ic
  rows : P.front p < xp → slot.rows = some (f, (P.batch f).emitted)
  hybrid : P.topology.kind = .hybrid → ∀ g, slot.sendDone = some g → g = f
  pp : P.topology.kind = .pp → awaits → ip = P.scriptLength p

/-- `run_forward` while `f` is the latest forward. -/
structure MainOk (base : Nat → Nat) (s : State) : Prop where
  forward : ∀ g k, s.waiting = some (g, k) → g = s.started ∧ k < P.topology.workers
  answered : ∀ g k, s.waiting = some (g, k) → ∀ j, j < k → s.replies j s.started = some true
  fresh : ∀ g k, s.waiting = some (g, k) → P.topology.kind = .pp → ∀ j, k < j →
    j < P.topology.workers → (s.workers j).Fresh (base j) (s.replies j s.started)
  quiet : s.waiting = none → s.failed = false → P.Settled s

structure InvAt (base : Nat → Nat) (s : State) : Prop where
  workers : ∀ w, w < P.topology.workers →
    P.WorkerOk s.started w (base w) (s.workers w) (s.replies w s.started)
  outside : ∀ w, P.topology.workers ≤ w → (s.workers w).Resting
  edges : ∀ p, p + P.topology.ranks < P.topology.workers →
    P.EdgeOk s.started p ((s.workers p).issued (base p)) ((s.workers p).executed (base p))
      ((s.workers (p + P.topology.ranks)).issued (base (p + P.topology.ranks)))
      ((s.workers (p + P.topology.ranks)).executed (base (p + P.topology.ranks)))
      ((s.workers (p + P.topology.ranks)).Awaits s.started) (s.edges (p + P.topology.ranks))
  main : P.MainOk base s
  future : ∀ w g, s.started < g → s.replies w g = none
  events : ∀ e g, (s.edges e).sendDone = some g → g ≤ s.started
  reads : P.RowsOwn s

/-- The invariant of the orderly runs. -/
def Inv (s : State) : Prop := ∃ base, P.InvAt base s

variable {P} {f w base : Nat} {worker : Worker} {reply : Option Bool}

namespace WorkerOk

theorem counts (h : P.WorkerOk f w base worker reply) :
    worker.stream.length = base + worker.issued base ∧ worker.done = base + worker.executed base ∧
      worker.executed base ≤ worker.issued base ∧ worker.issued base ≤ P.scriptLength w := by
  have hops := h.ops.length_le
  rw [List.length_drop, P.script_length] at hops
  have hlow := h.low
  have hhigh := h.high
  unfold Worker.issued Worker.executed
  omega

/-- The operation at the head of the stream is the script's. -/
theorem head (h : P.WorkerOk f w base worker reply) (hop : worker.stream[worker.done]? = some op) :
    (P.script w f)[worker.executed base]? = some op ∧ worker.executed base < worker.issued base := by
  obtain ⟨hlen, hdone, -, -⟩ := h.counts
  have hlt := (List.getElem?_eq_some_iff.mp hop).1
  have hdrop : (worker.stream.drop base)[worker.executed base]? = some op := by
    rw [List.getElem?_drop, ← hdone, hop]
  refine ⟨?_, by omega⟩
  rw [← hdrop]
  exact (List.prefix_iff_getElem?.mp h.ops _ (List.getElem?_eq_some_iff.mp hdrop).1).trans
    (List.getElem?_eq_getElem _).symm

/-- The next operation of the script is enqueued. -/
theorem append (h : P.WorkerOk f w base worker reply)
    (hop : (P.script w f)[worker.issued base]? = some op) :
    (worker.stream ++ [op]).drop base <+: P.script w f := by
  obtain ⟨hlen, -, -, -⟩ := h.counts
  rw [List.drop_append_of_le_length (by omega)]
  obtain ⟨rest, hrest⟩ := h.ops
  have hlength : (worker.stream.drop base).length = worker.issued base := by
    rw [List.length_drop, hlen, Nat.add_sub_cancel_left]
  rw [← hrest, List.getElem?_append_right (by omega), hlength, Nat.sub_self] at hop
  cases rest with
  | nil => cases hop
  | cons op' rest =>
    cases hop
    exact ⟨rest, by rw [← hrest, List.append_assoc]; rfl⟩

end WorkerOk

theorem script_recv (h : P.topology.isFirst w = false) :
    (P.script w f)[0]? = some (.wait w f) ∧ (P.script w f)[1]? = some (.use w f) := by
  simp [script, h]

theorem script_send (h : P.topology.isLast w = false) :
    (P.script w f)[P.front w]? = some (.copy (w + P.topology.ranks) f (P.batch f).emitted) ∧
      (P.script w f)[P.front w + 1]? = some (.record (w + P.topology.ranks) f) := by
  unfold script front
  cases P.topology.isFirst w <;> simp [h]

/-- Where an operation stands in the script. -/
theorem script_get {i : Nat} {op : Op} (h : (P.script w f)[i]? = some op) :
    P.topology.isFirst w = false ∧ i = 0 ∧ op = .wait w f ∨
    P.topology.isFirst w = false ∧ i = 1 ∧ op = .use w f ∨
    P.topology.isLast w = false ∧ i = P.front w ∧
      op = .copy (w + P.topology.ranks) f (P.batch f).emitted ∨
    P.topology.isLast w = false ∧ i = P.front w + 1 ∧ op = .record (w + P.topology.ranks) f := by
  unfold script at h
  unfold front
  cases hfirst : P.topology.isFirst w <;> cases hlast : P.topology.isLast w <;>
    simp only [hfirst, hlast, if_true, if_false, Bool.false_eq_true, List.append_nil, List.nil_append,
      List.cons_append] at h ⊢ <;>
    rcases i with _ | _ | _ | _ | i <;> simp_all

theorem script_forward {op : Op} (h : op ∈ P.script w f) : op.forward = f := by
  obtain ⟨i, hi⟩ := List.getElem?_of_mem h
  rcases script_get hi with ⟨-, -, rfl⟩ | ⟨-, -, rfl⟩ | ⟨-, -, rfl⟩ | ⟨-, -, rfl⟩ <;> rfl

/-- An event of the latest forward fires once its producer's script has run. -/
theorem fired_ran {s : State} {p : Nat} (h : P.WorkerOk f p base (s.workers p) reply)
    (hfired : P.fired s (p + P.topology.ranks) f = true) :
    (s.workers p).executed base = P.scriptLength p := by
  obtain ⟨hlen, hdone, hle, hmax⟩ := h.counts
  unfold fired at hfired
  simp only [Nat.add_sub_cancel, List.contains_iff_mem] at hfired
  obtain ⟨i, hi⟩ := List.getElem?_of_mem hfired
  have hlt : i < (s.workers p).done := by
    have := (List.getElem?_eq_some_iff.mp hi).1
    rw [List.length_take] at this
    omega
  rw [List.getElem?_take_of_lt hlt] at hi
  by_cases hnew : i < base
  · have hold := h.old _ (List.mem_of_getElem? (i := i) (by rw [List.getElem?_take_of_lt hnew, hi]))
    exact absurd hold (Nat.lt_irrefl f)
  · have hdrop : ((s.workers p).stream.drop base)[i - base]? = some (.record (p + P.topology.ranks) f) := by
      rw [List.getElem?_drop, Nat.add_sub_cancel' (Nat.le_of_not_lt hnew), hi]
    have hscript : (P.script p f)[i - base]? = some (.record (p + P.topology.ranks) f) := by
      rw [← hdrop]
      exact (List.prefix_iff_getElem?.mp h.ops _ (List.getElem?_eq_some_iff.mp hdrop).1).trans
        (List.getElem?_eq_getElem _).symm
    rcases script_get hscript with ⟨-, -, hop⟩ | ⟨-, -, hop⟩ | ⟨-, -, hop⟩ | ⟨hlast, hat, -⟩
    · cases hop
    · cases hop
    · cases hop
    · have hlength : P.scriptLength p = P.front p + 2 := by simp [scriptLength, hlast]
      omega

namespace EdgeOk

variable {p ip xp ic xc ip' ic' xc' : Nat} {awaits awaits' : Prop} {slot slot' : PeerSlot}

/-- The consumer goes on without a look at the edge. -/
theorem consumer (h : P.EdgeOk f p ip xp ic xc awaits slot) (hissued : 0 < ic' ↔ 0 < ic)
    (hran : 0 < xc' → 0 < xc ∨ xp = P.scriptLength p) (hawaits : awaits' → awaits) :
    P.EdgeOk f p ip xp ic' xc' awaits' slot where
  after hpos := h.after (hissued.mp hpos)
  ran hpos := (hran hpos).elim h.ran id
  event hevent := ⟨(h.event hevent).1, Nat.eq_zero_of_not_pos fun hpos => by
    have hzero := (h.event hevent).2
    have := hissued.mp hpos
    omega⟩
  published hip := (h.published hip).imp_right hissued.mpr
  rows := h.rows
  hybrid := h.hybrid
  pp hkind haw := h.pp hkind (hawaits haw)

/-- The consumer takes the event. -/
theorem takes (h : P.EdgeOk f p ip xp ic xc awaits slot) (hevent : slot.sendDone = some f)
    (hissued : 0 < ic') (hawaits : ¬ awaits') :
    P.EdgeOk f p ip xp ic' xc awaits' { slot with sendDone := none } where
  after _ := (h.event hevent).1
  ran := h.ran
  event hnone := by cases hnone
  published _ := .inr hissued
  rows := h.rows
  hybrid _ _ hnone := by cases hnone
  pp _ haw := absurd haw hawaits

/-- The producer enqueues work before the event, and may touch `dst` before its copy has
run. -/
theorem produces (h : P.EdgeOk f p ip xp ic xc awaits slot) (hip : ip < P.scriptLength p)
    (hip' : ip' < P.scriptLength p) (hsame : slot'.sendDone = slot.sendDone)
    (hrows : P.front p < xp → slot'.rows = slot.rows) :
    P.EdgeOk f p ip' xp ic xc awaits slot' where
  after hpos := absurd (h.after hpos) (Nat.ne_of_lt hip)
  ran := h.ran
  event hevent := absurd (h.event (hsame ▸ hevent)).1 (Nat.ne_of_lt hip)
  published heq := absurd heq (Nat.ne_of_lt hip')
  rows hpast := (hrows hpast).trans (h.rows hpast)
  hybrid hkind g hevent := h.hybrid hkind g (hsame ▸ hevent)
  pp hkind haw := absurd (h.pp hkind haw) (Nat.ne_of_lt hip)

/-- The producer leaves its event. -/
theorem publishes (h : P.EdgeOk f p ip xp ic xc awaits slot) (hip : ip < P.scriptLength p) :
    P.EdgeOk f p (P.scriptLength p) xp ic xc awaits { slot with sendDone := some f } where
  after _ := rfl
  ran := h.ran
  event _ := ⟨rfl, Nat.eq_zero_of_not_pos fun hpos => Nat.ne_of_lt hip (h.after hpos)⟩
  published _ := .inl rfl
  rows := h.rows
  hybrid _ g hevent := (Option.some.inj hevent).symm
  pp _ _ := rfl

/-- The producer's stream gets on. -/
theorem runs (h : P.EdgeOk f p ip xp ic xc awaits slot) (hxp : xp < P.scriptLength p)
    (hsame : slot'.sendDone = slot.sendDone)
    (hrows : P.front p < xp + 1 → slot'.rows = some (f, (P.batch f).emitted)) :
    P.EdgeOk f p ip (xp + 1) ic xc awaits slot' where
  after := h.after
  ran hpos := absurd (h.ran hpos) (Nat.ne_of_lt hxp)
  event hevent := h.event (hsame ▸ hevent)
  published hip := (h.published hip).imp_left fun hevent => hsame ▸ hevent
  rows := hrows
  hybrid hkind g hevent := h.hybrid hkind g (hsame ▸ hevent)
  pp := h.pp

end EdgeOk

theorem Fresh.resting {worker : Worker} (h : P.WorkerOk f w base worker reply)
    (hf : worker.Fresh base reply) : worker.Resting := by
  obtain ⟨hlen, hdone, hle, -⟩ := h.counts
  have hzero := hf.issued
  exact ⟨hf.phase, hf.inbox, by omega⟩

/-- One worker's step keeps the invariant when it keeps its own part and its two
edges. -/
theorem worker_step {s s' : State} {base : Nat → Nat} {worker : Worker} (h : P.InvAt base s)
    (hw : w < P.topology.workers) (hbusy : ¬ (s.workers w).Resting)
    (hworkers : s'.workers = update s.workers w worker)
    (hmain : s'.started = s.started ∧ s'.waiting = s.waiting ∧ s'.failed = s.failed)
    (hreplies : ∀ j, j ≠ w → s'.replies j = s.replies j)
    (hkeep : s.replies w s.started = some true → s'.replies w s.started = some true)
    (hfuture : ∀ g, s.started < g → s'.replies w g = none)
    (hok : P.WorkerOk s.started w (base w) worker (s'.replies w s.started))
    (hslots : ∀ e, e ≠ w → e ≠ w + P.topology.ranks → s'.edges e = s.edges e)
    (hin : ∀ p, w = p + P.topology.ranks →
      P.EdgeOk s.started p ((s.workers p).issued (base p)) ((s.workers p).executed (base p))
        (worker.issued (base w)) (worker.executed (base w)) (worker.Awaits s.started) (s'.edges w))
    (hout : w + P.topology.ranks < P.topology.workers →
      P.EdgeOk s.started w (worker.issued (base w)) (worker.executed (base w))
        ((s.workers (w + P.topology.ranks)).issued (base (w + P.topology.ranks)))
        ((s.workers (w + P.topology.ranks)).executed (base (w + P.topology.ranks)))
        ((s.workers (w + P.topology.ranks)).Awaits s.started) (s'.edges (w + P.topology.ranks)))
    (hevents : ∀ e g, (s'.edges e).sendDone = some g → g ≤ s.started) (hreads : P.RowsOwn s') :
    P.InvAt base s' := by
  obtain ⟨hstarted, hwaiting, hfailed⟩ := hmain
  have hself : s'.workers w = worker := by rw [hworkers, Function.update_self]
  have hother : ∀ j, j ≠ w → s'.workers j = s.workers j := fun j hj => by
    rw [hworkers, Function.update_of_ne hj]
  have hpos := P.topology.ranks_pos
  refine ⟨?_, ?_, ?_, ⟨?_, ?_, ?_, ?_⟩, ?_, ?_, hreads⟩
  · intro j hj
    rw [hstarted]
    by_cases hjw : j = w
    · rw [hjw, hself]
      exact hok
    · rw [hother j hjw, hreplies j hjw]
      exact h.workers j hj
  · intro j hj
    rw [hother j (by omega)]
    exact h.outside j hj
  · intro p hp
    rw [hstarted]
    by_cases hpw : p = w
    · subst hpw
      rw [hself, hother (p + P.topology.ranks) (by omega)]
      exact hout hp
    · by_cases hcw : p + P.topology.ranks = w
      · rw [hother p hpw, hcw, hself]
        exact hin p hcw.symm
      · rw [hother p hpw, hother _ hcw, hslots _ hcw (by omega)]
        exact h.edges p hp
  · intro g k hwait
    rw [hwaiting] at hwait
    rw [hstarted]
    exact h.main.forward g k hwait
  · intro g k hwait j hj
    rw [hwaiting] at hwait
    rw [hstarted]
    have hbefore := h.main.answered g k hwait j hj
    by_cases hjw : j = w
    · subst hjw
      exact hkeep hbefore
    · rw [hreplies j hjw]
      exact hbefore
  · intro g k hwait hkind j hkj hj
    rw [hwaiting] at hwait
    rw [hstarted]
    have hfresh := h.main.fresh g k hwait hkind j hkj hj
    by_cases hjw : j = w
    · subst hjw
      exact absurd (Fresh.resting (h.workers j hj) hfresh) hbusy
    · rw [hother j hjw, hreplies j hjw]
      exact hfresh
  · intro hwait hfail
    rw [hwaiting] at hwait
    rw [hfailed] at hfail
    exact absurd ((h.main.quiet hwait hfail).workers w hw) hbusy
  · intro j g hg
    rw [hstarted] at hg
    by_cases hjw : j = w
    · subst hjw
      exact hfuture g hg
    · rw [hreplies j hjw]
      exact h.future j g hg
  · intro e g hevent
    rw [hstarted]
    exact hevents e g hevent

end Pipeline
end Flambeau.Forward.Handoff
