import Flambeau.Forward.HandoffInvariant

namespace Flambeau.Forward.Handoff
open Systems
open Function (update)
namespace Pipeline

variable {P : Pipeline} {f w base : Nat} {worker worker' : Worker} {reply reply' : Option Bool}

namespace WorkerOk

/-- The stream is as it was. -/
theorem keep (h : P.WorkerOk f w base worker reply) (hstream : worker'.stream = worker.stream)
    (hdone : worker'.done = worker.done) (hphase : P.PhaseOk f w base worker' reply') :
    P.WorkerOk f w base worker' reply' := by
  refine ⟨?_, ?_, ?_, ?_, hphase⟩
  · rw [hdone]
    exact h.low
  · rw [hdone, hstream]
    exact h.high
  · rw [hstream]
    exact h.ops
  · rw [hstream]
    exact h.old

theorem enqueue (h : P.WorkerOk f w base worker reply)
    (hop : (P.script w f)[worker.issued base]? = some op) (hstream : worker'.stream = worker.stream ++ [op])
    (hdone : worker'.done = worker.done) (hphase : P.PhaseOk f w base worker' reply') :
    P.WorkerOk f w base worker' reply' ∧ worker'.issued base = worker.issued base + 1 ∧
      worker'.executed base = worker.executed base := by
  obtain ⟨hlen, -, -, -⟩ := h.counts
  have hlow := h.low
  have hhigh := h.high
  have hcount : worker'.issued base = worker.issued base + 1 := by
    unfold Worker.issued at hlen ⊢
    rw [hstream, List.length_append, List.length_singleton]
    omega
  refine ⟨⟨?_, ?_, ?_, ?_, hphase⟩, hcount, by unfold Worker.executed; rw [hdone]⟩
  · rw [hdone]
    exact hlow
  · rw [hdone, hstream, List.length_append]
    omega
  · rw [hstream]
    exact h.append hop
  · rw [hstream, List.take_append_of_le_length (by omega)]
    exact h.old

/-- One more operation has run. -/
theorem run (h : P.WorkerOk f w base worker reply) (hlt : worker.executed base < worker.issued base) :
    P.WorkerOk f w base { worker with done := worker.done + 1 } reply := by
  obtain ⟨hlen, hdone, -, -⟩ := h.counts
  have hlow := h.low
  refine ⟨Nat.le_succ_of_le hlow, by dsimp only; omega, h.ops, h.old, ?_⟩
  have hphase := h.phase
  unfold PhaseOk at hphase ⊢
  dsimp only at hphase ⊢
  cases hp : worker.phase with
  | idle =>
    rw [hp] at hphase
    rcases hphase with ⟨-, -, hzero⟩ | ⟨hinbox, hreply⟩
    · omega
    · refine .inr ⟨hinbox, fun hr => ⟨(hreply hr).1, fun hlast => ?_⟩⟩
      have hall := (hreply hr).2 hlast
      have hissued := (hreply hr).1
      omega
  | start g => rw [hp] at hphase; exact hphase
  | took g => rw [hp] at hphase; exact hphase
  | body g => rw [hp] at hphase; exact hphase
  | copied g => rw [hp] at hphase; exact hphase
  | sent g => rw [hp] at hphase; exact hphase

/-- A worker in a forward has no reply to it yet, and its inbox is empty. -/
theorem busy (h : P.WorkerOk f w base worker reply) (hphase : worker.phase ≠ .idle) :
    worker.inbox = [] ∧ reply = none := by
  have hthis := h.phase
  unfold PhaseOk at hthis
  cases hp : worker.phase with
  | idle => exact absurd hp hphase
  | start g => rw [hp] at hthis; exact ⟨hthis.2.1, hthis.2.2.1⟩
  | took g => rw [hp] at hthis; exact ⟨hthis.2.1, hthis.2.2.1⟩
  | body g => rw [hp] at hthis; exact ⟨hthis.2.1, hthis.2.2.1⟩
  | copied g => rw [hp] at hthis; exact ⟨hthis.2.1, hthis.2.2.1⟩
  | sent g => rw [hp] at hthis; exact ⟨hthis.2.1, hthis.2.2.1⟩

end WorkerOk

/-- The number of operations a step leaves unchanged keeps the edges as they are. -/
theorem edge_consumer_keep {s : State} {base : Nat → Nat} (h : P.InvAt base s)
    (hw : w < P.topology.workers) (hissued : worker.issued (base w) = (s.workers w).issued (base w))
    (hexecuted : worker.executed (base w) = (s.workers w).executed (base w))
    (hawaits : worker.Awaits s.started → (s.workers w).Awaits s.started) :
    ∀ p, w = p + P.topology.ranks →
      P.EdgeOk s.started p ((s.workers p).issued (base p)) ((s.workers p).executed (base p))
        (worker.issued (base w)) (worker.executed (base w)) (worker.Awaits s.started) (s.edges w) := by
  intro p hp
  have hedge := h.edges p (hp ▸ hw)
  rw [← hp] at hedge
  rw [hissued, hexecuted]
  exact hedge.consumer Iff.rfl .inl hawaits

theorem inside {s : State} {base : Nat → Nat} (h : P.InvAt base s) (hbusy : ¬ (s.workers w).Resting) :
    w < P.topology.workers := Nat.lt_of_not_le fun hle => hbusy (h.outside w hle)

theorem take_inv {s s' : State} {base : Nat → Nat} (h : P.InvAt base s)
    (hs : P.step s (.take w) = some s') : P.InvAt base s' := by
  unfold step at hs
  dsimp only at hs
  split at hs
  · rename_i g inbox hphase hinbox
    cases hs
    have hbusy : ¬ (s.workers w).Resting := fun hr => by
      have hnil := hr.2.1
      rw [hinbox] at hnil
      cases hnil
    have hw := inside h hbusy
    have hok := h.workers w hw
    have hat := hok.phase
    unfold PhaseOk at hat
    rw [hphase, hinbox] at hat
    obtain ⟨hone, hreply, hzero⟩ : g :: inbox = [s.started] ∧ s.replies w s.started = none ∧
        (s.workers w).issued (base w) = 0 := by
      rcases hat with hat | ⟨hnil, -⟩
      · exact hat
      · cases hnil
    cases hone
    refine worker_step h hw hbusy rfl ⟨rfl, rfl, rfl⟩ (fun _ _ => rfl) id (h.future w)
      (hok.keep rfl rfl ?_) (fun _ _ _ => rfl) ?_ (h.edges w) h.events h.reads
    · exact ⟨rfl, rfl, hreply, hzero⟩
    · exact edge_consumer_keep h hw rfl rfl fun _ => .inl hinbox
  · cases hs

theorem last_false (h : w + P.topology.ranks < P.topology.workers) : P.topology.isLast w = false := by
  simp only [Topology.isLast, decide_eq_false_iff_not]
  omega

theorem scriptLength_send (h : P.topology.isLast w = false) : P.scriptLength w = P.front w + 2 := by
  simp [scriptLength, h]

theorem not_resting {worker : Worker} (h : worker.phase ≠ .idle) : ¬ worker.Resting := fun hr => h hr.1

/-- A worker answers the latest forward and goes idle. -/
theorem answer_inv {s : State} {base : Nat → Nat} {ok : Bool} (h : P.InvAt base s)
    (hphase : (s.workers w).phase ≠ .idle)
    (hfull : ok = true → (s.workers w).issued (base w) = P.scriptLength w ∧
      (P.topology.isLast w = true → (s.workers w).executed (base w) = P.scriptLength w)) :
    P.InvAt base { s with
      workers := update s.workers w { s.workers w with phase := .idle }
      replies := update s.replies w (update (s.replies w) s.started (some ok)) } := by
  have hbusy := not_resting hphase
  have hw := inside h hbusy
  have hok := h.workers w hw
  obtain ⟨hinbox, hnone⟩ := hok.busy hphase
  have hreply : update s.replies w (update (s.replies w) s.started (some ok)) w s.started = some ok := by
    rw [Function.update_self, Function.update_self]
  refine worker_step h hw hbusy rfl ⟨rfl, rfl, rfl⟩ ?_ ?_ ?_ (hok.keep rfl rfl ?_) (fun _ _ _ => rfl)
    ?_ (h.edges w) h.events h.reads
  · intro j hj
    exact Function.update_of_ne hj _ _
  · intro hsome
    rw [hnone] at hsome
    cases hsome
  · intro g hg
    dsimp only
    rw [Function.update_self, Function.update_of_ne (Nat.ne_of_gt hg)]
    exact h.future w g hg
  · refine .inr ⟨hinbox, ?_⟩
    intro hsome
    dsimp only at hsome
    rw [hreply] at hsome
    exact hfull (Option.some.inj hsome)
  · refine edge_consumer_keep h hw rfl rfl ?_
    rintro (hnil | hstart)
    · dsimp only at hnil
      rw [hinbox] at hnil
      cases hnil
    · cases hstart

theorem fail_inv {s s' : State} {base : Nat → Nat} (h : P.InvAt base s)
    (hs : P.step s (.fail w) = some s') : P.InvAt base s' := by
  have hphase : (s.workers w).phase ≠ .idle := by
    intro hidle
    simp [step, hidle] at hs
  have hat := (h.workers w (inside h (not_resting hphase))).phase
  have hanswer := @answer_inv _ _ _ _ false h hphase (fun hfalse => by cases hfalse)
  unfold PhaseOk at hat
  unfold step at hs
  dsimp only at hs
  split at hs <;> rename_i hp
  · cases hs
  all_goals
    rw [hp] at hat
    obtain ⟨rfl, -⟩ := hat
    cases hs
    exact hanswer

theorem embed_inv {s s' : State} {base : Nat → Nat} (h : P.InvAt base s)
    (hs : P.step s (.embed w) = some s') : P.InvAt base s' := by
  unfold step at hs
  dsimp only at hs
  split at hs
  · rename_i g hphase
    split at hs
    · rename_i hfirst
      cases hs
      have hbusy : ¬ (s.workers w).Resting := not_resting (by rw [hphase]; exact fun hp => by cases hp)
      have hw := inside h hbusy
      have hok := h.workers w hw
      have hat := hok.phase
      unfold PhaseOk at hat
      rw [hphase] at hat
      obtain ⟨hg, hinbox, hreply, hzero⟩ := hat
      refine worker_step h hw hbusy rfl ⟨rfl, rfl, rfl⟩ (fun _ _ => rfl) id (h.future w)
        (hok.keep rfl rfl ?_) (fun _ _ _ => rfl) ?_ (h.edges w) h.events h.reads
      · refine ⟨hg, hinbox, hreply, ?_⟩
        rw [front, if_pos hfirst]
        exact hzero
      · refine edge_consumer_keep h hw rfl rfl ?_
        intro _
        rw [← hg]
        exact .inr hphase
    · cases hs
  · cases hs

/-- A worker in a forward enqueues the next operation of its script. -/
theorem enqueue_step {s s' : State} {base : Nat → Nat} {phase : Phase} {op : Op} (h : P.InvAt base s)
    (hbusy : (s.workers w).phase ≠ .idle) (hphase : ∀ f, phase ≠ .start f)
    (hop : (P.script w s.started)[(s.workers w).issued (base w)]? = some op)
    (hworkers : s'.workers = update s.workers w
      { s.workers w with phase := phase, stream := (s.workers w).stream ++ [op] })
    (hmain : s'.started = s.started ∧ s'.waiting = s.waiting ∧ s'.failed = s.failed)
    (hsame : s'.replies = s.replies ∧ s'.reads = s.reads)
    (hok : ∀ worker : Worker, worker.phase = phase → worker.inbox = [] →
      worker.issued (base w) = (s.workers w).issued (base w) + 1 →
      P.PhaseOk s.started w (base w) worker none)
    (hslots : ∀ e, e ≠ w → e ≠ w + P.topology.ranks → s'.edges e = s.edges e)
    (hin : ∀ p awaits, w = p + P.topology.ranks → ¬ awaits →
      P.EdgeOk s.started p ((s.workers p).issued (base p)) ((s.workers p).executed (base p))
        ((s.workers w).issued (base w) + 1) ((s.workers w).executed (base w)) awaits (s'.edges w))
    (hout : w + P.topology.ranks < P.topology.workers →
      P.EdgeOk s.started w ((s.workers w).issued (base w) + 1) ((s.workers w).executed (base w))
        ((s.workers (w + P.topology.ranks)).issued (base (w + P.topology.ranks)))
        ((s.workers (w + P.topology.ranks)).executed (base (w + P.topology.ranks)))
        ((s.workers (w + P.topology.ranks)).Awaits s.started) (s'.edges (w + P.topology.ranks)))
    (hevents : ∀ e g, (s'.edges e).sendDone = some g → g ≤ s.started) : P.InvAt base s' := by
  have hw := inside h (not_resting hbusy)
  have hwok := h.workers w hw
  obtain ⟨hinbox, hreply⟩ := hwok.busy hbusy
  obtain ⟨hreplies, hreads⟩ := hsame
  have hlow := hwok.low
  have hhigh := hwok.high
  obtain ⟨worker, hworker⟩ : ∃ worker : Worker, worker =
    { s.workers w with phase := phase, stream := (s.workers w).stream ++ [op] } := ⟨_, rfl⟩
  rw [← hworker] at hworkers
  have hstream : worker.stream = (s.workers w).stream ++ [op] := by rw [hworker]
  have hinbox' : worker.inbox = [] := by rw [hworker]; exact hinbox
  have hcount : worker.issued (base w) = (s.workers w).issued (base w) + 1 := by
    unfold Worker.issued
    rw [hstream, List.length_append, List.length_singleton]
    omega
  have hphase' := hok worker (by rw [hworker]) hinbox' hcount
  rw [← hreply] at hphase'
  obtain ⟨hok', hissued, hexecuted⟩ := hwok.enqueue hop hstream (by rw [hworker]) hphase'
  rw [← hreplies] at hok'
  refine worker_step h hw (not_resting hbusy) hworkers hmain (fun _ _ => by rw [hreplies])
    (by rw [hreplies]; exact id) (fun g hg => by rw [hreplies]; exact h.future w g hg) hok' hslots
    ?_ ?_ hevents ?_
  · intro p hp
    rw [hissued, hexecuted]
    refine hin p _ hp ?_
    rintro (hnil | hstart)
    · rw [hinbox'] at hnil
      cases hnil
    · rw [hworker] at hstart
      exact hphase _ hstart
  · intro hlt
    rw [hissued, hexecuted]
    exact hout hlt
  · unfold RowsOwn
    rw [hreads]
    exact h.reads

theorem recvView_inv {s s' : State} {base : Nat → Nat} (h : P.InvAt base s)
    (hs : P.step s (.recvView w) = some s') : P.InvAt base s' := by
  unfold step at hs
  dsimp only at hs
  split at hs
  · rename_i g hphase
    split at hs
    · cases hs
    split at hs
    · cases hs
    cases hs
    have hbusy : (s.workers w).phase ≠ .idle := by rw [hphase]; exact fun hp => by cases hp
    have hw := inside h (not_resting hbusy)
    have hat := (h.workers w hw).phase
    unfold PhaseOk at hat
    rw [hphase] at hat
    obtain ⟨rfl, -, -, hfirst, hone⟩ := hat
    refine @enqueue_step _ _ _ _ _ _ (.use w s.started) h hbusy (fun f hf => by cases hf) ?_ rfl ⟨rfl, rfl, rfl⟩ ⟨rfl, rfl⟩ ?_ (fun _ _ _ => rfl) ?_ ?_ h.events
    · rw [hone]
      exact (script_recv hfirst).2
    · intro worker hp hinbox hcount
      unfold PhaseOk
      rw [hp]
      refine ⟨rfl, hinbox, rfl, ?_⟩
      simp [hcount, hone, front, hfirst]
    · intro p awaits hp hnot
      have hedge := h.edges p (hp ▸ hw)
      rw [← hp] at hedge
      exact hedge.consumer (by omega) .inl (fun ha => absurd ha hnot)
    · intro hout
      have hlength := scriptLength_send (last_false hout)
      have hfront : P.front w = 2 := by simp [front, hfirst]
      exact (h.edges w hout).produces (by omega) (by omega) rfl (fun _ => rfl)
  · cases hs

theorem recvTake_inv {s s' : State} {base : Nat → Nat} (h : P.InvAt base s)
    (hs : P.step s (.recvTake w) = some s') : P.InvAt base s' := by
  have hphase : ∃ g, (s.workers w).phase = .start g := by
    cases hp : (s.workers w).phase <;> simp [step, hp] at hs
    exact ⟨_, rfl⟩
  obtain ⟨g, hphase⟩ := hphase
  have hbusy : (s.workers w).phase ≠ .idle := by rw [hphase]; exact fun hp => by cases hp
  have hw := inside h (not_resting hbusy)
  have hat := (h.workers w hw).phase
  unfold PhaseOk at hat
  rw [hphase] at hat
  obtain ⟨rfl, -, -, hzero⟩ := hat
  have hfirst : P.topology.isFirst w = false := by
    cases hf : P.topology.isFirst w with
    | false => rfl
    | true => simp [step, hphase, hf] at hs
  have hranks : P.topology.ranks ≤ w := by
    simpa [Topology.isFirst] using hfirst
  obtain ⟨p, hp⟩ : ∃ p, w = p + P.topology.ranks := ⟨w - P.topology.ranks, by omega⟩
  have hedge := h.edges p (hp ▸ hw)
  rw [← hp] at hedge
  -- The event is there, and it is this forward's.
  have hevent : (s.edges w).sendDone = some s.started := by
    cases hkind : P.topology.kind with
    | pp =>
      have hready := hedge.pp hkind (.inr hphase)
      rcases hedge.published hready with hevent | hpos
      · exact hevent
      · omega
    | hybrid =>
      cases hsend : (s.edges w).sendDone with
      | none => simp [step, hphase, hfirst, hsend, hkind] at hs
      | some g => rw [hedge.hybrid hkind g hsend]
  simp only [step, hphase, hfirst, hevent, Bool.false_eq_true, if_false, Option.some.injEq] at hs
  subst hs
  refine @enqueue_step _ _ _ _ _ _ (.wait w s.started) h hbusy (fun f hf => by cases hf) ?_ rfl ⟨rfl, rfl, rfl⟩ ⟨rfl, rfl⟩ ?_ ?_ ?_ ?_ ?_
  · rw [hzero]
    exact (script_recv hfirst).1
  · intro worker hp' hinbox hcount
    unfold PhaseOk
    rw [hp']
    exact ⟨rfl, hinbox, rfl, hfirst, by rw [hcount, hzero]⟩
  · intro e he _
    exact Function.update_of_ne he _ _
  · intro p' awaits hp' hnot
    obtain rfl : p' = p := by omega
    dsimp only
    rw [Function.update_self]
    exact hedge.takes hevent (by omega) hnot
  · intro hout
    have hlength := scriptLength_send (last_false hout)
    have hfront : P.front w = 2 := by simp [front, hfirst]
    have hpos := P.topology.ranks_pos
    dsimp only
    rw [Function.update_of_ne (by omega)]
    exact (h.edges w hout).produces (by omega) (by omega) rfl (fun _ => rfl)
  · intro e g hsend
    dsimp only at hsend
    by_cases he : e = w
    · rw [he, Function.update_self] at hsend
      cases hsend
    · rw [Function.update_of_ne he] at hsend
      exact h.events e g hsend

/-- The consumer's side of `peer_send` comes after its own edge. -/
theorem later_consumer {s : State} {base : Nat → Nat} (h : P.InvAt base s)
    (hw : w < P.topology.workers) (hissued : P.front w ≤ (s.workers w).issued (base w)) :
    ∀ p awaits, w = p + P.topology.ranks → ¬ awaits →
      P.EdgeOk s.started p ((s.workers p).issued (base p)) ((s.workers p).executed (base p))
        ((s.workers w).issued (base w) + 1) ((s.workers w).executed (base w)) awaits (s.edges w) := by
  intro p awaits hp hnot
  have hedge := h.edges p (hp ▸ hw)
  rw [← hp] at hedge
  have hfront : P.front w = 2 := by simp [front, Topology.isFirst, hp]
  exact hedge.consumer (by omega) .inl (fun ha => absurd ha hnot)

theorem sendCopy_inv {s s' : State} {base : Nat → Nat} (h : P.InvAt base s)
    (hs : P.step s (.sendCopy w) = some s') : P.InvAt base s' := by
  unfold step at hs
  dsimp only at hs
  split at hs
  · rename_i g hphase
    split at hs
    · cases hs
    rename_i hnot
    have hlast : P.topology.isLast w = false := by simpa using hnot
    have hbusy : (s.workers w).phase ≠ .idle := by rw [hphase]; exact fun hp => by cases hp
    have hw := inside h (not_resting hbusy)
    have hok := h.workers w hw
    have hat := hok.phase
    unfold PhaseOk at hat
    rw [hphase] at hat
    obtain ⟨rfl, -, -, hfront⟩ := hat
    have hpos := P.topology.ranks_pos
    have hsend := (s.edges (w + P.topology.ranks)).grow_sendDone
      ((P.batch s.started).emitted * P.hidden * 2)
    cases hs
    refine @enqueue_step _ _ _ _ _ _ (.copy (w + P.topology.ranks) s.started (P.batch s.started).emitted) h hbusy (fun f hf => by cases hf) ?_ rfl
      ⟨rfl, rfl, rfl⟩ ⟨rfl, rfl⟩ ?_ ?_ ?_ ?_ ?_
    · rw [hfront]
      exact (script_send hlast).1
    · intro worker hp hinbox hcount
      unfold PhaseOk
      rw [hp]
      exact ⟨rfl, hinbox, rfl, hlast, by rw [hcount, hfront]⟩
    · intro e _ he
      exact Function.update_of_ne he _ _
    · intro p awaits hp hnot
      dsimp only
      rw [Function.update_of_ne (by omega)]
      exact later_consumer h hw (Nat.le_of_eq hfront.symm) p awaits hp hnot
    · intro hout
      have hlength := scriptLength_send hlast
      dsimp only
      rw [Function.update_self]
      have hle := hok.counts.2.2.1
      exact (h.edges w hout).produces (by omega) (by omega) hsend (fun hpast => by omega)
    · intro e g hevent
      dsimp only at hevent
      by_cases he : e = w + P.topology.ranks
      · rw [he, Function.update_self, hsend] at hevent
        exact h.events _ g hevent
      · rw [Function.update_of_ne he] at hevent
        exact h.events e g hevent
  · cases hs

theorem sendDone_inv {s s' : State} {base : Nat → Nat} (h : P.InvAt base s)
    (hs : P.step s (.sendDone w) = some s') : P.InvAt base s' := by
  unfold step at hs
  dsimp only at hs
  split at hs
  · rename_i g hphase
    cases hs
    have hbusy : (s.workers w).phase ≠ .idle := by rw [hphase]; exact fun hp => by cases hp
    have hw := inside h (not_resting hbusy)
    have hok := h.workers w hw
    have hat := hok.phase
    unfold PhaseOk at hat
    rw [hphase] at hat
    obtain ⟨rfl, -, -, hlast, hcopied⟩ := hat
    have hpos := P.topology.ranks_pos
    refine @enqueue_step _ _ _ _ _ _ (.record (w + P.topology.ranks) s.started) h hbusy (fun f hf => by cases hf) ?_ rfl ⟨rfl, rfl, rfl⟩ ⟨rfl, rfl⟩ ?_ ?_ ?_ ?_ ?_
    · rw [hcopied]
      exact (script_send hlast).2
    · intro worker hp hinbox hcount
      unfold PhaseOk
      rw [hp]
      exact ⟨rfl, hinbox, rfl, hlast, by rw [hcount, hcopied]⟩
    · intro e _ he
      exact Function.update_of_ne he _ _
    · intro p awaits hp hnot
      dsimp only
      rw [Function.update_of_ne (by omega)]
      exact later_consumer h hw (by omega) p awaits hp hnot
    · intro hout
      have hlength := scriptLength_send hlast
      dsimp only
      rw [Function.update_self, hcopied]
      have hedge := (h.edges w hout).publishes (by omega)
      rw [hlength] at hedge
      exact hedge
    · intro e g hevent
      dsimp only at hevent
      by_cases he : e = w + P.topology.ranks
      · rw [he, Function.update_self] at hevent
        cases hevent
        exact Nat.le_refl _
      · rw [Function.update_of_ne he] at hevent
        exact h.events e g hevent
  · cases hs

theorem reply_inv {s s' : State} {base : Nat → Nat} (h : P.InvAt base s)
    (hs : P.step s (.reply w) = some s') : P.InvAt base s' := by
  have hphase : (s.workers w).phase ≠ .idle := by
    intro hidle
    simp [step, hidle] at hs
  have hok := h.workers w (inside h (not_resting hphase))
  have hat := hok.phase
  unfold PhaseOk at hat
  unfold step at hs
  dsimp only at hs
  split at hs
  · rename_i g hp
    rw [hp] at hat
    obtain ⟨rfl, -, -, hlast, hissued⟩ := hat
    cases hs
    refine answer_inv h hphase fun _ => ⟨?_, fun htrue => ?_⟩
    · rw [hissued, scriptLength_send hlast]
    · rw [hlast] at htrue
      cases htrue
  · rename_i g hp
    rw [hp] at hat
    obtain ⟨rfl, -, -, hissued⟩ := hat
    split at hs
    · rename_i hsync
      obtain ⟨hlast, hdone⟩ := Bool.and_eq_true_iff.mp hsync
      have hlength : P.scriptLength w = P.front w := by simp [scriptLength, hlast]
      obtain ⟨hlen, hran, -, -⟩ := hok.counts
      have hdone' : (s.workers w).done = (s.workers w).stream.length := by simpa using hdone
      cases hs
      exact answer_inv h hphase fun _ => ⟨by omega, fun _ => by omega⟩
    · cases hs
  · cases hs

/-- A worker's stream gets on by an operation that leaves its edges as they are, but for
the rows of the edge it produces on. -/
theorem run_step {s s' : State} {base : Nat → Nat} (h : P.InvAt base s)
    (hlt : (s.workers w).executed (base w) < (s.workers w).issued (base w))
    (hworkers : s'.workers = update s.workers w { s.workers w with done := (s.workers w).done + 1 })
    (hmain : s'.started = s.started ∧ s'.waiting = s.waiting ∧ s'.failed = s.failed)
    (hreplies : s'.replies = s.replies)
    (hslots : ∀ e, e ≠ w + P.topology.ranks → s'.edges e = s.edges e)
    (hsend : (s'.edges (w + P.topology.ranks)).sendDone = (s.edges (w + P.topology.ranks)).sendDone)
    (hin : ∀ p, w = p + P.topology.ranks → 0 < (s.workers w).executed (base w) ∨
      (s.workers p).executed (base p) = P.scriptLength p)
    (hrows : P.front w < (s.workers w).executed (base w) + 1 →
      (s'.edges (w + P.topology.ranks)).rows = some (s.started, (P.batch s.started).emitted))
    (hreads : P.RowsOwn s') : P.InvAt base s' := by
  have hbusy : ¬ (s.workers w).Resting := by
    rintro ⟨-, -, hdone⟩
    unfold Worker.issued Worker.executed at hlt
    omega
  have hw := inside h hbusy
  have hok := h.workers w hw
  have hpos := P.topology.ranks_pos
  have hexecuted : Worker.executed { s.workers w with done := (s.workers w).done + 1 } (base w) =
      (s.workers w).executed (base w) + 1 := by
    have hlow := hok.low
    unfold Worker.executed
    dsimp only
    omega
  refine worker_step h hw hbusy hworkers hmain (fun _ _ => by rw [hreplies]) (by rw [hreplies]; exact id)
    (fun g hg => by rw [hreplies]; exact h.future w g hg) (by rw [hreplies]; exact hok.run hlt)
    (fun e _ he => hslots e he) ?_ ?_ ?_ hreads
  · intro p hp
    have hedge := h.edges p (hp ▸ hw)
    rw [← hp] at hedge
    rw [hslots w (by omega), hexecuted]
    refine hedge.consumer Iff.rfl (fun _ => ?_) id
    exact hin p hp
  · intro hout
    have hle := hok.counts.2.2.2
    rw [hexecuted]
    exact (h.edges w hout).runs (by omega) hsend hrows
  · intro e g hevent
    by_cases he : e = w + P.topology.ranks
    · rw [he, hsend] at hevent
      exact h.events _ g hevent
    · rw [hslots e he] at hevent
      exact h.events e g hevent

/-- Once the consumer has got past the event, `dst` holds the forward's rows. -/
theorem rows_there {s : State} {base : Nat → Nat} {p : Nat} (h : P.InvAt base s)
    (hw : p + P.topology.ranks < P.topology.workers)
    (hran : 0 < (s.workers (p + P.topology.ranks)).executed (base (p + P.topology.ranks))) :
    (s.edges (p + P.topology.ranks)).rows = some (s.started, (P.batch s.started).emitted) := by
  have hedge := h.edges p hw
  have hlength := scriptLength_send (last_false hw)
  exact hedge.rows (by rw [hedge.ran hran]; omega)

theorem device_inv {s s' : State} {base : Nat → Nat}
    (hbatch : ∀ f, (P.batch f).tokens = (P.batch f).emitted) (h : P.InvAt base s)
    (hs : P.step s (.device w) = some s') : P.InvAt base s' := by
  unfold step at hs
  dsimp only at hs
  split at hs
  · cases hs
  rename_i op hop
  have hbusy : ¬ (s.workers w).Resting := by
    rintro ⟨-, -, hdone⟩
    have := (List.getElem?_eq_some_iff.mp hop).1
    omega
  have hw := inside h hbusy
  have hok := h.workers w hw
  obtain ⟨hscript, hlt⟩ := hok.head hop
  have hpos := P.topology.ranks_pos
  have hrows : ∀ hlast : P.topology.isLast w = false, P.front w < (s.workers w).executed (base w) →
      (s.edges (w + P.topology.ranks)).rows = some (s.started, (P.batch s.started).emitted) := by
    intro hlast hpast
    have hout : w + P.topology.ranks < P.topology.workers := by
      simpa [Topology.isLast] using hlast
    exact (h.edges w hout).rows hpast
  rcases script_get hscript with ⟨hfirst, hat, rfl⟩ | ⟨hfirst, hat, rfl⟩ | ⟨hlast, hat, rfl⟩ |
    ⟨hlast, hat, rfl⟩
  · unfold execute at hs
    dsimp only at hs
    split at hs
    · rename_i hfired
      cases hs
      have hfront : P.front w = 2 := by simp [front, hfirst]
      refine run_step h hlt rfl ⟨rfl, rfl, rfl⟩ rfl (fun _ _ => rfl) rfl ?_ ?_ h.reads
      · intro p hp
        rw [hp] at hfired
        exact .inr (fired_ran (h.workers p (by omega)) hfired)
      · intro hpast
        omega
    · cases hs
  · have hranks : P.topology.ranks ≤ w := by simpa [Topology.isFirst] using hfirst
    obtain ⟨p, hp⟩ : ∃ p, w = p + P.topology.ranks := ⟨w - P.topology.ranks, by omega⟩
    have hthere : (s.edges w).rows = some (s.started, (P.batch s.started).emitted) := by
      rw [hp]
      exact rows_there h (hp ▸ hw) (by rw [← hp]; omega)
    have hfront : P.front w = 2 := by simp [front, hfirst]
    have hkept : (if P.topology.kind = .hybrid then (s.edges w).rows.filter (·.1 == s.started)
        else (s.edges w).rows) = (s.edges w).rows := by
      rw [hthere]
      simp
    unfold execute at hs
    dsimp only at hs
    rw [hkept] at hs
    cases hs
    have hsame : update s.edges w { s.edges w with rows := (s.edges w).rows } = s.edges :=
      Function.update_eq_self w s.edges
    refine run_step h hlt rfl ⟨rfl, rfl, rfl⟩ rfl ?_ ?_ (fun _ _ => .inl (by omega))
      (fun hpast => by omega) ?_
    · intro e _
      rw [hsame]
    · rw [hsame]
    · intro r hr
      rcases List.mem_append.mp hr with hr | hr
      · exact h.reads r hr
      · obtain rfl := List.mem_singleton.mp hr
        dsimp only
        rw [hthere, hbatch]
  · unfold execute at hs
    cases hs
    refine run_step h hlt rfl ⟨rfl, rfl, rfl⟩ rfl ?_ ?_ ?_ ?_ h.reads
    · intro e he
      exact Function.update_of_ne he _ _
    · dsimp only
      rw [Function.update_self]
    · intro p hp
      have hfront : P.front w = 2 := by simp [front, Topology.isFirst, hp]
      exact .inl (by omega)
    · intro _
      dsimp only
      rw [Function.update_self]
  · unfold execute at hs
    cases hs
    refine run_step h hlt rfl ⟨rfl, rfl, rfl⟩ rfl (fun _ _ => rfl) rfl ?_ ?_ h.reads
    · intro p hp
      exact .inl (by omega)
    · intro _
      exact hrows hlast (by omega)

end Pipeline
end Flambeau.Forward.Handoff
