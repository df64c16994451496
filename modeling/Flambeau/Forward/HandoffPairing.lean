import Flambeau.Forward.HandoffRuns

namespace Flambeau.Forward.Handoff
open Systems
open Function (update)
namespace Pipeline

variable {P : Pipeline} {f w base : Nat} {worker : Worker}

/-- A worker that has returned its logits, or its hand-off, has enqueued its script. -/
theorem WorkerOk.answered (h : P.WorkerOk f w base worker (some true)) :
    worker.phase = .idle ∧ worker.inbox = [] ∧ worker.issued base = P.scriptLength w ∧
      (P.topology.isLast w = true → worker.executed base = P.scriptLength w) := by
  have hidle : worker.phase = .idle := by
    by_cases hp : worker.phase = .idle
    · exact hp
    · have hnone := (h.busy hp).2
      cases hnone
  have hat := h.phase
  unfold PhaseOk at hat
  rw [hidle] at hat
  rcases hat with ⟨-, hnone, -⟩ | ⟨hinbox, hfull⟩
  · cases hnone
  · exact ⟨hidle, hinbox, hfull rfl⟩

theorem scriptLength_consumer (p : Nat) : 0 < P.scriptLength (p + P.topology.ranks) := by
  have hfront : P.front (p + P.topology.ranks) = 2 := by simp [front, Topology.isFirst]
  unfold scriptLength
  omega

/-- Where every worker has answered, every stream has drained, from the last stage back. -/
theorem drained {s : State} {base : Nat → Nat} (h : P.InvAt base s)
    (hall : ∀ j, j < P.topology.workers → s.replies j s.started = some true) :
    ∀ w, w < P.topology.workers → (s.workers w).executed (base w) = P.scriptLength w := by
  suffices hdown : ∀ n w, P.topology.workers - w ≤ n → w < P.topology.workers →
      (s.workers w).executed (base w) = P.scriptLength w from fun w => hdown _ w (Nat.le_refl _)
  intro n
  induction n with
  | zero => intro w hn hw; omega
  | succ n ih =>
    intro w hn hw
    have hok := h.workers w hw
    rw [hall w hw] at hok
    cases hlast : P.topology.isLast w with
    | true => exact hok.answered.2.2.2 hlast
    | false =>
      have hpos := P.topology.ranks_pos
      have hout : w + P.topology.ranks < P.topology.workers := by
        simpa [Topology.isLast] using hlast
      have hconsumer := ih (w + P.topology.ranks) (by omega) hout
      refine (h.edges w hout).ran ?_
      rw [hconsumer]
      exact scriptLength_consumer w

theorem settled {s : State} {base : Nat → Nat} (h : P.InvAt base s)
    (hall : ∀ j, j < P.topology.workers → s.replies j s.started = some true) : P.Settled s := by
  refine ⟨?_, ?_⟩
  · intro w hw
    have hok := h.workers w hw
    obtain ⟨hlen, hdone, -, -⟩ := hok.counts
    have hran := drained h hall w hw
    rw [hall w hw] at hok
    obtain ⟨hidle, hinbox, hissued, -⟩ := hok.answered
    exact ⟨hidle, hinbox, by omega⟩
  · intro hkind p hp
    cases hsend : (s.edges (p + P.topology.ranks)).sendDone with
    | none => rfl
    | some g =>
      have hedge := h.edges p hp
      have hg := hedge.hybrid hkind g hsend
      subst hg
      have hzero := (hedge.event hsend).2
      have hok := h.workers (p + P.topology.ranks) hp
      rw [hall _ hp] at hok
      have hissued := hok.answered.2.2.1
      have hpos := P.scriptLength_consumer p
      omega

theorem inbox_counts (workers : Nat → Worker) (j : Nat) (inbox : List Nat) (w base : Nat) :
    (update workers j { workers j with inbox := inbox } w).issued base = (workers w).issued base ∧
      (update workers j { workers j with inbox := inbox } w).executed base =
        (workers w).executed base := by
  by_cases hw : w = j
  · subst hw
    rw [Function.update_self]
    exact ⟨rfl, rfl⟩
  · rw [Function.update_of_ne hw]
    exact ⟨rfl, rfl⟩

/-- The command of a late-dispatched stage goes to a worker that the forward has not
reached, behind a stage that has handed its rows over. -/
theorem late_command {s : State} {base : Nat → Nat} {k : Nat} (h : P.InvAt base s)
    (hkind : P.topology.kind = .pp) (hwait : s.waiting = some (s.started, k))
    (hreply : s.replies k s.started = some true) (hk : k + 1 < P.topology.workers) :
    (∀ w, w < P.topology.workers → P.WorkerOk s.started w (base w)
      (update s.workers (k + 1)
        { s.workers (k + 1) with inbox := (s.workers (k + 1)).inbox ++ [s.started] } w)
      (s.replies w s.started)) ∧ (s.workers k).issued (base k) = P.scriptLength k := by
  have hfresh := h.main.fresh _ _ hwait hkind (k + 1) (Nat.lt_succ_self k) hk
  refine ⟨?_, ?_⟩
  · intro w hw
    by_cases hwk : w = k + 1
    · subst hwk
      rw [Function.update_self]
      refine (h.workers (k + 1) hw).keep rfl rfl ?_
      unfold PhaseOk
      dsimp only
      rw [hfresh.phase]
      exact .inl ⟨by rw [hfresh.inbox]; rfl, hfresh.reply, hfresh.issued⟩
    · rw [Function.update_of_ne hwk]
      exact h.workers w hw
  · have hok := h.workers k (by omega)
    rw [hreply] at hok
    exact hok.answered.2.2.1

theorem collect_inv {s s' : State} {base : Nat → Nat} (h : P.InvAt base s)
    (hs : P.step s .collect = some s') : P.InvAt base s' := by
  unfold step at hs
  dsimp only at hs
  split at hs
  · cases hs
  rename_i g k hwait
  obtain ⟨rfl, hk⟩ := h.main.forward g k hwait
  split at hs
  · cases hs
  · -- The forward has failed.
    cases hs
    refine ⟨h.workers, h.outside, h.edges, ⟨?_, ?_, ?_, ?_⟩, h.future, h.events, h.reads⟩
    · intro g k hnone; cases hnone
    · intro g k hnone; cases hnone
    · intro g k hnone; cases hnone
    · intro _ hfail; cases hfail
  · rename_i hreply
    have hanswered : ∀ j, j < k + 1 → s.replies j s.started = some true := by
      intro j hj
      rcases Nat.lt_succ_iff_lt_or_eq.mp hj with hlt | rfl
      · exact h.main.answered _ _ hwait j hlt
      · exact hreply
    split at hs
    · rename_i hnext
      cases hs
      unfold commandNext
      cases hkind : P.topology.kind with
      | hybrid =>
        refine ⟨h.workers, h.outside, h.edges, ⟨?_, ?_, ?_, ?_⟩, h.future, h.events, h.reads⟩
        · rintro g j ⟨⟩
          exact ⟨rfl, hnext⟩
        · rintro g j ⟨⟩
          exact hanswered
        · rintro g j ⟨⟩ hpp
          rw [hkind] at hpp
          cases hpp
        · intro hnone; cases hnone
      | pp =>
        obtain ⟨hworkers, hready⟩ := late_command h hkind hwait hreply hnext
        have hranks := P.topology.pp_ranks hkind
        refine ⟨hworkers, ?_, ?_, ⟨?_, ?_, ?_, ?_⟩, h.future, h.events, h.reads⟩
        · intro w hw
          dsimp only
          rw [Function.update_of_ne (by omega)]
          exact h.outside w hw
        · intro p hp
          have hedge := h.edges p hp
          have hcounts := inbox_counts s.workers (k + 1) ((s.workers (k + 1)).inbox ++ [s.started])
          dsimp only
          rw [(hcounts _ _).1, (hcounts _ _).1, (hcounts _ _).2, (hcounts _ _).2]
          by_cases hpk : p = k
          · subst hpk
            exact { hedge with pp := fun _ _ => hready }
          · rw [Function.update_of_ne (by omega)]
            exact hedge
        · rintro g j ⟨⟩
          exact ⟨rfl, hnext⟩
        · rintro g j ⟨⟩
          exact hanswered
        · rintro g j ⟨⟩ _ i hi hiw
          dsimp only
          rw [Function.update_of_ne (by omega)]
          exact h.main.fresh _ _ hwait hkind i (by omega) hiw
        · intro hnone; cases hnone
    · rename_i hend
      cases hs
      refine ⟨h.workers, h.outside, h.edges, ⟨?_, ?_, ?_, ?_⟩, h.future, h.events, h.reads⟩
      · intro g k hnone; cases hnone
      · intro g k hnone; cases hnone
      · intro g k hnone; cases hnone
      · intro _ _
        obtain ⟨hworkers, hedges⟩ := settled h fun j hj => hanswered j (by omega)
        exact ⟨hworkers, hedges⟩

theorem WorkerOk.forward_le (h : P.WorkerOk f w base worker reply) :
    ∀ op ∈ worker.stream, op.forward ≤ f := by
  intro op hop
  rw [← List.take_append_drop base worker.stream] at hop
  rcases List.mem_append.mp hop with hold | hnew
  · exact Nat.le_of_lt (h.old op hold)
  · exact Nat.le_of_eq (script_forward (h.ops.subset hnew))

/-- The commands leave the streams alone. -/
theorem command_worker (workers : Nat → Worker) (f w : Nat) :
    (P.command workers f w).phase = (workers w).phase ∧
      (P.command workers f w).stream = (workers w).stream ∧
      (P.command workers f w).done = (workers w).done ∧
      ((P.command workers f w).inbox = (workers w).inbox ∨
        (P.command workers f w).inbox = (workers w).inbox ++ [f] ∧
          (P.topology.kind = .pp → w = 0) ∧ w < P.topology.workers) := by
  have hpos : 0 < P.topology.workers := Nat.mul_pos P.topology.stages_pos P.topology.ranks_pos
  unfold command
  cases P.topology.kind with
  | pp =>
    by_cases hw : w = 0
    · subst hw
      dsimp only
      rw [Function.update_self]
      exact ⟨rfl, rfl, rfl, .inr ⟨rfl, fun _ => rfl, hpos⟩⟩
    · dsimp only
      rw [Function.update_of_ne hw]
      exact ⟨rfl, rfl, rfl, .inl rfl⟩
  | hybrid =>
    by_cases hw : w < P.topology.workers
    · dsimp only
      rw [if_pos hw]
      exact ⟨rfl, rfl, rfl, .inr ⟨rfl, (fun hpp => by cases hpp), hw⟩⟩
    · dsimp only
      rw [if_neg hw]
      exact ⟨rfl, rfl, rfl, .inl rfl⟩

/-- A forward that starts on a pipeline at rest. -/
theorem dispatch_inv {s s' : State} {base : Nat → Nat} (h : P.InvAt base s)
    (hguard : P.Orderly s .dispatch) (hs : P.step s .dispatch = some s') :
    P.InvAt (fun w => (s.workers w).stream.length) s' := by
  unfold step at hs
  dsimp only at hs
  split at hs
  · cases hs
  rename_i hnone
  have hwait : s.waiting = none := by simpa using hnone
  have hrest : P.Settled s := by
    cases hfail : s.failed with
    | true => exact hguard hfail
    | false => exact h.main.quiet hwait hfail
  have hpos : 0 < P.topology.workers := Nat.mul_pos P.topology.stages_pos P.topology.ranks_pos
  have hreply : ∀ w, s.replies w (s.started + 1) = none :=
    fun w => h.future w _ (Nat.lt_succ_self _)
  have hissued : ∀ w, (P.command s.workers (s.started + 1) w).issued (s.workers w).stream.length = 0 := by
    intro w
    obtain ⟨-, hstream, -, -⟩ := command_worker (P := P) s.workers (s.started + 1) w
    unfold Worker.issued
    rw [hstream, Nat.sub_self]
  have hexecuted : ∀ w, w < P.topology.workers →
      (P.command s.workers (s.started + 1) w).executed (s.workers w).stream.length = 0 := by
    intro w hw
    obtain ⟨-, -, hdone, -⟩ := command_worker (P := P) s.workers (s.started + 1) w
    unfold Worker.executed
    rw [hdone, (hrest.workers w hw).2.2, Nat.sub_self]
  cases hs
  refine ⟨?_, ?_, ?_, ⟨?_, ?_, ?_, ?_⟩, ?_, ?_, h.reads⟩
  · intro w hw
    obtain ⟨hphase, hstream, hdone, hinbox⟩ := command_worker (P := P) s.workers (s.started + 1) w
    obtain ⟨hidle, hempty, hall⟩ := hrest.workers w hw
    refine ⟨?_, ?_, ?_, ?_, ?_⟩
    · exact Nat.le_of_eq (by rw [hdone, hall])
    · exact Nat.le_of_eq (by rw [hdone, hstream, hall])
    · dsimp only
      rw [hstream, List.drop_length]
      exact List.nil_prefix
    · intro op hop
      dsimp only at hop ⊢
      rw [hstream, List.take_length] at hop
      exact Nat.lt_succ_of_le ((h.workers w hw).forward_le op hop)
    · unfold PhaseOk
      dsimp only
      rw [hphase, hidle, hreply]
      rcases hinbox with hsame | ⟨hnew, -, -⟩
      · refine .inr ⟨by rw [hsame, hempty], ?_⟩
        intro hsome; cases hsome
      · exact .inl ⟨by rw [hnew, hempty]; rfl, rfl, hissued w⟩
  · intro w hw
    obtain ⟨hphase, hstream, hdone, hinbox⟩ := command_worker (P := P) s.workers (s.started + 1) w
    obtain ⟨hidle, hempty, hall⟩ := h.outside w hw
    rcases hinbox with hsame | ⟨-, -, hlt⟩
    · exact ⟨hphase.trans hidle, hsame.trans hempty, by dsimp only; rw [hdone, hstream, hall]⟩
    · omega
  · intro p hp
    have hlength := scriptLength_send (last_false hp)
    obtain ⟨hphase, -, -, hinbox⟩ :=
      command_worker (P := P) s.workers (s.started + 1) (p + P.topology.ranks)
    obtain ⟨hidle, hempty, -⟩ := hrest.workers _ hp
    have hranks := P.topology.ranks_pos
    dsimp only
    rw [hissued, hissued, hexecuted p (by omega), hexecuted _ hp]
    refine ⟨by omega, by omega, ?_, by omega, by omega, ?_, ?_⟩
    · intro hevent
      have hle := h.events _ _ hevent
      omega
    · intro hkind g hevent
      rw [hrest.edges hkind p hp] at hevent
      cases hevent
    · intro hkind hawaits
      rcases hawaits with hone | hstart
      · rcases hinbox with hsame | ⟨-, hzero, -⟩
        · rw [hsame, hempty] at hone
          cases hone
        · have := hzero hkind
          omega
      · rw [hphase, hidle] at hstart
        cases hstart
  · rintro g k ⟨⟩
    exact ⟨rfl, hpos⟩
  · rintro g k ⟨⟩ j hj
    omega
  · rintro g k ⟨⟩ hkind j hj hjw
    obtain ⟨hphase, -, -, hinbox⟩ := command_worker (P := P) s.workers (s.started + 1) j
    obtain ⟨hidle, hempty, -⟩ := hrest.workers j hjw
    refine ⟨hphase.trans hidle, ?_, hreply j, hissued j⟩
    rcases hinbox with hsame | ⟨-, hzero, -⟩
    · exact hsame.trans hempty
    · have := hzero hkind
      omega
  · intro hnone; cases hnone
  · intro w g hg
    exact h.future w g (by dsimp only at hg; omega)
  · intro e g hevent
    exact Nat.le_succ_of_le (h.events e g hevent)

theorem init_inv (P : Pipeline) : P.InvAt (fun _ => 0) P.init := by
  have hrest : P.Settled P.init := ⟨fun _ _ => ⟨rfl, rfl, rfl⟩, fun _ _ _ => rfl⟩
  refine ⟨?_, fun _ _ => ⟨rfl, rfl, rfl⟩, ?_, ⟨?_, ?_, ?_, fun _ _ => hrest⟩, fun _ _ _ => rfl, ?_, ?_⟩
  · intro w _
    refine ⟨Nat.le_refl 0, Nat.le_refl 0, List.nil_prefix, ?_, .inr ⟨rfl, ?_⟩⟩
    · intro op hop; cases hop
    · intro hsome; cases hsome
  · intro p hp
    have hlength := scriptLength_send (last_false hp)
    refine ⟨?_, ?_, ?_, ?_, ?_, ?_, ?_⟩
    · intro hpos; exact absurd hpos (Nat.lt_irrefl 0)
    · intro hpos; exact absurd hpos (Nat.lt_irrefl 0)
    · intro hevent; cases hevent
    · intro hzero
      change 0 = P.scriptLength p at hzero
      omega
    · intro hpos; exact absurd hpos (Nat.not_lt_zero _)
    · intro _ g hevent; cases hevent
    · rintro _ (hone | hstart)
      · cases hone
      · cases hstart
  · intro g k hnone; cases hnone
  · intro g k hnone; cases hnone
  · intro g k hnone; cases hnone
  · intro e g hevent; cases hevent
  · intro r hr; cases hr

/-- Every orderly step keeps the invariant. -/
theorem step_inv {s s' : State} {a : Action} (hbatch : ∀ f, (P.batch f).tokens = (P.batch f).emitted)
    (h : P.Inv s) (hguard : P.Orderly s a) (hs : P.step s a = some s') : P.Inv s' := by
  obtain ⟨base, h⟩ := h
  cases a with
  | dispatch => exact ⟨_, dispatch_inv h hguard hs⟩
  | collect => exact ⟨base, collect_inv h hs⟩
  | take w => exact ⟨base, take_inv h hs⟩
  | fail w => exact ⟨base, fail_inv h hs⟩
  | embed w => exact ⟨base, embed_inv h hs⟩
  | recvTake w => exact ⟨base, recvTake_inv h hs⟩
  | recvView w => exact ⟨base, recvView_inv h hs⟩
  | sendCopy w => exact ⟨base, sendCopy_inv h hs⟩
  | sendDone w => exact ⟨base, sendDone_inv h hs⟩
  | reply w => exact ⟨base, reply_inv h hs⟩
  | device w => exact ⟨base, device_inv hbatch h hs⟩

/-- What waits in a stream is the latest forward's. -/
theorem pending_script {s : State} {base : Nat → Nat} (h : P.InvAt base s)
    (hw : w < P.topology.workers) {op : Op} (hop : op ∈ s.pending w) :
    op.forward = s.started ∧ 0 < (s.workers w).issued (base w) := by
  have hok := h.workers w hw
  obtain ⟨hlen, hdone, -, -⟩ := hok.counts
  unfold State.pending at hop
  rw [hdone, ← List.drop_drop] at hop
  have hnew := List.mem_of_mem_drop hop
  have hlength := List.length_pos_of_mem hnew
  rw [List.length_drop] at hlength
  exact ⟨script_forward (hok.ops.subset hnew), by omega⟩

theorem no_overwrite {s : State} {base : Nat → Nat} (h : P.InvAt base s) : P.NoOverwrite s := by
  rintro p _ hp rfl hc
  refine ⟨?_, ?_⟩
  · intro f rows hcopy g huse
    exact (pending_script h hc huse).1.trans (pending_script h hp hcopy).1.symm
  · intro f hphase g huse
    have hlength := scriptLength_send (last_false hc)
    have hfull := (h.edges p hc).after (pending_script h hc huse).2
    have hat := (h.workers p hp).phase
    unfold PhaseOk at hat
    rw [hphase] at hat
    obtain ⟨-, -, -, hfront⟩ := hat
    omega

/-- In the runs where a forward hands over the rows that the next stage asks for, and
comes after a failed one only once the pipeline has settled, every stage reads its own
forward's rows, and none is overwritten under its reader. -/
theorem handoff_paired (P : Pipeline) (hbatch : ∀ f, (P.batch f).tokens = (P.batch f).emitted) :
    ∀ s, P.system.Run P.Orderly s → P.RowsOwn s ∧ P.NoOverwrite s := by
  intro s hrun
  have hinv : P.Inv s := hrun.invariant (M := P.system) (I := P.Inv)
    (fun s hs => hs ▸ ⟨_, init_inv P⟩) fun s a s' hI hguard hs => step_inv hbatch hI hguard hs
  obtain ⟨base, h⟩ := hinv
  exact ⟨h.reads, no_overwrite h⟩

/-- Two stages of two ranks. -/
def twoByTwo : Pipeline where
  topology := ⟨.hybrid, 2, 2, by decide, by decide, by decide⟩
  hidden := 2
  prealloc := 8
  batch _ := ⟨1, 1⟩

theorem meets_quiet {s : State} {as : List Action} (h : Action.dispatch ∉ as) :
    System.Meets P.system P.Orderly s as := by
  induction as generalizing s with
  | nil => trivial
  | cons a as ih =>
    rw [List.mem_cons, not_or] at h
    refine ⟨?_, fun s' _ => ih h.2⟩
    cases a with
    | dispatch => exact absurd rfl h.1
    | _ => trivial

/-- The second stage gives up before the first has sent anything. -/
def givesUp : List Action :=
  [.take 2, .fail 2, .take 3, .fail 3, .take 0, .fail 0, .take 1, .fail 1, .collect]

/-- A forward in which the first rank of each stage is ahead of the second. -/
def handsOver : List Action :=
  [.take 0, .embed 0, .sendCopy 0, .sendDone 0, .device 0, .device 0, .take 2, .recvTake 2,
    .recvView 2, .device 2, .device 2]

theorem handoff_paired_again : ∃ s, twoByTwo.system.Run twoByTwo.Orderly s ∧
    s.reads = [⟨2, 2, some (2, 1)⟩] ∧ twoByTwo.RowsOwn s ∧ twoByTwo.NoOverwrite s := by
  have hgave : (twoByTwo.system.runFrom twoByTwo.init (.dispatch :: givesUp)).map (fun s =>
      (decide (∀ w : Nat, w < 4 → (s.workers w).Resting), (s.edges 2).sendDone, (s.edges 3).sendDone)) =
      some (true, none, none) := by decide
  obtain ⟨s₁, hs₁, hrest⟩ := Option.map_eq_some_iff.mp hgave
  simp only [Prod.mk.injEq, decide_eq_true_eq] at hrest
  obtain ⟨hworkers, htwo, hthree⟩ := hrest
  have hsettled : twoByTwo.Settled s₁ := by
    refine ⟨hworkers, ?_⟩
    intro _ p hp
    have hlt : p < 2 := Nat.lt_of_add_lt_add_right hp
    obtain rfl | rfl : p = 0 ∨ p = 1 := by omega
    · exact htwo
    · exact hthree
  have hfirst : System.Meets twoByTwo.system twoByTwo.Orderly twoByTwo.init (.dispatch :: givesUp) :=
    ⟨(fun hfailed => by cases hfailed), fun _ _ => meets_quiet (by decide)⟩
  have hrun₁ : twoByTwo.system.Run twoByTwo.Orderly s₁ := System.Run.runFrom (.init rfl) hfirst hs₁
  have hread : (twoByTwo.system.runFrom twoByTwo.init
      ((.dispatch :: givesUp) ++ .dispatch :: handsOver)).map (·.reads) =
      some [⟨2, 2, some (2, 1)⟩] := by decide
  rw [System.runFrom_append, hs₁, Option.bind_some] at hread
  obtain ⟨s₂, hs₂, hreads⟩ := Option.map_eq_some_iff.mp hread
  have hsecond : System.Meets twoByTwo.system twoByTwo.Orderly s₁ (.dispatch :: handsOver) :=
    ⟨fun _ => hsettled, fun _ _ => meets_quiet (by decide)⟩
  have hrun₂ : twoByTwo.system.Run twoByTwo.Orderly s₂ := hrun₁.runFrom hsecond hs₂
  exact ⟨s₂, hrun₂, hreads, handoff_paired twoByTwo (fun _ => rfl) s₂ hrun₂⟩

/-- The second stage gives up before the first has sent; the event stays. -/
def sendsLate : List Action :=
  [.take 2, .fail 2, .take 3, .fail 3, .take 0, .embed 0, .sendCopy 0, .sendDone 0, .reply 0, .take 1,
    .embed 1, .sendCopy 1, .sendDone 1, .reply 1, .collect, .collect, .collect, .device 0, .device 0]

/-- In the forward after it the second stage computes with the rows of the first. -/
theorem stale_rows_read : ¬ ∀ s, twoByTwo.system.Reachable s →
    twoByTwo.RowsOwn s ∧ twoByTwo.NoOverwrite s := by
  intro hall
  have hread : (twoByTwo.system.runFrom twoByTwo.init ((.dispatch :: sendsLate) ++
      [.dispatch, .take 2, .recvTake 2, .recvView 2, .device 2, .device 2])).map (·.reads) =
      some [⟨2, 2, some (1, 1)⟩] := by decide
  obtain ⟨s, hs, hreads⟩ := Option.map_eq_some_iff.mp hread
  have hown := (hall s (System.Run.runFrom (.init rfl) (System.meets_true _ _) hs)).1
  have hrows := hown ⟨2, 2, some (1, 1)⟩ (by rw [hreads]; exact List.mem_singleton_self _)
  exact absurd hrows (by decide)

end Pipeline
end Flambeau.Forward.Handoff
