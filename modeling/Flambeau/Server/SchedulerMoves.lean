import Flambeau.Server.Scheduler

namespace Flambeau.Server.Scheduler
open Flambeau.Systems

variable {T : Type} [DecidableEq T]

/-- What a step of thread `t` can do, each case with its guard. -/
inductive Move (cfg : Config) (s : State T) (t : T) : State T → Prop where
  | call : s.pc t = .idle → Move cfg s t ((s.open_ t).goto t (.enqueue ⟨slotIdx, tokenId, position, t⟩))
  | begin : s.pc t = .idle → Move cfg s t (s.goto t (.prefill start len))
  | lockToPush : s.pc t = .enqueue entry → s.queueLock = none →
      Move cfg s t ((s.lockQueue t).goto t (.enqueueLocked entry))
  | push : s.pc t = .enqueueLocked entry →
      Move cfg s t (((s.setPending (s.batchedPending ++ [entry])).unlockQueue).goto t .pushed)
  | lead : s.pc t = .pushed → s.dispatcher = none → Move cfg s t ((s.lockDispatcher t).goto t .leading)
  | follow : s.pc t = .pushed → s.dispatcher = some h → Move cfg s t (s.goto t .waiting)
  | lockToCheck : s.pc t = .leading → s.queueLock = none →
      Move cfg s t ((s.lockQueue t).goto t .checking)
  | leave : s.pc t = .checking → s.batchedPending = [] →
      Move cfg s t (s.dropDispatcher.goto t .leaving)
  | take : s.pc t = .checking →
      Move cfg s t (((s.setPending []).unlockQueue).goto t (.dispatching s.batchedPending))
  | unlock : s.pc t = .leaving → Move cfg s t (s.unlockQueue.goto t .waiting)
  | dispatch : s.pc t = .dispatching batch → Move cfg s t ((s.answer batch).goto t .leading)
  | receive : s.pc t = .waiting → s.answered t = true → Move cfg s t (s.goto t .idle)
  | lockChunk : s.pc t = .prefill start len → s.dispatcher = none →
      Move cfg s t ((s.lockDispatcher t).goto t (.window start len))
  | chunkAlone : s.pc t = .prefill start len → Move cfg s t (s.goto t (.forward start len))
  | done : s.pc t = .prefill start len → Move cfg s t (s.goto t .idle)
  | lockToDrain : s.pc t = .window start len → s.queueLock = none →
      Move cfg s t ((s.lockQueue t).goto t (.draining start len))
  | drain : s.pc t = .draining start len →
      Move cfg s t (((s.setPending []).unlockQueue).goto t (.drained start len s.batchedPending))
  | nothing : s.pc t = .drained start len [] → Move cfg s t (s.goto t (.releasing start len .forward))
  | lockToRepush : s.pc t = .drained start len batch → s.queueLock = none →
      Move cfg s t ((s.lockQueue t).goto t (.repushing start len batch))
  | mixed : s.pc t = .drained start len batch → (after = .next ∨ after = .fail) →
      Move cfg s t ((s.answer batch).goto t (.releasing start len after))
  | repush : s.pc t = .repushing start len batch →
      Move cfg s t (((s.setPending (s.batchedPending ++ batch)).unlockQueue).goto t
        (.releasing start len .forward))
  | release : s.pc t = .releasing start len after →
      (next = .forward start len ∨ (∃ end_, next = .prefill end_ len) ∨ next = .idle) →
      Move cfg s t (s.dropDispatcher.goto t next)
  | advance : s.pc t = .forward start len → Move cfg s t (s.goto t (.prefill end_ len))
  | fail : s.pc t = .forward start len → Move cfg s t (s.goto t .idle)

omit [DecidableEq T] in
theorem whenFree_some {lock : Option T} {s s' : State T} (h : whenFree lock s = some s') :
    lock = none ∧ s' = s := by
  unfold whenFree at h
  split at h
  · cases h
    exact ⟨rfl, rfl⟩
  · cases h

theorem decode_move {cfg : Config} {s s' : State T} (h : decodeStep s t = some s') :
    Move cfg s t s' := by
  unfold decodeStep at h
  split at h
  · rename_i hpc
    obtain ⟨hq, rfl⟩ := whenFree_some h
    exact .lockToPush hpc hq
  · rename_i hpc
    cases h
    exact .push hpc
  · rename_i hpc
    split at h
    · rename_i hd
      cases h
      exact .lead hpc hd
    · rename_i hd
      cases h
      exact .follow hpc hd
  · rename_i hpc
    obtain ⟨hq, rfl⟩ := whenFree_some h
    exact .lockToCheck hpc hq
  · rename_i hpc
    split at h
    · rename_i he
      cases h
      exact .leave hpc (List.isEmpty_iff.mp he)
    · cases h
      exact .take hpc
  · rename_i hpc
    cases h
    exact .unlock hpc
  · rename_i hpc
    cases h
    exact .dispatch hpc
  · rename_i hpc
    split at h
    · rename_i ha
      cases h
      exact .receive hpc ha
    · cases h
  · cases h

theorem prefill_move {cfg : Config} {s s' : State T} (h : prefillStep cfg s t ok = some s') :
    Move cfg s t s' := by
  unfold prefillStep at h
  split at h
  · rename_i hpc
    split at h
    · split at h
      · obtain ⟨hd, rfl⟩ := whenFree_some h
        exact .lockChunk hpc hd
      · cases h
        exact .chunkAlone hpc
    · cases h
      exact .done hpc
  · rename_i hpc
    obtain ⟨hq, rfl⟩ := whenFree_some h
    exact .lockToDrain hpc hq
  · rename_i hpc
    cases h
    exact .drain hpc
  · rename_i hpc
    split at h
    · rename_i he
      cases h
      rw [List.isEmpty_iff.mp he] at hpc
      exact .nothing hpc
    · split at h
      · obtain ⟨hq, rfl⟩ := whenFree_some h
        exact .lockToRepush hpc hq
      · cases h
        refine .mixed hpc ?_
        cases ok
        · exact .inr rfl
        · exact .inl rfl
  · rename_i hpc
    cases h
    exact .repush hpc
  · rename_i after hpc
    cases h
    refine .release hpc ?_
    cases after with
    | forward => exact .inl rfl
    | next => exact .inr (.inl ⟨_, rfl⟩)
    | fail => exact .inr (.inr rfl)
  · rename_i hpc
    cases h
    cases ok with
    | true => exact .advance hpc
    | false => exact .fail hpc
  · cases h

/-- Every step is one of the moves. -/
theorem step_move {cfg : Config} {s s' : State T} (h : step cfg s t c = some s') :
    Move cfg s t s' := by
  unfold step at h
  split at h
  · rename_i hpc
    cases h
    exact .call hpc
  · rename_i hpc
    cases h
    exact .begin hpc
  · cases hd : decodeStep s t with
    | some s₁ =>
      rw [hd] at h
      cases h
      exact decode_move hd
    | none =>
      rw [hd] at h
      exact prefill_move h
  · cases h

end Flambeau.Server.Scheduler
