import Flambeau.Systems.Runs
import Flambeau.Systems.Locks

namespace Flambeau.Server.Scheduler
open Flambeau.Systems

/-- `PendingDecode`; `response` is the thread at the receiving end. -/
structure PendingDecode (T : Type) where
  slotIdx : Nat
  tokenId : Nat
  position : Nat
  response : T

/-- What a prefill does once it has dropped the dispatcher. -/
inductive Then where
  /-- Run the chunk on its own. -/
  | forward
  /-- The mixed forward ran the chunk; go on with the next one. -/
  | next
  /-- The mixed forward failed. -/
  | fail

/-- Where a request thread stands. A prefill carries `prefill_start` and the
prompt's length. -/
inductive Pc (T : Type) where
  | idle
  /-- `decode_via_scheduler_into`, past its single-user fast path. -/
  | enqueue (entry : PendingDecode T)
  | enqueueLocked (entry : PendingDecode T)
  /-- Pushed; the `try_lock` comes next. -/
  | pushed
  | leading
  /-- The leader with the queue locked. -/
  | checking
  /-- The dispatcher is dropped, the empty queue still locked. -/
  | leaving
  | dispatching (batch : List (PendingDecode T))
  /-- In `rx.recv()`. -/
  | waiting
  /-- The head of `chunked_prefill_pp`'s loop. -/
  | prefill (start len : Nat)
  | window (start len : Nat)
  | draining (start len : Nat)
  | drained (start len : Nat) (batch : List (PendingDecode T))
  | repushing (start len : Nat) (batch : List (PendingDecode T))
  | releasing (start len : Nat) (andThen : Then)
  | forward (start len : Nat)

structure Config where
  prefillChunkTokens : Nat
  supportsMixedBatch : Bool

def Config.prefillChunk (cfg : Config) : Nat := max cfg.prefillChunkTokens 1

/-- The end of the chunk that starts at `start`. -/
def Config.chunkEnd (cfg : Config) (start len : Nat) : Nat := min (start + cfg.prefillChunk) len

structure State (T : Type) where
  batchedPending : List (PendingDecode T)
  /-- Who holds the queue's mutex. -/
  queueLock : Option T
  /-- Who holds `batched_dispatcher`. -/
  dispatcher : Option T
  /-- A response, or the closing of the channel, awaits the thread. -/
  answered : T → Bool
  pc : T → Pc T

/-- What the environment settles: the calls a thread makes, and whether the
forward it runs succeeds. -/
inductive Choice where
  | decode (slotIdx tokenId position : Nat)
  | prefill (start len : Nat)
  | go (ok : Bool)

variable {T : Type} [DecidableEq T]

namespace State

def goto (s : State T) (t : T) (x : Pc T) : State T := { s with pc := set s.pc t x }

def lockQueue (s : State T) (t : T) : State T := { s with queueLock := some t }

def unlockQueue (s : State T) : State T := { s with queueLock := none }

def lockDispatcher (s : State T) (t : T) : State T := { s with dispatcher := some t }

def dropDispatcher (s : State T) : State T := { s with dispatcher := none }

def setPending (s : State T) (entries : List (PendingDecode T)) : State T :=
  { s with batchedPending := entries }

/-- A fresh channel. -/
def open_ (s : State T) (t : T) : State T := { s with answered := set s.answered t false }

/-- Every entry of the batch is answered, or its sender dropped. -/
def answer (s : State T) (batch : List (PendingDecode T)) : State T :=
  { s with answered := fun t => s.answered t || batch.any fun p => p.response = t }

end State

/-- A lock with no holder is taken on the way; otherwise the thread blocks. -/
def whenFree (lock : Option T) (s : State T) : Option (State T) :=
  match lock with
  | none => some s
  | some _ => none

/-- The next step of `decode_via_scheduler_into`. -/
def decodeStep (s : State T) (t : T) : Option (State T) :=
  match s.pc t with
  | .enqueue entry => whenFree s.queueLock ((s.lockQueue t).goto t (.enqueueLocked entry))
  | .enqueueLocked entry =>
    some (((s.setPending (s.batchedPending ++ [entry])).unlockQueue).goto t .pushed)
  | .pushed =>
    match s.dispatcher with
    | none => some ((s.lockDispatcher t).goto t .leading)
    | some _ => some (s.goto t .waiting)
  | .leading => whenFree s.queueLock ((s.lockQueue t).goto t .checking)
  | .checking =>
    if s.batchedPending.isEmpty then some (s.dropDispatcher.goto t .leaving)
    else some (((s.setPending []).unlockQueue).goto t (.dispatching s.batchedPending))
  | .leaving => some (s.unlockQueue.goto t .waiting)
  | .dispatching batch => some ((s.answer batch).goto t .leading)
  | .waiting => if s.answered t then some (s.goto t .idle) else none
  | _ => none

/-- The next step of `chunked_prefill_pp`'s loop. -/
def prefillStep (cfg : Config) (s : State T) (t : T) (ok : Bool) : Option (State T) :=
  match s.pc t with
  | .prefill start len =>
    if start < len then
      if cfg.supportsMixedBatch then
        whenFree s.dispatcher ((s.lockDispatcher t).goto t (.window start len))
      else some (s.goto t (.forward start len))
    else some (s.goto t .idle)
  | .window start len => whenFree s.queueLock ((s.lockQueue t).goto t (.draining start len))
  | .draining start len =>
    some (((s.setPending []).unlockQueue).goto t (.drained start len s.batchedPending))
  | .drained start len batch =>
    if batch.isEmpty then some (s.goto t (.releasing start len .forward))
    -- The capacity guard: the entries go back, and the chunk runs alone.
    else if cfg.prefillChunk < cfg.chunkEnd start len - start + batch.length then
      whenFree s.queueLock ((s.lockQueue t).goto t (.repushing start len batch))
    else some ((s.answer batch).goto t (.releasing start len (if ok then .next else .fail)))
  | .repushing start len batch =>
    some (((s.setPending (s.batchedPending ++ batch)).unlockQueue).goto t
      (.releasing start len .forward))
  | .releasing start len andThen =>
    some (s.dropDispatcher.goto t
      (match andThen with
        | .forward => .forward start len
        | .next => .prefill (cfg.chunkEnd start len) len
        | .fail => .idle))
  | .forward start len =>
    some (s.goto t (if ok then .prefill (cfg.chunkEnd start len) len else .idle))
  | _ => none

/-- One step of thread `t`. -/
def step (cfg : Config) (s : State T) (t : T) (c : Choice) : Option (State T) :=
  match s.pc t, c with
  | .idle, .decode slotIdx tokenId position =>
    some ((s.open_ t).goto t (.enqueue ⟨slotIdx, tokenId, position, t⟩))
  | .idle, .prefill start len => some (s.goto t (.prefill start len))
  | _, .go ok => (decodeStep s t).orElse fun _ => prefillStep cfg s t ok
  | _, _ => none

/-- Any number of request threads over the queue and the dispatcher lock. -/
def scheduler (T : Type) [DecidableEq T] (cfg : Config) : System (State T) (T × Choice) where
  init s := s = ⟨[], none, none, fun _ => false, fun _ => .idle⟩
  step s a := step cfg s a.1 a.2

/-- While nobody holds the dispatcher, every queued entry's thread has its
`try_lock` still to come. -/
def NoneStranded (s : State T) : Prop :=
  s.dispatcher = none → ∀ p ∈ s.batchedPending, s.pc p.response = .pushed

/-- A prefill that holds the dispatcher and will not look at the queue again. -/
def hasDrained : Pc T → Bool
  | .drained _ _ _ => true
  | .repushing _ _ _ => true
  | .releasing _ _ _ => true
  | _ => false

/-- The thread's next step leaves an entry to nobody: a `try_lock` against a
prefill that has drained the queue before the thread pushed, or the re-push of an
entry whose thread already waits. -/
def Strands (s : State T) (t : T) : Prop :=
  match s.pc t with
  | .pushed => (∃ h, s.dispatcher = some h ∧ hasDrained (s.pc h) = true) ∧
      ∃ p ∈ s.batchedPending, p.response = t
  | .repushing _ _ batch => ∃ p ∈ batch, s.pc p.response = .waiting
  | _ => False

end Flambeau.Server.Scheduler
