import Flambeau.Server.Scheduler

namespace Flambeau.Server.Routing
open Systems
open Scheduler (PendingDecode Then whenFree)

/-- `BatchSlot`; `idx` is its place among the batch's inflights and logits. -/
structure BatchSlot where
  idx : Nat
  tokenId : Nat
  position : Nat

/-- `V2Conv`: the KV slot that a conversation of `inflight_pool` runs in. -/
structure V2Conv where
  slotId : Nat

/-- A row of a forward. -/
structure Row where
  tokenId : Nat
  position : Nat
  slotId : Nat
deriving DecidableEq

structure Config where
  inflightSlots : Nat
  prefillChunkTokens : Nat
  prefillUbatch : Nat
  supportsMixedBatch : Bool
  vocab : Nat

namespace Config

def prefillChunk (cfg : Config) : Nat := max cfg.prefillChunkTokens 1

/-- The pool as `serve_inner_v2` builds it. -/
def inflightPool (cfg : Config) : List V2Conv := (List.range cfg.inflightSlots).map V2Conv.mk

/-- The conversation behind `inflight_pool[slot_idx]`. -/
def conv (cfg : Config) (slotIdx : Nat) : V2Conv := cfg.inflightPool.getD slotIdx ⟨0⟩

end Config

/-- A prompt, the slot it is prefilled into, and `prefill_start`. -/
structure Chunk where
  slotIdx : Nat
  promptIds : List Nat
  start : Nat

namespace Chunk

def stop (cfg : Config) (c : Chunk) : Nat := min (c.start + cfg.prefillChunk) c.promptIds.length

def tokens (cfg : Config) (c : Chunk) : List Nat := (c.promptIds.drop c.start).take (c.stop cfg - c.start)

def advance (cfg : Config) (c : Chunk) : Chunk := { c with start := c.stop cfg }

end Chunk

/-- The rows of tokens at contiguous positions. -/
def prefillRows (tokens : List Nat) (start slotId : Nat) : List Row :=
  tokens.mapIdx fun i token => ⟨token, start + i, slotId⟩

/-- What the handle asks of the shared session, for whom. -/
inductive Job where
  /-- The single-user fast path. -/
  | one (entry : PendingDecode Nat)
  /-- `dispatch_batched_pending` by the leader, whose own entry is `mine`. -/
  | batched (mine : PendingDecode Nat) (pending : List (PendingDecode Nat))
  | mixed (chunk : Chunk) (pending : List (PendingDecode Nat))
  /-- `forward_prefill_logits_slot`, from token `at` of the chunk on. -/
  | prefill (chunk : Chunk) (at_ : Nat)

/-- A call of the session's `forward` or `forward_mixed`. -/
inductive Request where
  | forward (rows : List Row)
  | forwardMixed (rows : List Row) (prefillRows : Nat)

namespace Request

def rows : Request → List Row
  | forward rows => rows
  | forwardMixed rows _ => rows

/-- The slots that `output_head` is given, and the row it starts from. -/
def headSlots : Request → List Nat
  | forward rows => rows.map Row.slotId
  | forwardMixed rows prefillRows =>
    (rows.take 1).map Row.slotId ++ (rows.drop prefillRows).map Row.slotId

def headStart : Request → Nat
  | forward _ => 0
  | forwardMixed _ prefillRows => prefillRows - 1

end Request

/-- Several rows of distinct slots are all emitted, else the last one is. -/
def emitAll (slotIds : List Nat) : Bool :=
  decide (1 < slotIds.length) && slotIds.any fun slot => decide (slot ≠ slotIds.headD 0)

/-- `output_head_local`: the rows of logits, one after the other. -/
def outputHead (slotIds : List Nat) (logits : Nat → Vector F vocab) : List F :=
  if emitAll slotIds then (List.range slotIds.length).flatMap fun i => (logits i).toList
  else (logits (slotIds.length - 1)).toList

/-- `Session::logits_row`. -/
def logitsRow (lastLogits : List F) (i vocab : Nat) : List F := (lastLogits.drop (i * vocab)).take vocab

/-- The rows of a batch, each with the KV slot of its own conversation. -/
def tuples (slots : List BatchSlot) (inflights : List V2Conv) : List Row :=
  List.zipWith (fun s conv => ⟨s.tokenId, s.position, conv.slotId⟩) slots inflights

def batchSlots (pending : List (PendingDecode Nat)) : List BatchSlot :=
  pending.mapIdx fun s p => ⟨s, p.tokenId, p.position⟩

def inflights (cfg : Config) (pending : List (PendingDecode Nat)) : List V2Conv :=
  pending.map fun p => cfg.conv p.slotIdx

/-- `forward_decode_batched`; several rows of one slot are refused. -/
def decodeBatched (rows : List Row) : Option Request :=
  if rows.isEmpty then none
  else if 1 < rows.length && rows.all fun r => decide (r.slotId = (rows.map Row.slotId).headD 0) then none
  else some (.forward rows)

namespace Job

/-- The tokens of a prefill's next forward. -/
def ubatch (cfg : Config) (c : Chunk) (at_ : Nat) : List Nat := ((c.tokens cfg).drop at_).take cfg.prefillUbatch

def request (cfg : Config) : Job → Option Request
  | one entry => decodeBatched (tuples (batchSlots [entry]) (inflights cfg [entry]))
  | batched _ pending => decodeBatched (tuples (batchSlots pending) (inflights cfg pending))
  | mixed c pending =>
    if (c.tokens cfg).isEmpty || pending.isEmpty then none
    else some (.forwardMixed (prefillRows (c.tokens cfg) c.start (cfg.conv c.slotIdx).slotId ++
      tuples (batchSlots pending) (inflights cfg pending)) (c.tokens cfg).length)
  | prefill c at_ =>
    if (ubatch cfg c at_).isEmpty then none
    else some (.forward (prefillRows (ubatch cfg c at_) (c.start + at_) (cfg.conv c.slotIdx).slotId))

/-- Which call each row of the forward belongs to. -/
def entries (cfg : Config) : Job → List (Option Nat)
  | one entry => [some entry.response]
  | batched _ pending => pending.map fun p => some p.response
  | mixed c pending =>
    List.replicate (c.tokens cfg).length none ++ pending.map fun p => some p.response
  | prefill c at_ => List.replicate (ubatch cfg c at_).length none

/-- A prefill longer than a micro-batch forwards again. -/
def more (cfg : Config) : Job → Option Job
  | prefill c at_ =>
    if at_ + cfg.prefillUbatch < (c.tokens cfg).length then some (prefill c (at_ + cfg.prefillUbatch))
    else none
  | _ => none

/-- The logits that each entry is answered with. -/
def answers (cfg : Config) (lastLogits : List F) : Job → List (PendingDecode Nat × Option (List F))
  | one _ => []
  | batched _ pending =>
    if pending.length = 1 then pending.map fun p => (p, some lastLogits)
    else pending.mapIdx fun i p => (p, some (logitsRow lastLogits i cfg.vocab))
  | mixed _ pending => pending.mapIdx fun i p => (p, some (logitsRow lastLogits (i + 1) cfg.vocab))
  | prefill _ _ => []

/-- A failed forward answers every entry with an error, or drops its sender. -/
def refusals (F : Type) : Job → List (PendingDecode Nat × Option (List F))
  | batched _ pending => pending.map fun p => (p, none)
  | mixed _ pending => pending.map fun p => (p, none)
  | _ => []

end Job

/-- Where a request thread stands. -/
inductive Pc (F : Type) where
  | idle
  /-- Between two calls on its claimed slot. -/
  | ready (slotIdx : Nat)
  | enqueue (entry : PendingDecode Nat)
  | enqueueLocked (entry : PendingDecode Nat)
  | pushed (entry : PendingDecode Nat)
  | leading (entry : PendingDecode Nat)
  | checking (entry : PendingDecode Nat)
  | leaving (entry : PendingDecode Nat)
  | waiting (entry : PendingDecode Nat)
  | prefill (chunk : Chunk)
  | window (chunk : Chunk)
  | draining (chunk : Chunk)
  | drained (chunk : Chunk) (batch : List (PendingDecode Nat))
  | repushing (chunk : Chunk) (batch : List (PendingDecode Nat))
  | releasing (chunk : Chunk) (andThen : Then)
  /-- At the shared session's lock. -/
  | session (job : Job)
  /-- With the session locked, before a forward. -/
  | running (job : Job)
  /-- With the session locked, its last forward through. -/
  | copying (job : Job)
  /-- The session is dropped; responses are sent one by one. -/
  | answering (job : Job) (ok : Bool) (rest : List (PendingDecode Nat × Option (List F)))

/-- What a forward computed; `entries` names the call behind each row. -/
structure Forward (F : Type) (vocab : Nat) where
  rows : List Row
  entries : List (Option Nat)
  logits : Nat → Vector F vocab

structure State (T F : Type) (vocab : Nat) where
  batchedPending : List (PendingDecode Nat)
  queueLock : Option T
  dispatcher : Option T
  /-- Who holds the shared session. -/
  shared : Option T
  lastLogits : List F
  /-- Who has claimed a slot. -/
  slotInUse : Nat → Option T
  /-- What a response channel holds: logits, or an error. -/
  channel : Nat → Option (Option (List F))
  pc : T → Pc F
  /-- Every call of `decode_via_scheduler_into`; a channel's number is its call's place. -/
  calls : List (PendingDecode Nat)
  forwards : List (Forward F vocab)
  /-- The logits that calls have returned `Ok` with. -/
  returns : List (Nat × List F)
  /-- The logits that prefilled chunks have returned, with their last row. -/
  prefills : List (Row × List F)

/-- What the environment settles: which call a thread makes and what it finds in
`slot_in_use`, and what a forward computes for each row, if it succeeds. -/
inductive Choice (F : Type) (vocab : Nat) where
  | claim (slotIdx : Nat)
  | decode (tokenId position : Nat) (alone : Bool)
  | prefill (promptIds : List Nat) (start : Nat)
  | release
  | go (logits : Option (Nat → Vector F vocab))

variable {T F : Type} [DecidableEq T] {vocab : Nat}

namespace State

def goto (s : State T F vocab) (t : T) (x : Pc F) : State T F vocab := { s with pc := set s.pc t x }

def lockQueue (s : State T F vocab) (t : T) : State T F vocab := { s with queueLock := some t }

def unlockQueue (s : State T F vocab) : State T F vocab := { s with queueLock := none }

def lockDispatcher (s : State T F vocab) (t : T) : State T F vocab := { s with dispatcher := some t }

def dropDispatcher (s : State T F vocab) : State T F vocab := { s with dispatcher := none }

def lockShared (s : State T F vocab) (t : T) : State T F vocab := { s with shared := some t }

def dropShared (s : State T F vocab) : State T F vocab := { s with shared := none }

def setPending (s : State T F vocab) (entries : List (PendingDecode Nat)) : State T F vocab :=
  { s with batchedPending := entries }

def setSlot (s : State T F vocab) (slotIdx : Nat) (owner : Option T) : State T F vocab :=
  { s with slotInUse := set s.slotInUse slotIdx owner }

def send (s : State T F vocab) (call : Nat) (result : Option (List F)) : State T F vocab :=
  { s with channel := set s.channel call (some result) }

/-- A new call, with a channel of its own. -/
def open_ (s : State T F vocab) (entry : PendingDecode Nat) : State T F vocab :=
  { s with calls := s.calls ++ [entry] }

/-- A forward that succeeded. -/
def ran (s : State T F vocab) (cfg : Config) (job : Job) (request : Request)
    (logits : Nat → Vector F vocab) : State T F vocab :=
  { s with
    lastLogits := outputHead request.headSlots fun i => logits (request.headStart + i)
    forwards := s.forwards ++ [⟨request.rows, job.entries cfg, logits⟩] }

def returned (s : State T F vocab) (call : Nat) (logits : List F) : State T F vocab :=
  { s with returns := s.returns ++ [(call, logits)] }

def prefilled (s : State T F vocab) (row : Row) (logits : List F) : State T F vocab :=
  { s with prefills := s.prefills ++ [(row, logits)] }

end State

/-- Where a forward that failed leaves its thread, the session dropped. -/
def afterFailure (F : Type) : Job → Pc F
  | .one entry => .ready entry.slotIdx
  | .prefill c _ => .ready c.slotIdx
  | job => .answering job false (job.refusals F)

/-- After the last response. -/
def afterAnswers (F : Type) (ok : Bool) : Job → Pc F
  | .batched mine _ => .leading mine
  | .mixed c _ => .releasing c (if ok then .next else .fail)
  | .one entry => .ready entry.slotIdx
  | .prefill c _ => .ready c.slotIdx

/-- The last row of a chunk. -/
def Chunk.lastRow (cfg : Config) (c : Chunk) : Row :=
  ⟨c.promptIds.getD (c.stop cfg - 1) 0, c.stop cfg - 1, (cfg.conv c.slotIdx).slotId⟩

/-- The rows are copied out under the session's lock. -/
def copyOut (cfg : Config) (s : State T F vocab) (t : T) : Job → State T F vocab
  | .one entry => ((s.returned entry.response s.lastLogits).dropShared).goto t (.ready entry.slotIdx)
  | .batched mine pending =>
    s.dropShared.goto t (.answering (.batched mine pending) true
      ((Job.batched mine pending).answers cfg s.lastLogits))
  | .mixed c pending =>
    ((s.prefilled (c.lastRow cfg) (logitsRow s.lastLogits 0 cfg.vocab)).dropShared).goto t
      (.answering (.mixed c pending) true ((Job.mixed c pending).answers cfg s.lastLogits))
  | .prefill c _ =>
    ((s.prefilled (c.lastRow cfg) s.lastLogits).dropShared).goto t (.prefill (c.advance cfg))

/-- A forward, under the session's lock. -/
def sessionStep (cfg : Config) (s : State T F vocab) (t : T)
    (logits : Option (Nat → Vector F vocab)) : Option (State T F vocab) :=
  match s.pc t with
  | .session job =>
    match s.shared with
    | none => some ((s.lockShared t).goto t (.running job))
    | some _ => none
  | .running job =>
    match job.request cfg, logits with
    | some request, some logits =>
      some ((s.ran cfg job request logits).goto t
        (match job.more cfg with
          | some next => .running next
          | none => .copying job))
    | _, _ => some (s.dropShared.goto t (afterFailure F job))
  | .copying job => some (copyOut cfg s t job)
  | .answering job ok [] => some (s.goto t (afterAnswers F ok job))
  | .answering job ok ((p, result) :: rest) =>
    some ((s.send p.response result).goto t (.answering job ok rest))
  | _ => none

/-- The next step of `decode_via_scheduler_into`. -/
def decodeStep (s : State T F vocab) (t : T) : Option (State T F vocab) :=
  match s.pc t with
  | .enqueue entry =>
    match s.queueLock with
    | none => some ((s.lockQueue t).goto t (.enqueueLocked entry))
    | some _ => none
  | .enqueueLocked entry =>
    some (((s.setPending (s.batchedPending ++ [entry])).unlockQueue).goto t (.pushed entry))
  | .pushed entry =>
    match s.dispatcher with
    | none => some ((s.lockDispatcher t).goto t (.leading entry))
    | some _ => some (s.goto t (.waiting entry))
  | .leading entry =>
    match s.queueLock with
    | none => some ((s.lockQueue t).goto t (.checking entry))
    | some _ => none
  | .checking entry =>
    if s.batchedPending.isEmpty then some (s.dropDispatcher.goto t (.leaving entry))
    else some (((s.setPending []).unlockQueue).goto t (.session (.batched entry s.batchedPending)))
  | .leaving entry => some (s.unlockQueue.goto t (.waiting entry))
  | .waiting entry =>
    match s.channel entry.response with
    | some (some logits) => some ((s.returned entry.response logits).goto t (.ready entry.slotIdx))
    | some none => some (s.goto t (.ready entry.slotIdx))
    | none => none
  | _ => none

/-- The next step of `chunked_prefill_pp`'s loop. -/
def prefillStep (cfg : Config) (s : State T F vocab) (t : T) : Option (State T F vocab) :=
  match s.pc t with
  | .prefill c =>
    if c.start < c.promptIds.length then
      if cfg.supportsMixedBatch then
        match s.dispatcher with
        | none => some ((s.lockDispatcher t).goto t (.window c))
        | some _ => none
      else some (s.goto t (.session (.prefill c 0)))
    else some (s.goto t (.ready c.slotIdx))
  | .window c =>
    match s.queueLock with
    | none => some ((s.lockQueue t).goto t (.draining c))
    | some _ => none
  | .draining c => some (((s.setPending []).unlockQueue).goto t (.drained c s.batchedPending))
  | .drained c batch =>
    if batch.isEmpty then some (s.goto t (.releasing c .forward))
    -- The capacity guard: the entries go back, and the chunk runs alone.
    else if cfg.prefillChunk < (c.tokens cfg).length + batch.length then
      match s.queueLock with
      | none => some ((s.lockQueue t).goto t (.repushing c batch))
      | some _ => none
    else some (s.goto t (.session (.mixed c batch)))
  | .repushing c batch =>
    some (((s.setPending (s.batchedPending ++ batch)).unlockQueue).goto t (.releasing c .forward))
  | .releasing c andThen =>
    some (s.dropDispatcher.goto t
      (match andThen with
        | .forward => .session (.prefill c 0)
        | .next => .prefill (c.advance cfg)
        | .fail => .ready c.slotIdx))
  | _ => none

/-- One step of thread `t`. -/
def step (cfg : Config) (s : State T F vocab) (t : T) (c : Choice F vocab) : Option (State T F vocab) :=
  match s.pc t, c with
  | .idle, .claim slotIdx =>
    if slotIdx < cfg.inflightSlots ∧ s.slotInUse slotIdx = none then
      some ((s.setSlot slotIdx (some t)).goto t (.ready slotIdx))
    else none
  | .ready slotIdx, .decode tokenId position alone =>
    let entry := ⟨slotIdx, tokenId, position, s.calls.length⟩
    some ((s.open_ entry).goto t (if alone then .session (.one entry) else .enqueue entry))
  | .ready slotIdx, .prefill promptIds start => some (s.goto t (.prefill ⟨slotIdx, promptIds, start⟩))
  | .ready slotIdx, .release => some ((s.setSlot slotIdx none).goto t .idle)
  | _, .go logits =>
    ((decodeStep s t).orElse fun _ => prefillStep cfg s t).orElse fun _ => sessionStep cfg s t logits
  | _, _ => none

/-- Any number of request threads over the slots, the queue and the shared session. -/
def routing (T F : Type) [DecidableEq T] (cfg : Config) :
    System (State T F cfg.vocab) (T × Choice F cfg.vocab) where
  init s := s = ⟨[], none, none, none, [], fun _ => none, fun _ => none, fun _ => .idle, [], [], [], []⟩
  step s a := step cfg s a.1 a.2

end Flambeau.Server.Routing
