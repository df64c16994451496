import Flambeau.Server.KvSlot
import Flambeau.Server.Scheduler

namespace Flambeau.Server.DecodeLoop
open Scheduler (Config)

/-- The longest cached prefix of a prompt, as `longest_match` returns it. -/
structure Match where
  nTokens : Nat
  /-- First-token logits are cached with it. -/
  logits : Bool
  snapshot : Bool
  /-- `restore_slot` succeeds. -/
  restores : Bool
  /-- The reset after a failed restore succeeds. -/
  resets : Bool

/-- A request, and what its environment settles: which forwards fail, which
tokens are sampled, who waits in the decode queue. -/
structure Request where
  id : Nat
  promptIds : List Nat
  maxTokens : Nat
  cfg : Config
  prefillUbatch : Nat
  ubatch_pos : 0 < prefillUbatch
  /-- The sliding window of the attention layer, 0 for none. -/
  window : Nat
  resets : Bool
  cached : Option Match
  /-- The entries drained before the chunk that starts at a position. -/
  drained : Nat → Nat
  /-- A forward that covers the position fails. -/
  fault : Nat → Bool
  /-- The sampled tokens, the first one first. -/
  sample : Nat → Nat
  isStop : Nat → Bool
  jsonComplete : Nat → Bool
  /-- A stop string or a marker is seen after a step. -/
  stopText : Nat → Bool
  /-- The text of the token decodes, and the client takes it. -/
  emit : Nat → Option Bool

namespace Request

variable (r : Request)

/-- `Session::forward` over the request's slot. A failed forward feeds nothing. -/
def forward (s : Slot) (tokens positions : List Nat) : Except Slot Slot :=
  if positions.any r.fault then .error s else .ok (s.feed r.id r.window (tokens.zip positions))

/-- `forward_prefill_logits_slot`, in runs of `prefill_ubatch` tokens. -/
def forwardPrefill (s : Slot) (tokens : List Nat) (pos : Nat) : Except Slot Slot :=
  if _h : tokens = [] then .ok s
  else
    let chunk := tokens.take r.prefillUbatch
    match r.forward s chunk (positions pos chunk.length) with
    | .error s => .error s
    | .ok s => forwardPrefill s (tokens.drop r.prefillUbatch) (pos + chunk.length)
termination_by tokens.length
decreasing_by
  have hpos := r.ubatch_pos
  have hlen := List.length_pos_iff.mpr _h
  simp only [List.length_drop]
  omega

/-- The prefill rows of `forward_mixed`. -/
def forwardMixed (s : Slot) (tokens : List Nat) (start : Nat) : Except Slot Slot :=
  r.forward s tokens (positions start tokens.length)

/-- `prefix_cache_try_restore`. -/
inductive Restore where
  | miss
  | prefixHit (nMatched : Nat)
  | fullHit

/-- What the cache gives the request, before anything is restored. -/
def usable : Option (Match × Bool) :=
  match r.cached with
  | none => none
  | some m =>
    let full := m.nTokens = r.promptIds.length
    if (full ∧ m.logits = false) ∨ r.promptIds.length < m.nTokens then none
    else if m.snapshot then some (m, decide full) else none

def tryRestore (s : Slot) : Except Slot (Slot × Restore) :=
  match r.usable with
  | none => .ok (s, .miss)
  | some (m, full) =>
    if m.restores then
      let s := s.restore r.id ((r.promptIds.take m.nTokens).zipIdx)
      .ok (s, if full then .fullHit else .prefixHit m.nTokens)
    else if m.resets then .ok (s.reset, .miss)
    else .error s

/-- The drained entries fit beside the chunk. -/
def mixes (start : Nat) : Bool :=
  r.cfg.supportsMixedBatch && 0 < r.drained start &&
    r.cfg.chunkEnd start r.promptIds.length - start + r.drained start ≤ r.cfg.prefillChunk

/-- The loop of `chunked_prefill_pp`. -/
def prefillChunks (s : Slot) (start : Nat) : Except Slot Slot :=
  if start < r.promptIds.length then
    let stop := r.cfg.chunkEnd start r.promptIds.length
    let chunk := (r.promptIds.take stop).drop start
    match if r.mixes start then r.forwardMixed s chunk start else r.forwardPrefill s chunk start with
    | .error s => .error s
    | .ok s => prefillChunks s stop
  else .ok s
termination_by r.promptIds.length - start
decreasing_by
  simp only [Config.chunkEnd, Config.prefillChunk]
  omega

/-- `chunked_prefill_pp`. -/
def chunkedPrefill (s : Slot) : Except Slot Slot :=
  if r.resets then
    match r.tryRestore s.reset with
    | .error s => .error s
    | .ok (s, .fullHit) => .ok s
    | .ok (s, .prefixHit nMatched) => r.prefillChunks s nMatched
    | .ok (s, .miss) => r.prefillChunks s 0
  else .error s.reset

/-- What a decode loop does once a step's token is sampled. -/
inductive After where
  | go
  | stop
  | fail

/-- The decode loop: the last token goes to the model at the prompt's length
plus the step. -/
def decodeLoop (after : Nat → After) (s : Slot) (step last : Nat) : Except Slot Slot :=
  if step < r.maxTokens then
    match r.forward s [last] [r.promptIds.length + step] with
    | .error s => .error s
    | .ok s =>
      match after step with
      | .go => decodeLoop after s (step + 1) (r.sample step)
      | .stop => .ok s
      | .fail => .error s
  else .ok s
termination_by r.maxTokens - step

/-- `push_and_emit`, for the token sampled at a step. -/
def pushAndEmit (step : Nat) : Option Bool :=
  (r.emit step).map fun alive => alive && !r.isStop (r.sample step)

def schedulerAfter (step : Nat) : After :=
  if r.isStop (r.sample step) then .stop
  else if r.maxTokens ≤ step + 1 then .stop
  else if r.stopText step then .stop
  else .go

def blockingAfter (step : Nat) : After :=
  if r.isStop (r.sample step) then .stop
  else if r.jsonComplete step then .stop
  else if r.stopText step then .stop
  else .go

def streamingAfter (step : Nat) : After :=
  match r.pushAndEmit step with
  | none => .fail
  | some false => .stop
  | some true => if r.stopText step then .stop else .go

/-- Prefill, the first token, and the decode loop while that token goes on. -/
def complete (first : After) (after : Nat → After) (s : Slot) : Except Slot Slot :=
  if r.promptIds.isEmpty then .error s
  else
    match r.chunkedPrefill s with
    | .error s => .error s
    | .ok s =>
      match first with
      | .go => r.decodeLoop after s 1 (r.sample 0)
      | .stop => .ok s
      | .fail => .error s

end Request

/-- The three decode loops. -/
inductive Loop where
  | scheduler
  | blocking
  | streaming

/-- What becomes of the first token, sampled from the prefill's logits. -/
def Loop.first (loop : Loop) (r : Request) : Request.After :=
  match loop with
  | .scheduler => if r.isStop (r.sample 0) then .stop else .go
  | .blocking => if r.isStop (r.sample 0) then .stop else .go
  | .streaming =>
    match r.pushAndEmit 0 with
    | none => .fail
    | some false => .stop
    | some true => .go

def Loop.after (loop : Loop) (r : Request) : Nat → Request.After :=
  match loop with
  | .scheduler => r.schedulerAfter
  | .blocking => r.blockingAfter
  | .streaming => r.streamingAfter

/-- The slot as a request leaves it, whether or not it failed. -/
def finalSlot : Except Slot Slot → Slot
  | .ok s => s
  | .error s => s

/-- `run_completion_scheduler_pp_blocking`, `run_completion_blocking_ids` and
`run_completion_blocking_streaming`, down to the forwards over their slot. -/
def runCompletion (loop : Loop) (r : Request) (s : Slot) : Slot :=
  finalSlot (r.complete (loop.first r) (loop.after r) s)

/-- The token due at a position: the prompt's, then the generated ones. -/
def due (r : Request) (position : Nat) : Nat :=
  match r.promptIds[position]? with
  | some t => t
  | none => r.sample (position - r.promptIds.length)

/-- The i-th pair is the token due at i, fed at position i. -/
def Contiguous (r : Request) (s : Slot) : Prop :=
  ∀ i p, s.fed[i]? = some p → p = (due r i, i)

/-- Attention has only read rows written for the request. -/
def OwnReads (r : Request) (s : Slot) : Prop :=
  ∀ row ∈ s.read, ∃ t, row = some ⟨r.id, t⟩

end Flambeau.Server.DecodeLoop
