import Flambeau.Server.ToolCallParser.CallEvents
import Flambeau.Server.ToolCallParser.Format
import Mathlib.Logic.Function.Basic

namespace Flambeau.Server
open Flambeau.Stream ToolCallParser

/-! `stream_completion_sse`, from the parser's events to the frames of a turn. -/

/-- An entry of a frame's `tool_calls`. -/
structure ToolCallDelta where
  index : Nat
  id : Option Text
  name : Option Text
  arguments : Option Text

/-- The `delta` of a frame. -/
inductive Delta where
  | content (s : Text)
  | reasoningContent (s : Text)
  | toolCalls (call : ToolCallDelta)

/-- `call_{index}`. -/
def callId (index : Nat) : Text := ['c', 'a', 'l', 'l', '_'] ++ Nat.toDigits 10 index

/-- What a turn has sent, and its two flags. -/
structure Turn where
  sent : List Delta
  hasToolCalls : Bool
  abortAfterClose : Bool

def Turn.start : Turn := ⟨[], false, false⟩

/-- `emit_chunk`, to a receiver that is still there. -/
def Turn.emitChunk (t : Turn) (delta : Delta) : Turn := { t with sent := t.sent ++ [delta] }

/-- An event in `emit_events`. -/
def emitEvent (parallelToolCalls : Bool) (t : Turn) : ParserEvent → Turn
  | .textDelta s => t.emitChunk (.content s)
  | .thinkDelta s => t.emitChunk (.reasoningContent s)
  | .toolCallOpen index name =>
    { t with hasToolCalls := true }.emitChunk (.toolCalls ⟨index, some (callId index), some name, none⟩)
  | .toolCallArgumentsDelta index arguments =>
    { t with hasToolCalls := true }.emitChunk (.toolCalls ⟨index, none, none, some arguments⟩)
  | .toolCallClose _ => if parallelToolCalls then t else { t with abortAfterClose := true }

def emitEvents (parallelToolCalls : Bool) (t : Turn) (events : List ParserEvent) : Turn :=
  events.foldl (emitEvent parallelToolCalls) t

/-- The decode loop's calls of `emit_delta`, until one of them ends it. -/
def emitDeltas (parallelToolCalls : Bool) (b : BoxedParser) (t : Turn) (p : b.State) :
    List Text → Option (Turn × b.State)
  | [] => some (t, p)
  | text :: rest =>
    (b.push p text).bind fun r =>
      let t := emitEvents parallelToolCalls t r.1
      if t.abortAfterClose then some (t, r.2) else emitDeltas parallelToolCalls b t r.2 rest

/-- `stream_completion_sse`: the forced opening, the texts of the decode loop and the flush. -/
def streamCompletionSse (parallelToolCalls : Bool) (b : BoxedParser) (toolForcePrefix : Option Text)
    (texts : List Text) : Option Turn :=
  let forced : Option (Turn × b.State) :=
    match toolForcePrefix with
    | some pfx => (b.push b.init pfx).map fun r => (emitEvents parallelToolCalls .start r.1, r.2)
    | none => some (.start, b.init)
  forced.bind fun r => (emitDeltas parallelToolCalls b r.1 r.2 texts).bind fun r =>
    (b.finish r.2).map fun tail => emitEvents parallelToolCalls r.1 tail.1

/-- What the decode loop ended with. -/
inductive DecodeEnd where
  | stop
  | length
deriving DecidableEq

inductive FinishReason where
  | toolCalls
  | decoded (reason : DecodeEnd)
  | error
deriving DecidableEq

/-- The last frame's `finish_reason`; a failed decode loop has no end. -/
def finishReason (t : Turn) (res : Option DecodeEnd) : FinishReason :=
  if t.hasToolCalls then .toolCalls
  else
    match res with
    | some r => .decoded r
    | none => .error

/-! The client. -/

/-- A call as a client has it. -/
structure ClientCall where
  index : Nat
  name : Text
  arguments : Text

/-- A delta is added to the call of its index, or starts one. -/
def receive (d : ToolCallDelta) : List ClientCall → List ClientCall
  | [] => [⟨d.index, d.name.getD [], d.arguments.getD []⟩]
  | c :: calls =>
    if c.index = d.index then
      ⟨c.index, c.name ++ d.name.getD [], c.arguments ++ d.arguments.getD []⟩ :: calls
    else c :: receive d calls

def receiveDelta (calls : List ClientCall) : Delta → List ClientCall
  | .toolCalls d => receive d calls
  | .content _ | .reasoningContent _ => calls

/-- The calls a client assembles from the frames of a turn. -/
def assembled (sent : List Delta) : List ClientCall := sent.foldl receiveDelta []

/-! `split_events`. -/

/-- A call of the response body. -/
structure ToolCall where
  id : Text
  name : Text
  arguments : Text
deriving DecidableEq

/-- The state of the walk. -/
structure Split where
  content : Text
  toolCalls : List ToolCall
  pending : Nat → Option (Text × Text)

def Split.start : Split := ⟨[], [], fun _ => none⟩

def splitEvent (s : Split) : ParserEvent → Split
  | .textDelta text => { s with content := s.content ++ text }
  | .thinkDelta _ => s
  | .toolCallOpen index name =>
    let entry := ((s.pending index).map fun e => (name, e.2)).getD (name, [])
    { s with pending := Function.update s.pending index (some entry) }
  | .toolCallArgumentsDelta index arguments =>
    let entry := (s.pending index).getD ([], [])
    { s with pending := Function.update s.pending index (some (entry.1, entry.2 ++ arguments)) }
  | .toolCallClose index =>
    let entry := (s.pending index).getD ([], [])
    { s with
      toolCalls := s.toolCalls ++ [⟨callId index, entry.1, entry.2⟩]
      pending := Function.update s.pending index none }

def splitEvents (events : List ParserEvent) : Text × List ToolCall :=
  let s := events.foldl splitEvent .start
  (s.content, s.toolCalls)

/-- The call of the response body that a client's call should be. -/
def ClientCall.call (c : ClientCall) : ToolCall := ⟨callId c.index, c.name, c.arguments⟩

end Flambeau.Server
