import Flambeau.Stream.Machine
import Flambeau.Server.ToolCallParser.Serde

namespace Flambeau.Server.ToolCallParser.Hermes
open Flambeau.Stream Flambeau.Runtime.JsonSchema

def textOpenTags : List Text := [toolOpen, thinkOpen]

inductive State where
  | text
  | inThink
  | inTool
  | awaitingToolClose
deriving DecidableEq

structure HermesJsonParser where
  buf : Text
  state : State
  nextIndex : Nat

namespace HermesJsonParser

/-- `HermesJsonParser::new`. -/
def new : HermesJsonParser := ⟨[], .text, 0⟩

def newInThink : HermesJsonParser := { new with state := .inThink }

end HermesJsonParser

/-- A step: its events, the parser after it, whether it made progress. -/
abbrev Step := List ParserEvent × HermesJsonParser × Bool

/-- The depth, string and escape flags after a character of the scan; `none` where
it closes the object. -/
def objectStep (depth : Nat) (inStr escaped : Bool) (c : Char) : Option (Nat × Bool × Bool) :=
  if inStr then
    if escaped then some (depth, true, false)
    else if c = '\\' then some (depth, true, true)
    else if c = '"' then some (depth, false, false)
    else some (depth, true, false)
  else if c = '"' then some (depth, true, escaped)
  else if c = '{' then some (depth + 1, false, escaped)
  else if c = '}' then
    if depth - 1 = 0 then none else some (depth - 1, false, escaped)
  else some (depth, false, escaped)

/-- The position where the object that the text goes on with is closed. -/
def objectEnd (depth : Nat) (inStr escaped : Bool) : Text → Option Nat
  | [] => none
  | c :: s =>
    match objectStep depth inStr escaped c with
    | none => some 0
    | some (depth, inStr, escaped) => (objectEnd depth inStr escaped s).map (· + 1)

/-- `json_object_span`: the first and the last position of the first balanced
object. -/
def jsonObjectSpan (s : Text) : Option (Nat × Nat) :=
  (find ['{'] s).bind fun start =>
    (objectEnd 0 false false (s.drop start)).map fun stop => (start, start + stop)

/-- `ambiguous_tail_start`, in bytes. The tail is sliced at every offset it tries:
one inside a character is a panic. -/
def ambiguousTailStart (buf : Text) (tags : List Text) : Option Nat :=
  let n := byteLen buf
  let maxTag := (tags.map byteLen).foldl max 0
  let lo := n - (maxTag - 1)
  firstCut (List.range' lo (n - lo))
where
  firstCut : List Nat → Option Nat
    | [] => some (byteLen buf)
    | cut :: cuts =>
      (splitByte cut buf).bind fun r =>
        if tags.any fun t => r.2.isPrefixOf t then some cut else firstCut cuts

/-- The end of `step_text` and of `step_in_think`: give out what no tag can start
in. -/
def emitBuffered (emit : Text → List ParserEvent) (tags : List Text) (p : HermesJsonParser)
    (isFinish : Bool) : Option Step :=
  (if isFinish then some (byteLen p.buf) else ambiguousTailStart p.buf tags).bind fun n =>
    let emitUpto := floorCharBoundary p.buf n
    if 0 < emitUpto then
      (splitByte emitUpto p.buf).map fun r => (emit r.1, { p with buf := r.2 }, true)
    else some ([], p, false)

def stepText (p : HermesJsonParser) (isFinish : Bool) : Option Step :=
  match earliest textOpenTags p.buf with
  | some (pos, tag) =>
    some (emitText (p.buf.take pos),
      { p with
        buf := p.buf.drop (pos + tag.length)
        state := if tag = thinkOpen then .inThink else .inTool }, true)
  | none => emitBuffered emitText textOpenTags p isFinish

def stepInThink (p : HermesJsonParser) (isFinish : Bool) : Option Step :=
  match find thinkClose p.buf with
  | some pos =>
    some (emitThink (p.buf.take pos),
      { p with buf := p.buf.drop (pos + thinkClose.length), state := .text }, true)
  | none => emitBuffered emitThink [thinkClose] p isFinish

def nameKey : Name := ['n', 'a', 'm', 'e']
def argumentsKey : Name := ['a', 'r', 'g', 'u', 'm', 'e', 'n', 't', 's']

/-- The name and the arguments of a call's object; one that does not parse has
neither. -/
def callOf (serde : SerdeJson) (json : Text) : Text × Text :=
  match serde.fromStr json with
  | some v =>
    let name := ((valueGet nameKey v).bind Value.asStr).getD []
    let args :=
      match valueGet argumentsKey v with
      | some (.string s) => s
      | some other => serde.toStringOr other
      | none => emptyObject
    (name, args)
  | none => ([], emptyObject)

def stepInTool (serde : SerdeJson) (p : HermesJsonParser) (isFinish : Bool) : Option Step :=
  match jsonObjectSpan p.buf with
  | some (start, stop) =>
    let (name, args) := callOf serde ((p.buf.take (stop + 1)).drop start)
    some ([.toolCallOpen p.nextIndex name, .toolCallArgumentsDelta p.nextIndex args,
        .toolCallClose p.nextIndex],
      ⟨p.buf.drop (stop + 1), .awaitingToolClose, p.nextIndex + 1⟩, true)
  | none =>
    if isFinish && !(trim p.buf).isEmpty then
      some (emitText (toolOpen ++ p.buf), { p with buf := [], state := .text }, true)
    else some ([], p, false)

/-- `step_awaiting_close`: what stands before the close tag is dropped, however
much of it the buffer holds. -/
def stepAwaitingClose (p : HermesJsonParser) (isFinish : Bool) : Step :=
  let trimmed := trimStart p.buf
  let leadWs := p.buf.length - trimmed.length
  match find toolClose trimmed with
  | some rel =>
    ([], { p with buf := p.buf.drop (leadWs + rel + toolClose.length), state := .text }, true)
  | none =>
    if !isFinish && (trimmed.isEmpty || trimmed.isPrefixOf toolClose) then ([], p, false)
    else if trimmed.isEmpty then ([], { p with buf := [], state := .text }, false)
    else ([], { p with state := .text }, true)

def step (serde : SerdeJson) (isFinish : Bool) (p : HermesJsonParser) : Option Step :=
  match p.state with
  | .text => stepText p isFinish
  | .inThink => stepInThink p isFinish
  | .inTool => stepInTool serde p isFinish
  | .awaitingToolClose => some (stepAwaitingClose p isFinish)

/-- The end of `finish`: what is left of the buffer. -/
def flush (p : HermesJsonParser) : List ParserEvent × HermesJsonParser :=
  if p.buf.isEmpty then ([], p)
  else
    (match p.state with
      | .inThink => [.thinkDelta p.buf]
      | _ => emitText p.buf,
      { p with buf := [], state := .text })

end Flambeau.Server.ToolCallParser.Hermes
