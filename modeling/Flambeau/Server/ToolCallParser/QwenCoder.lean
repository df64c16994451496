import Flambeau.Server.ToolCallParser.Gemma4

namespace Flambeau.Server.ToolCallParser.QwenCoder
open Flambeau.Stream Flambeau.Runtime.JsonSchema

inductive State where
  | text
  | inThink
  | inToolCall
  | inFunctionBody
  | inParameterBody
  | awaitingToolCallClose
deriving DecidableEq

def functionOpen : Text := ['<', 'f', 'u', 'n', 'c', 't', 'i', 'o', 'n', '=']
def functionClose : Text := ['<', '/', 'f', 'u', 'n', 'c', 't', 'i', 'o', 'n', '>']
def parameterOpen : Text := ['<', 'p', 'a', 'r', 'a', 'm', 'e', 't', 'e', 'r', '=']
def parameterClose : Text := ['<', '/', 'p', 'a', 'r', 'a', 'm', 'e', 't', 'e', 'r', '>']

def textStateOpenTags : List Text := [toolOpen, thinkOpen]

structure QwenCoderXmlParser where
  state : State
  buf : Text
  nextIndex : Nat
  currentName : Text
  currentParamKey : Name
  currentParams : List (Name × Value)

namespace QwenCoderXmlParser

/-- `QwenCoderXmlParser::new`. -/
def new : QwenCoderXmlParser := ⟨.text, [], 0, [], [], []⟩

def newInThink : QwenCoderXmlParser := { new with state := .inThink }

end QwenCoderXmlParser

abbrev Step := List ParserEvent × QwenCoderXmlParser × Bool

/-! Where a function may open. -/

/-- The parser's copy of the one in `gemma4`. -/
def ambiguousTailStart (s : Text) (tags : List Text) : Nat := Gemma4.ambiguousTailStart s tags

/-- A letter, a digit, or one of `_`, `-` and `.`. -/
def isNameChar (c : Char) : Bool := c.isAlphanum || c == '_' || c == '-' || c == '.'

def isFunctionName (inner : Text) : Bool :=
  !inner.isEmpty && inner.all isNameChar && inner != ['t', 'o', 'o', 'l', '_', 'c', 'a', 'l', 'l'] &&
    inner != ['t', 'h', 'i', 'n', 'k']

def isPartialBareName (part : Text) : Bool := part.head? == some '<' && part.tail.all isNameChar

/-- An opening tag: where it starts, its length and the name it gives. -/
structure FunctionOpen where
  start : Nat
  tagLen : Nat
  name : Text

/-- The first `<function=`, when it is closed. -/
def canonicalOpen (buf : Text) : Option FunctionOpen :=
  (find functionOpen buf).bind fun p =>
    let rest := buf.drop (p + functionOpen.length)
    (find ['>'] rest).map fun gt => ⟨p, functionOpen.length + gt + 1, rest.take gt⟩

/-- What has to follow a bare tag. -/
def anchored (rest : Text) : Bool :=
  parameterOpen.isPrefixOf (trimStart rest) || functionClose.isPrefixOf (trimStart rest)

theorem bareOpen_descends (h : find ['<'] buf = some lt) :
    (buf.drop (lt + gt + 1)).length < buf.length := by
  have hle := find_le h
  rw [List.length_singleton] at hle
  rw [List.length_drop]
  omega

/-- The scan for a bare `<NAME>`, tag by tag. -/
def bareOpen (buf : Text) : Option FunctionOpen :=
  match _h : find ['<'] buf with
  | none => none
  | some lt =>
    match find ['>'] (buf.drop lt) with
    | none => none
    | some gt =>
      let inner := (buf.drop (lt + 1)).take (gt - 1)
      let rest := buf.drop (lt + gt + 1)
      if isFunctionName inner && anchored rest then some ⟨lt, gt + 1, inner⟩
      else (bareOpen rest).map fun o => { o with start := lt + gt + 1 + o.start }
termination_by buf.length
decreasing_by exact bareOpen_descends _h

def findFunctionOpen (buf : Text) : Option FunctionOpen :=
  match canonicalOpen buf, bareOpen buf with
  | some f, some b => if b.start < f.start then some b else some f
  | some f, none => some f
  | none, b => b

/-- The last position of a character. -/
def rfind (c : Char) (s : Text) : Option Nat := (find [c] s.reverse).map fun n => s.length - 1 - n

/-- The position of a complete bare `<NAME>` at the end. -/
def bareNameAtEnd (s : Text) : Option Nat :=
  if s.getLast? = some '>' then
    (rfind '<' s).filter fun lt => isFunctionName (s.drop (lt + 1)).dropLast
  else none

def bareOpenHoldback (buf : Text) : Nat :=
  let trimmed := trimEnd buf
  if trimmed.isEmpty then buf.length
  else if trimmed.getLast? = some '>' then (bareNameAtEnd trimmed).getD buf.length
  else
    match rfind '<' trimmed with
    | none => buf.length
    | some lt =>
      let part := trimmed.drop lt
      if part.isPrefixOf parameterOpen || part.isPrefixOf functionClose then
        let front := trimEnd (buf.take lt)
        if front.isEmpty then lt else (bareNameAtEnd front).getD buf.length
      else if isPartialBareName part then lt
      else buf.length

def pendingToolTailStart (buf : Text) : Nat :=
  min (ambiguousTailStart buf [toolOpen, thinkOpen, functionOpen]) (bareOpenHoldback buf)

/-! The steps. -/

/-- The open is taken: the parser goes on in the body of the function. -/
def openFunction (p : QwenCoderXmlParser) (o : FunctionOpen) : List ParserEvent × QwenCoderXmlParser :=
  ([.toolCallOpen p.nextIndex o.name],
    { p with
      buf := p.buf.drop (o.start + o.tagLen)
      currentName := o.name
      currentParams := []
      state := .inFunctionBody })

/-- `func_first`: the function that opens before any tag. -/
def functionFirst (buf : Text) : Option FunctionOpen :=
  match earliest textStateOpenTags buf with
  | some (t, _) => (findFunctionOpen buf).filter fun o => o.start < t
  | none => findFunctionOpen buf

/-- The end of `step_text` and of `step_in_think`. -/
def emitUpTo (emit : Text → List ParserEvent) (p : QwenCoderXmlParser) (upto : Nat) : Step :=
  if 0 < upto then (emit (p.buf.take upto), { p with buf := p.buf.drop upto }, true)
  else ([], p, false)

def stepText (p : QwenCoderXmlParser) (isFinish : Bool) : Step :=
  match functionFirst p.buf with
  | some o =>
    let (opened, p') := openFunction p o
    (emitText (p.buf.take o.start) ++ opened, p', true)
  | none =>
    match earliest textStateOpenTags p.buf with
    | some (pos, tag) =>
      (emitText (p.buf.take pos),
        { p with
          buf := p.buf.drop (pos + tag.length)
          state := if tag = toolOpen then .inToolCall else .inThink }, true)
    | none => emitUpTo emitText p (if isFinish then p.buf.length else pendingToolTailStart p.buf)

def stepInThink (p : QwenCoderXmlParser) (isFinish : Bool) : Step :=
  match find thinkClose p.buf with
  | some pos =>
    (emitThink (p.buf.take pos),
      { p with buf := p.buf.drop (pos + thinkClose.length), state := .text }, true)
  | none =>
    emitUpTo emitThink p (if isFinish then p.buf.length else ambiguousTailStart p.buf [thinkClose])

def stepInToolCall (p : QwenCoderXmlParser) : Step :=
  match findFunctionOpen p.buf with
  | some o =>
    let (opened, p') := openFunction p o
    (opened, p', true)
  | none => ([], p, false)

/-- A parameter's tag at the front of the buffer: its key, and what is behind the `>`. -/
def parameterTag (buf : Text) : Option (Name × Text) :=
  let rest := buf.drop parameterOpen.length
  (find ['>'] rest).map fun gt => (rest.take gt, rest.drop (gt + 1))

def stepInFunctionBody (serde : SerdeJson) (p : QwenCoderXmlParser) : Step :=
  match earliest [functionClose, parameterOpen] p.buf with
  | none => ([], p, false)
  | some (pos, tag) =>
    let buf := p.buf.drop pos
    if tag = parameterOpen then
      match parameterTag buf with
      | none => ([], { p with buf }, false)
      | some (key, rest) =>
        ([], { p with buf := rest, currentParamKey := key, state := .inParameterBody }, true)
    else
      ([.toolCallArgumentsDelta p.nextIndex (serde.toStringOr (.object p.currentParams))],
        { p with
          buf := buf.drop functionClose.length
          currentParams := []
          state := .awaitingToolCallClose }, true)

/-- The newline of the template on either side is no part of a value. -/
def stripNewlines (value : Text) : Text :=
  let value := if value.head? = some '\n' then value.tail else value
  if value.getLast? = some '\n' then value.dropLast else value

def stepInParameterBody (p : QwenCoderXmlParser) : Step :=
  match find parameterClose p.buf with
  | none => ([], p, false)
  | some pos =>
    ([], { p with
        buf := p.buf.drop (pos + parameterClose.length)
        currentParamKey := []
        currentParams :=
          Gemma4.mapInsert p.currentParamKey (.string (stripNewlines (p.buf.take pos))) p.currentParams
        state := .inFunctionBody }, true)

def stepAwaitingClose (p : QwenCoderXmlParser) : Step :=
  match earliest [toolClose, functionOpen, parameterOpen] p.buf with
  | none => ([], p, false)
  | some (pos, tag) =>
    let closed := { p with buf := p.buf.drop pos, nextIndex := p.nextIndex + 1 }
    if tag = toolClose then
      ([.toolCallClose p.nextIndex],
        { closed with buf := p.buf.drop (pos + toolClose.length), state := .text }, true)
    else if tag = functionOpen then
      ([.toolCallClose p.nextIndex], { closed with state := .inToolCall }, true)
    else if p.currentName.isEmpty then ([.toolCallClose p.nextIndex], closed, false)
    else
      ([.toolCallClose p.nextIndex, .toolCallOpen (p.nextIndex + 1) p.currentName],
        { closed with state := .inFunctionBody }, true)

def step (serde : SerdeJson) (isFinish : Bool) (p : QwenCoderXmlParser) : Step :=
  match p.state with
  | .text => stepText p isFinish
  | .inThink => stepInThink p isFinish
  | .inToolCall => stepInToolCall p
  | .inFunctionBody => stepInFunctionBody serde p
  | .inParameterBody => stepInParameterBody p
  | .awaitingToolCallClose => stepAwaitingClose p

/-- The end of `finish`: what is left is given out as text, whatever the state. -/
def flush (p : QwenCoderXmlParser) : List ParserEvent × QwenCoderXmlParser :=
  if p.buf.isEmpty then ([], p)
  else (emitText (if p.buf.head? = some '\n' then p.buf.tail else p.buf), { p with buf := [] })

end Flambeau.Server.ToolCallParser.QwenCoder
