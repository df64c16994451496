import Flambeau.Server.ToolCallParser.Gemma4Args
import Flambeau.Stream.Machine

namespace Flambeau.Server.ToolCallParser.Gemma4
open Flambeau.Stream Flambeau.Runtime.JsonSchema

def toolCodeOpen : Text := ['<', '|', 't', 'o', 'o', 'l', '_', 'c', 'o', 'd', 'e', '|', '>']

def isQuote (c : Char) : Bool := c == '"' || c == '\''

/-- `matching_paren`: the position of the parenthesis that closes the first one.
A backslash in a string skips what follows it; of a longer character it skips one
byte, and the others match nothing. -/
def matchingParen (s : Text) : Option Nat :=
  if s.head? = some '(' then go 0 none s else none
where
  go (depth : Int) (quote : Option Char) : Text → Option Nat
    | [] => none
    | c :: s =>
      match quote with
      | some q =>
        if c = '\\' then
          match s with
          | [] => none
          | _ :: s => (go depth quote s).map (· + 2)
        else (go depth (if c = q then none else some q) s).map (· + 1)
      | none =>
        if isQuote c then (go depth (some c) s).map (· + 1)
        else if c = '(' then (go (depth + 1) none s).map (· + 1)
        else if c = ')' then
          if depth - 1 = 0 then some 0 else (go (depth - 1) none s).map (· + 1)
        else (go depth none s).map (· + 1)

def isOpener (c : Char) : Bool := c == '(' || c == '[' || c == '{'

def isCloser (c : Char) : Bool := c == ')' || c == ']' || c == '}'

/-- `split_top_level`, with the segment so far. -/
def splitTopLevel (sep : Char) (s : Text) : List Text := go 0 none [] s
where
  go (depth : Int) (quote : Option Char) (segment : Text) : Text → List Text
    | [] => [segment]
    | c :: s =>
      match quote with
      | some q =>
        if c = '\\' then
          match s with
          | [] => [segment ++ [c]]
          | d :: s => go depth quote (segment ++ [c, d]) s
        else go depth (if c = q then none else some q) (segment ++ [c]) s
      | none =>
        if isQuote c then go depth (some c) (segment ++ [c]) s
        else if isOpener c then go (depth + 1) none (segment ++ [c]) s
        else if isCloser c then go (depth - 1) none (segment ++ [c]) s
        else if c = sep ∧ depth = 0 then segment :: go depth none [] s
        else go depth none (segment ++ [c]) s

/-- `parse_py_value`. -/
def parsePyValue (serde : GemmaSerde) (s : Text) : Value :=
  let s := trim s
  if 2 ≤ s.length ∧ ((s.head? = some '"' ∧ s.getLast? = some '"') ∨
      (s.head? = some '\'' ∧ s.getLast? = some '\'')) then
    .string ((s.drop 1).dropLast)
  else if s = ['T', 'r', 'u', 'e'] then .bool true
  else if s = ['F', 'a', 'l', 's', 'e'] then .bool false
  else if s = ['N', 'o', 'n', 'e'] ∨ s = ['n', 'u', 'l', 'l'] then .null
  else (serde.fromStr s).getD (.string s)

/-- `trim_matches(['"', '\''])`. -/
def trimQuotes (s : Text) : Text :=
  ((s.dropWhile isQuote).reverse.dropWhile isQuote).reverse

/-- One argument of a python call; a positional one is skipped. -/
def pythonArg (serde : GemmaSerde) (obj : List (Name × Value)) (part : Text) :
    List (Name × Value) :=
  let part := trim part
  if part.isEmpty then obj
  else
    match splitTopLevel '=' part with
    | [] => obj
    | k :: _ =>
      if part.length ≤ k.length then obj
      else
        let key := trimQuotes (trim (part.take k.length))
        if key.isEmpty then obj
        else mapInsert key (parsePyValue serde (trim (part.drop (k.length + 1)))) obj

/-- `parse_python_args`, by the fields of the object. -/
def parsePythonArgs (serde : GemmaSerde) (inner : Text) : List (Name × Value) :=
  (splitTopLevel ',' inner).foldl (pythonArg serde) []

def isIdent (c : Char) : Bool := c.isAlphanum || c == '_'

/-- `first_identifier`. -/
def firstIdentifier (s : Text) : Option Text :=
  let ident := (s.dropWhile fun c => !isIdent c).takeWhile isIdent
  if ident.isEmpty then none else some ident

/-- `parse_python_call`. -/
def parsePythonCall (serde : GemmaSerde) (s : Text) : Option (Text × Text) :=
  let s := trim s
  (find ['('] s).bind fun opened =>
    (firstIdentifier (s.take opened)).bind fun name =>
      (matchingParen (s.drop opened)).bind fun closed =>
        let inner := (s.drop (opened + 1)).take (closed - 1)
        let args := parsePythonArgs serde inner
        if !(trim inner).isEmpty && args.length = 0 then none
        else (serde.toString (.object args)).map fun json => (name, json)

def fence : Text := ['`', '`', '`']

def toolCodeFence : Text := fence ++ ['t', 'o', 'o', 'l', '_', 'c', 'o', 'd', 'e']

/-- An open marker or a fence that the model repeats. -/
def stripRepeat (s : Text) : Option Text :=
  if toolCodeOpen.isPrefixOf s then some (s.drop toolCodeOpen.length)
  else if toolCodeFence.isPrefixOf s then some (s.drop toolCodeFence.length)
  else if fence.isPrefixOf s then some (s.drop fence.length)
  else none

theorem stripRepeat_length (h : stripRepeat s = some t) : t.length < s.length := by
  have hdrop : ∀ {u : Text}, u.isPrefixOf s = true → 0 < u.length →
      (s.drop u.length).length < s.length := by
    intro u hu hpos
    have hle := (List.isPrefixOf_iff_prefix.mp hu).length_le
    rw [List.length_drop]
    omega
  unfold stripRepeat at h
  split at h
  · rename_i hp
    cases h
    exact hdrop hp (by decide)
  · split at h
    · rename_i hp
      cases h
      exact hdrop hp (by decide)
    · split at h
      · rename_i hp
        cases h
        exact hdrop hp (by decide)
      · cases h

/-- The loop over the repeated markers. -/
def stripRepeats (s : Text) : Text :=
  match _h : stripRepeat (trimStart s) with
  | some t => stripRepeats t
  | none => s
termination_by s.length
decreasing_by
  have hlt := stripRepeat_length _h
  have hle := (List.dropWhile_suffix (l := s) isWhitespace).length_le
  unfold trimStart at hlt
  omega

/-- `NAME { .. }`, the object being the first value behind the name. -/
def objectCall (serde : GemmaSerde) (s : Text) : Option (Text × Option Text) :=
  (find ['{'] s).bind fun brace =>
    (firstIdentifier (s.take brace)).bind fun name =>
      match serde.firstValue (s.drop brace) with
      | some (.object fields) => some (name, serde.toString (.object fields))
      | _ => none

/-- `parse_tool_code_block`. -/
def parseToolCodeBlock (serde : GemmaSerde) (block : Text) : Option (Text × Text) :=
  let s := trim (stripRepeats (trim block))
  match objectCall serde s with
  | some (name, json) => json.map fun json => (name, json)
  | none => parsePythonCall serde s

end Flambeau.Server.ToolCallParser.Gemma4

namespace Flambeau.Server.ToolCallParser.Gemma4
open Flambeau.Stream Flambeau.Runtime.JsonSchema

inductive State where
  | text
  | inChannel
  | inCallHeader
  | inArgs
  | awaitingClose
  | inToolCode
  | inTurnHeader
  | inToolResponse
deriving DecidableEq

def callPrefix : Text := ['c', 'a', 'l', 'l', ':']
def toolCallClose : Text := ['<', 't', 'o', 'o', 'l', '_', 'c', 'a', 'l', 'l', '|', '>']
def channelOpen : Text := ['<', '|', 'c', 'h', 'a', 'n', 'n', 'e', 'l', '>']
def channelClose : Text := ['<', 'c', 'h', 'a', 'n', 'n', 'e', 'l', '|', '>']
def toolCodeClose : Text := ['<', '/', 't', 'o', 'o', 'l', '_', 'c', 'o', 'd', 'e', '>']
def turnOpen : Text := ['<', '|', 't', 'u', 'r', 'n', '>']
def toolDefOpen : Text := ['<', '|', 't', 'o', 'o', 'l', '>']
def callOpenBare : Text := ['<', '|', 'c', 'a', 'l', 'l', ':']
def toolCallOpen : Text := ['<', '|', 't', 'o', 'o', 'l', '_', 'c', 'a', 'l', 'l', '>']
def toolCallOpenSym : Text := ['<', '|', 't', 'o', 'o', 'l', '_', 'c', 'a', 'l', 'l', '|', '>']
def toolResponseOpen : Text :=
  ['<', '|', 't', 'o', 'o', 'l', '_', 'r', 'e', 's', 'p', 'o', 'n', 's', 'e', '>']
def toolResponseClose : Text :=
  ['<', 't', 'o', 'o', 'l', '_', 'r', 'e', 's', 'p', 'o', 'n', 's', 'e', '|', '>']

/-- `HERMES_CALL_OPEN` and `HERMES_CALL_CLOSE`. -/
def hermesCallOpen : Text := toolOpen
def hermesCallClose : Text := toolClose

def dropTokens : List Text :=
  [['<', 't', 'u', 'r', 'n', '|', '>'],
    ['<', '|', 'e', 'n', 'd', '_', 'o', 'f', '_', 't', 'u', 'r', 'n', '>'],
    ['<', 'e', 'n', 'd', '_', 'o', 'f', '_', 't', 'u', 'r', 'n', '>'],
    ['<', '|', 'f', 'i', 'l', 'e', '_', 's', 'e', 'p', 'a', 'r', 'a', 't', 'o', 'r', '|', '>'],
    ['<', '|', 'e', 'n', 'd', 'o', 'f', 't', 'e', 'x', 't', '|', '>']]

/-- `TEXT_OPEN_TAGS`. -/
def textOpenTags : List Text :=
  [toolCallOpen, toolCallOpenSym, toolDefOpen, callOpenBare, hermesCallOpen, channelOpen, thinkOpen,
    thinkClose, channelClose, toolCodeOpen, toolResponseOpen, turnOpen] ++ dropTokens

structure Gemma4ToolCallParser where
  state : State
  buf : Text
  nextIndex : Nat
  currentName : Text
  argsBody : Text
  argsDepth : Nat
  argsInString : Bool
  pendingThoughtEcho : Bool

def withThoughtEchoGuard (pending : Bool) : Gemma4ToolCallParser :=
  ⟨.text, [], 0, [], [], 0, false, pending⟩

/-- `Gemma4ToolCallParser::new`. -/
def Gemma4ToolCallParser.new : Gemma4ToolCallParser := withThoughtEchoGuard false

def Gemma4ToolCallParser.withPendingChannelClose : Gemma4ToolCallParser := withThoughtEchoGuard true

abbrev Step := List ParserEvent × Gemma4ToolCallParser × Bool

/-- `ambiguous_tail_start`, in characters: the first of the last
`max(tag.len()) - 1` bytes, at a char boundary, from which the text is a proper
front of a tag. -/
def ambiguousTailStart (s : Text) (tags : List Text) : Nat :=
  let maxTail := (tags.map fun t => byteLen t - 1).foldl max 0
  tailStart (fun tail =>
    byteLen tail ≤ maxTail && tags.any fun t => byteLen tail < byteLen t && tail.isPrefixOf t) s

/-- The end of `step_text` and of `step_in_channel`. The offset is a char boundary
already. -/
def emitBuffered (emit : Text → List ParserEvent) (tags : List Text) (p : Gemma4ToolCallParser)
    (isFinish : Bool) : Step :=
  let emitUpto := if isFinish then p.buf.length else ambiguousTailStart p.buf tags
  if 0 < emitUpto then
    (emit (p.buf.take emitUpto), { p with buf := p.buf.drop emitUpto }, true)
  else ([], p, false)

/-- The state behind a marker of the text state. -/
def afterTag (tag : Text) : State :=
  if tag = toolCallOpen ∨ tag = toolCallOpenSym ∨ tag = toolDefOpen ∨ tag = callOpenBare ∨
      tag = hermesCallOpen then .inCallHeader
  else if tag = channelOpen ∨ tag = thinkOpen then .inChannel
  else if tag = toolCodeOpen then .inToolCode
  else if tag = toolResponseOpen then .inToolResponse
  else if tag = turnOpen then .inTurnHeader
  else .text

def stepText (p : Gemma4ToolCallParser) (isFinish : Bool) : Step :=
  match earliest textOpenTags p.buf with
  | some (pos, tag) =>
    (emitText (p.buf.take pos),
      { p with buf := p.buf.drop (pos + tag.length), state := afterTag tag }, true)
  | none => emitBuffered emitText textOpenTags p isFinish

def stepInToolResponse (p : Gemma4ToolCallParser) (isFinish : Bool) : Step :=
  match find toolResponseClose p.buf with
  | some pos =>
    ([], { p with buf := p.buf.drop (pos + toolResponseClose.length), state := .text }, true)
  | none => if isFinish then ([], { p with buf := [], state := .text }, false) else ([], p, false)

def stepInTurnHeader (p : Gemma4ToolCallParser) (isFinish : Bool) : Step :=
  match find ['\n'] p.buf with
  | some nl => ([], { p with buf := p.buf.drop (nl + 1), state := .text }, true)
  | none => if isFinish then ([], { p with buf := [], state := .text }, false) else ([], p, false)

def channelClosers : List Text := [channelClose, thinkClose]

def stepInChannel (p : Gemma4ToolCallParser) (isFinish : Bool) : Step :=
  match earliest channelClosers p.buf with
  | some (pos, marker) =>
    (emitThink (p.buf.take pos),
      { p with buf := p.buf.drop (pos + marker.length), state := .text }, true)
  | none => emitBuffered emitThink channelClosers p isFinish

/-- What opens the arguments: the native brace or the python parenthesis. -/
def headerOpener (rest : Text) : Option (Char × Nat) :=
  match find ['{'] rest, find ['('] rest with
  | some b, some p => if p < b then some ('(', p) else some ('{', b)
  | some b, none => some ('{', b)
  | none, some p => some ('(', p)
  | none, none => none

/-- The close marker stands before any opener. -/
def closesFirst (rest : Text) (opener : Option (Char × Nat)) : Option Nat :=
  match find toolCallClose rest with
  | some c =>
    match opener with
    | none => some c
    | some (_, o) => if c < o then some c else none
  | none => none

/-- The length of the `call:` in front of the name; `none` while it may still come
in full. -/
def afterPrefix (buf : Text) : Option Nat :=
  if callPrefix.isPrefixOf buf then some callPrefix.length
  else if buf.isPrefixOf callPrefix then none
  else some 0

/-- `emit_call_head`. -/
def callHead (index : Nat) (name json : Text) : List ParserEvent :=
  [.toolCallOpen index name, .toolCallArgumentsDelta index json]

def stepInCallHeader (serde : GemmaSerde) (p : Gemma4ToolCallParser) : Step :=
  match afterPrefix p.buf with
  | none => ([], p, false)
  | some after =>
    let rest := p.buf.drop after
    let opener := headerOpener rest
    match closesFirst rest opener with
    | some c =>
      (callHead p.nextIndex (trim (rest.take c)) emptyObject,
        { p with buf := p.buf.drop (after + c), state := .awaitingClose }, true)
    | none =>
      match opener with
      | none => ([], p, false)
      | some (kind, opos) =>
        let name := trim (rest.take opos)
        if kind = '{' then
          ([.toolCallOpen p.nextIndex name],
            { p with
              buf := p.buf.drop (after + opos + 1)
              currentName := name
              argsBody := []
              argsDepth := 1
              argsInString := false
              state := .inArgs }, true)
        else
          match matchingParen (rest.drop opos) with
          | none => ([], p, false)
          | some close =>
            let inner := (rest.drop (opos + 1)).take (close - 1)
            let json := serde.toStringOr (.object (parsePythonArgs serde inner))
            (callHead p.nextIndex name json,
              { p with buf := p.buf.drop (after + opos + close + 1), state := .awaitingClose }, true)

/-- `&self.buf[i..i + q_len]`, taken at each byte of a character while it is in
range, is a panic inside one. -/
def lookaheadFaults (s : Text) : Bool :=
  match s with
  | [] => false
  | c :: _ =>
    (List.range c.utf8Size).any fun j =>
      j + byteLen stringQuote ≤ byteLen s && (j != 0 || !isCharBoundary s (byteLen stringQuote))

/-- What the scan of an arguments body came to: what it consumed, its depth and
string flag, and the text behind the closing brace or the text that is held. -/
structure ArgScan where
  consumed : Text
  depth : Nat
  inString : Bool
  closed : Bool
  rest : Text

/-- What is consumed first. -/
def ArgScan.after (front : Text) (r : ArgScan) : ArgScan := { r with consumed := front ++ r.consumed }

/-- What the loop of `step_in_args` does at a character. -/
inductive ArgStep where
  | fault
  /-- The text may go on as a quote: stop in front of it. -/
  | hold
  | close
  /-- Go on behind the character and `more` others. -/
  | advance (more : Nat) (depth : Nat) (inString : Bool)

def argStep (depth : Nat) (inString : Bool) (c : Char) (s : Text) : ArgStep :=
  if lookaheadFaults (c :: s) then .fault
  else if stringQuote.isPrefixOf (c :: s) then .advance (stringQuote.length - 1) depth (!inString)
  else if inString then
    if c = '<' && byteLen (c :: s) < byteLen stringQuote && (c :: s).isPrefixOf stringQuote then .hold
    else .advance 0 depth inString
  else if c = '<' && (c :: s).isPrefixOf stringQuote then .hold
  else if c = '{' || c = '[' then .advance 0 (depth + 1) inString
  else if c = ']' then .advance 0 (depth - 1) inString
  else if c = '}' then
    if depth = 0 then .advance 0 depth inString
    else if depth - 1 = 0 then .close
    else .advance 0 (depth - 1) inString
  else .advance 0 depth inString

/-- The loop of `step_in_args`. -/
def scanArgs (depth : Nat) (inString : Bool) : Text → Option ArgScan
  | [] => some ⟨[], depth, inString, false, []⟩
  | c :: s =>
    match argStep depth inString c s with
    | .fault => none
    | .hold => some ⟨[], depth, inString, false, c :: s⟩
    | .close => some ⟨[], 0, inString, true, s⟩
    | .advance more depth inString =>
      (scanArgs depth inString (s.drop more)).map (·.after (c :: s.take more))
termination_by s => s.length
decreasing_by
  rw [List.length_drop, List.length_cons]
  omega

def stepInArgs (serde : GemmaSerde) (p : Gemma4ToolCallParser) : Option Step :=
  (scanArgs p.argsDepth p.argsInString p.buf).map fun r =>
    let body := p.argsBody ++ r.consumed
    if r.closed then
      let parsed := (parseArgsBody serde body).getD (.object [])
      ([.toolCallArgumentsDelta p.nextIndex (serde.toStringOr parsed)],
        { p with
          buf := r.rest
          argsBody := []
          argsDepth := 0
          argsInString := false
          state := .awaitingClose }, true)
    else
      ([], { p with
          buf := r.rest
          argsBody := body
          argsDepth := r.depth
          argsInString := r.inString }, !r.consumed.isEmpty)

def callClosers : List Text := [toolCallClose, hermesCallClose, toolCodeClose]

def stepAwaitingClose (p : Gemma4ToolCallParser) : Step :=
  match earliest callClosers p.buf with
  | some (pos, marker) =>
    ([.toolCallClose p.nextIndex],
      { p with
        buf := p.buf.drop (pos + marker.length)
        nextIndex := p.nextIndex + 1
        state := .text }, true)
  | none => ([], p, false)

/-- `emit_tool_code_block`: the events of a block, and the index behind them. -/
def toolCodeBlock (serde : GemmaSerde) (index : Nat) (block : Text) : List ParserEvent × Nat :=
  match parseToolCodeBlock serde block with
  | some (name, args) =>
    ([.toolCallOpen index name, .toolCallArgumentsDelta index args, .toolCallClose index], index + 1)
  | none => (emitText (toolCodeOpen ++ block), index)

def codeClosers : List Text := [toolCodeClose, toolCallClose]

def stepInToolCode (serde : GemmaSerde) (p : Gemma4ToolCallParser) (isFinish : Bool) : Step :=
  match earliest codeClosers p.buf with
  | some (pos, marker) =>
    let (events, index) := toolCodeBlock serde p.nextIndex (p.buf.take pos)
    (events, { p with
      buf := p.buf.drop (pos + marker.length)
      nextIndex := index
      state := .text }, true)
  | none =>
    if isFinish then
      let (events, index) := toolCodeBlock serde p.nextIndex p.buf
      (events, { p with buf := [], nextIndex := index, state := .text }, true)
    else ([], p, false)

def step (serde : GemmaSerde) (isFinish : Bool) (p : Gemma4ToolCallParser) : Option Step :=
  match p.state with
  | .text => some (stepText p isFinish)
  | .inChannel => some (stepInChannel p isFinish)
  | .inCallHeader => some (stepInCallHeader serde p)
  | .inArgs => stepInArgs serde p
  | .awaitingClose => some (stepAwaitingClose p)
  | .inToolCode => some (stepInToolCode serde p isFinish)
  | .inToolResponse => some (stepInToolResponse p isFinish)
  | .inTurnHeader => some (stepInTurnHeader p isFinish)

/-- The end of `finish`: a call that is still open. -/
def flush (p : Gemma4ToolCallParser) : List ParserEvent × Gemma4ToolCallParser :=
  match p.state with
  | .inCallHeader => (emitText (toolCallOpen ++ p.buf), { p with buf := [], state := .text })
  | .inArgs =>
    ([.toolCallArgumentsDelta p.nextIndex emptyObject, .toolCallClose p.nextIndex],
      { p with nextIndex := p.nextIndex + 1, argsBody := [], state := .text })
  | .awaitingClose =>
    ([.toolCallClose p.nextIndex], { p with nextIndex := p.nextIndex + 1, state := .text })
  | _ => ([], p)

end Flambeau.Server.ToolCallParser.Gemma4
