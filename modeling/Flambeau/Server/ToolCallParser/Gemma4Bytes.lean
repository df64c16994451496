import Flambeau.Server.ToolCallParser.Gemma4Stream
import Flambeau.Server.ToolCallParser.Slices

/-! The parser by byte offsets, with every slice it takes. Loops and recursions have a
number of rounds, and no result where it is used up. -/

namespace Flambeau.Server.ToolCallParser.Gemma4.Bytes
open Flambeau.Stream Flambeau.Runtime.JsonSchema

/-! `Parser`: a position in the text. -/

def isEof (s : Text) (pos : Nat) : Bool := byteLen s ≤ pos

def peek (s : Text) (pos : Nat) : Option UInt8 := (bytes s)[pos]?

/-- `while let Some(b) = self.peek()`, as long as the byte allows. -/
def advanceWhile (p : UInt8 → Bool) (s : Text) (pos : Nat) : Nat :=
  pos + (((bytes s).drop pos).takeWhile p).length

/-- `is_ascii_whitespace`. -/
def isAsciiWhitespace (b : UInt8) : Bool := b == 0x20 || b == 0x09 || b == 0x0A || b == 0x0C || b == 0x0D

def skipWs (s : Text) (pos : Nat) : Nat := advanceWhile isAsciiWhitespace s pos

def startsWith (s : Text) (pos : Nat) (pat : Text) : Option Bool :=
  (sliceFrom s pos).map fun rest => pat.isPrefixOf rest

/-- Behind a closer, where it stands. -/
def passCloser (c : Char) (s : Text) (pos : Nat) : Nat :=
  if peek s pos = some c.toUInt8 then pos + 1 else pos

mutual

/-- `parse_object_body`; an error is `some none`. -/
def parseObjectBody (serde : GemmaSerde) (s : Text) :
    Nat → List (Name × Value) → Nat → Option (Option (Value × Nat))
  | 0, _, _ => none
  | rounds + 1, obj, pos =>
    let pos := skipWs s pos
    if isEof s pos || peek s pos == some '}'.toUInt8 then some (some (.object obj, pos))
    else
      let stop := advanceWhile (· != ':'.toUInt8) s pos
      (slice s pos stop).bind fun key =>
        if peek s stop ≠ some ':'.toUInt8 then some none
        else
          (parseValue serde s rounds (skipWs s (stop + 1))).bind fun parsed =>
            match parsed with
            | none => some none
            | some (v, pos) =>
              let obj := mapInsert (trim key) v obj
              let pos := skipWs s pos
              if peek s pos = some ','.toUInt8 then parseObjectBody serde s rounds obj (pos + 1)
              else some (some (.object obj, pos))

def parseValue (serde : GemmaSerde) (s : Text) : Nat → Nat → Option (Option (Value × Nat))
  | 0, _ => none
  | rounds + 1, pos =>
    let pos := skipWs s pos
    if isEof s pos then some (some (.null, pos))
    else
      (startsWith s pos stringQuote).bind fun isQuote =>
        if isQuote then
          let start := pos + byteLen stringQuote
          (sliceFrom s start).bind fun rest =>
            match findByte stringQuote rest with
            | none => some none
            | some closeRel =>
              (slice s start (start + closeRel)).map fun text =>
                some (.string text, start + closeRel + byteLen stringQuote)
        else if peek s pos = some '{'.toUInt8 then
          (parseObjectBody serde s rounds [] (pos + 1)).map fun parsed =>
            parsed.map fun x => (x.1, passCloser '}' s x.2)
        else if peek s pos = some '['.toUInt8 then
          (parseArray serde s rounds [] (pos + 1)).map fun parsed =>
            parsed.map fun x => (.array x.1, passCloser ']' s x.2)
        else
          let stop := advanceWhile
            (fun b => !(b == ','.toUInt8 || b == '}'.toUInt8 || b == ']'.toUInt8)) s pos
          (slice s pos stop).map fun raw => some (bareValue serde (trim raw), stop)

/-- The loop over the values of an array. -/
def parseArray (serde : GemmaSerde) (s : Text) :
    Nat → List Value → Nat → Option (Option (List Value × Nat))
  | 0, _, _ => none
  | rounds + 1, values, pos =>
    let pos := skipWs s pos
    if isEof s pos || peek s pos == some ']'.toUInt8 then some (some (values, pos))
    else
      (parseValue serde s rounds pos).bind fun parsed =>
        match parsed with
        | none => some none
        | some (v, pos) =>
          let pos := skipWs s pos
          if peek s pos = some ','.toUInt8 then parseArray serde s rounds (values ++ [v]) (pos + 1)
          else some (some (values ++ [v], pos))

end

def parseArgsBody (serde : GemmaSerde) (body : Text) : Option (Option Value) :=
  let pos := skipWs body 0
  if isEof body pos then some (some (.object []))
  else (parseObjectBody serde body (2 * byteLen body + 1) [] pos).map fun parsed => parsed.map (·.1)

/-! Python calls. -/

def isQuote (b : UInt8) : Bool := b == '"'.toUInt8 || b == '\''.toUInt8

/-- `matching_paren`. -/
def matchingParen (s : Text) : Option Nat :=
  if (bytes s).head? = some '('.toUInt8 then go 0 none (bytes s) else none
where
  go (depth : Int) (quote : Option UInt8) : List UInt8 → Option Nat
    | [] => none
    | c :: s =>
      match quote with
      | some q =>
        if c = '\\'.toUInt8 then
          match s with
          | [] => none
          | _ :: s => (go depth quote s).map (· + 2)
        else (go depth (if c = q then none else some q) s).map (· + 1)
      | none =>
        if isQuote c then (go depth (some c) s).map (· + 1)
        else if c = '('.toUInt8 then (go (depth + 1) none s).map (· + 1)
        else if c = ')'.toUInt8 then
          if depth - 1 = 0 then some 0 else (go (depth - 1) none s).map (· + 1)
        else (go depth none s).map (· + 1)

def isOpener (b : UInt8) : Bool := b == '('.toUInt8 || b == '['.toUInt8 || b == '{'.toUInt8

def isCloser (b : UInt8) : Bool := b == ')'.toUInt8 || b == ']'.toUInt8 || b == '}'.toUInt8

/-- `split_top_level`: the part begins at `start`, the scan is at `i`. -/
def splitTopLevel (sep : Char) (s : Text) : Option (List Text) := go 0 none 0 0 (bytes s)
where
  go (depth : Int) (quote : Option UInt8) (start i : Nat) : List UInt8 → Option (List Text)
    | [] => (sliceFrom s start).map fun part => [part]
    | c :: rest =>
      match quote with
      | some q =>
        if c = '\\'.toUInt8 then
          match rest with
          | [] => (sliceFrom s start).map fun part => [part]
          | _ :: rest => go depth quote start (i + 2) rest
        else go depth (if c = q then none else some q) start (i + 1) rest
      | none =>
        if isQuote c then go depth (some c) start (i + 1) rest
        else if isOpener c then go (depth + 1) none start (i + 1) rest
        else if isCloser c then go (depth - 1) none start (i + 1) rest
        else if c = sep.toUInt8 ∧ depth = 0 then
          (slice s start i).bind fun part => (go depth none (i + 1) (i + 1) rest).map fun parts => part :: parts
        else go depth none start (i + 1) rest

def parsePyValue (serde : GemmaSerde) (s : Text) : Option Value :=
  let s := trim s
  if 2 ≤ byteLen s ∧ ((s.head? = some '"' ∧ s.getLast? = some '"') ∨
      (s.head? = some '\'' ∧ s.getLast? = some '\'')) then
    (slice s 1 (byteLen s - 1)).map .string
  else if s = ['T', 'r', 'u', 'e'] then some (.bool true)
  else if s = ['F', 'a', 'l', 's', 'e'] then some (.bool false)
  else if s = ['N', 'o', 'n', 'e'] ∨ s = ['n', 'u', 'l', 'l'] then some .null
  else some ((serde.fromStr s).getD (.string s))

/-- One argument of a python call; a positional one is skipped. -/
def pythonArg (serde : GemmaSerde) (obj : List (Name × Value)) (part : Text) : Option (List (Name × Value)) :=
  let part := trim part
  if part.isEmpty then some obj
  else
    (splitTopLevel '=' part).bind fun parts =>
      match parts with
      | [] => some obj
      | k :: _ =>
        let eq := byteLen k
        if byteLen part ≤ eq then some obj
        else
          (sliceTo part eq).bind fun front =>
            let key := trimQuotes (trim front)
            if key.isEmpty then some obj
            else
              (sliceFrom part (eq + 1)).bind fun back =>
                (parsePyValue serde (trim back)).map fun v => mapInsert key v obj

def parsePythonArgs (serde : GemmaSerde) (inner : Text) : Option (List (Name × Value)) :=
  (splitTopLevel ',' inner).bind fun parts => parts.foldlM (pythonArg serde) []

def parsePythonCall (serde : GemmaSerde) (s : Text) : Option (Option (Text × Text)) :=
  let s := trim s
  match findByte ['('] s with
  | none => some none
  | some opened =>
    (sliceTo s opened).bind fun front =>
      match firstIdentifier front with
      | none => some none
      | some name =>
        (sliceFrom s opened).bind fun call =>
          match matchingParen call with
          | none => some none
          | some closeRel =>
            (slice s (opened + 1) (opened + closeRel)).bind fun inner =>
              (parsePythonArgs serde inner).map fun args =>
                if !(trim inner).isEmpty && args.length = 0 then none
                else (serde.toString (.object args)).map fun json => (name, json)

/-- `NAME { .. }`, the object being the first value behind the name. -/
def objectCall (serde : GemmaSerde) (s : Text) : Option (Option (Text × Option Text)) :=
  match findByte ['{'] s with
  | none => some none
  | some brace =>
    (sliceTo s brace).bind fun front =>
      match firstIdentifier front with
      | none => some none
      | some name =>
        (sliceFrom s brace).map fun body =>
          match serde.firstValue body with
          | some (.object fields) => some (name, serde.toString (.object fields))
          | _ => none

def parseToolCodeBlock (serde : GemmaSerde) (block : Text) : Option (Option (Text × Text)) :=
  let s := trim (stripRepeats (trim block))
  (objectCall serde s).bind fun call =>
    match call with
    | some (name, json) => some (json.map fun json => (name, json))
    | none => parsePythonCall serde s

/-! The steps. -/

/-- The end of `step_text` and of `step_in_channel`. -/
def emitBuffered (emit : Text → List ParserEvent) (tags : List Text) (p : Gemma4ToolCallParser)
    (isFinish : Bool) : Option Step :=
  (if isFinish then some (byteLen p.buf) else ambiguousTailByte p.buf tags).bind fun n =>
    let emitUpto := floorCharBoundary p.buf n
    if 0 < emitUpto then
      (splitByte emitUpto p.buf).map fun (chunk, rest) => (emit chunk, { p with buf := rest }, true)
    else some ([], p, false)

def stepText (p : Gemma4ToolCallParser) (isFinish : Bool) : Option Step :=
  match earliestByte textOpenTags p.buf with
  | some (pos, tag) =>
    (sliceTo p.buf pos).bind fun text =>
      (sliceFrom p.buf (pos + byteLen tag)).map fun rest =>
        (emitText text, { p with buf := rest, state := afterTag tag }, true)
  | none => emitBuffered emitText textOpenTags p isFinish

def stepInToolResponse (p : Gemma4ToolCallParser) (isFinish : Bool) : Option Step :=
  match findByte toolResponseClose p.buf with
  | some pos =>
    (sliceFrom p.buf (pos + byteLen toolResponseClose)).map fun rest =>
      ([], { p with buf := rest, state := .text }, true)
  | none =>
    if isFinish then some ([], { p with buf := [], state := .text }, false) else some ([], p, false)

def stepInTurnHeader (p : Gemma4ToolCallParser) (isFinish : Bool) : Option Step :=
  match findByte ['\n'] p.buf with
  | some nl => (sliceFrom p.buf (nl + 1)).map fun rest => ([], { p with buf := rest, state := .text }, true)
  | none =>
    if isFinish then some ([], { p with buf := [], state := .text }, false) else some ([], p, false)

def stepInChannel (p : Gemma4ToolCallParser) (isFinish : Bool) : Option Step :=
  match earliestByte channelClosers p.buf with
  | some (pos, marker) =>
    (sliceTo p.buf pos).bind fun thought =>
      (sliceFrom p.buf (pos + byteLen marker)).map fun rest =>
        (emitThink thought, { p with buf := rest, state := .text }, true)
  | none => emitBuffered emitThink channelClosers p isFinish

/-- What opens the arguments: the native brace or the python parenthesis. -/
def headerOpener (rest : Text) : Option (Char × Nat) :=
  match findByte ['{'] rest, findByte ['('] rest with
  | some b, some p => if p < b then some ('(', p) else some ('{', b)
  | some b, none => some ('{', b)
  | none, some p => some ('(', p)
  | none, none => none

/-- The close marker stands before any opener. -/
def closesFirst (rest : Text) (opener : Option (Char × Nat)) : Option Nat :=
  match findByte toolCallClose rest with
  | some c =>
    match opener with
    | none => some c
    | some (_, o) => if c < o then some c else none
  | none => none

def afterPrefix (buf : Text) : Option Nat :=
  if callPrefix.isPrefixOf buf then some (byteLen callPrefix)
  else if buf.isPrefixOf callPrefix then none
  else some 0

def stepInCallHeader (serde : GemmaSerde) (p : Gemma4ToolCallParser) : Option Step :=
  match afterPrefix p.buf with
  | none => some ([], p, false)
  | some after =>
    (sliceFrom p.buf after).bind fun rest =>
      match closesFirst rest (headerOpener rest) with
      | some c =>
        (sliceTo rest c).bind fun name =>
          (sliceFrom p.buf (after + c)).map fun behind =>
            (callHead p.nextIndex (trim name) emptyObject, { p with buf := behind, state := .awaitingClose }, true)
      | none =>
        match headerOpener rest with
        | none => some ([], p, false)
        | some (kind, opos) =>
          (sliceTo rest opos).bind fun front =>
            let name := trim front
            if kind = '{' then
              (sliceFrom p.buf (after + opos + 1)).map fun behind =>
                ([.toolCallOpen p.nextIndex name],
                  { p with
                    buf := behind
                    currentName := name
                    argsBody := []
                    argsDepth := 1
                    argsInString := false
                    state := .inArgs }, true)
            else
              let innerStart := after + opos
              (sliceFrom p.buf innerStart).bind fun call =>
                match matchingParen call with
                | none => some ([], p, false)
                | some closeRel =>
                  (slice p.buf (innerStart + 1) (innerStart + closeRel)).bind fun inner =>
                    (parsePythonArgs serde inner).bind fun args =>
                      (sliceFrom p.buf (innerStart + closeRel + 1)).map fun behind =>
                        (callHead p.nextIndex name (serde.toStringOr (.object args)),
                          { p with buf := behind, state := .awaitingClose }, true)

/-- What the loop of `step_in_args` came to: its depth and string flag, where it stopped and
whether at the closing brace. -/
structure ArgStop where
  depth : Nat
  inString : Bool
  stop : Nat
  closed : Bool

/-- The quote at `i`, where there is room for one. -/
def quoteAt (buf : Text) (i : Nat) : Option Bool :=
  if i + byteLen stringQuote ≤ byteLen buf then
    (slice buf i (i + byteLen stringQuote)).map fun window => window == stringQuote
  else some false

/-- The tail at `i` may go on as a quote. -/
def mayQuote (buf : Text) (i : Nat) : Option Bool := (sliceFrom buf i).map fun tail => tail.isPrefixOf stringQuote

/-- The loop of `step_in_args`. -/
def scanArgs (buf : Text) : Nat → Nat → Bool → Nat → Option ArgStop
  | 0, _, _, _ => none
  | rounds + 1, depth, inString, i =>
    if byteLen buf ≤ i then some ⟨depth, inString, i, false⟩
    else
      (quoteAt buf i).bind fun isQuote =>
        if isQuote then scanArgs buf rounds depth (!inString) (i + byteLen stringQuote)
        else
          ((bytes buf)[i]?).bind fun b =>
            (if b = '<'.toUInt8 ∧ (inString = true → byteLen buf < i + byteLen stringQuote) then mayQuote buf i
              else some false).bind fun hold =>
              if hold then some ⟨depth, inString, i, false⟩
              else if inString then scanArgs buf rounds depth inString (i + 1)
              else if b = '{'.toUInt8 ∨ b = '['.toUInt8 then scanArgs buf rounds (depth + 1) inString (i + 1)
              else if b = ']'.toUInt8 then scanArgs buf rounds (depth - 1) inString (i + 1)
              else if b = '}'.toUInt8 then
                if depth = 0 then scanArgs buf rounds depth inString (i + 1)
                else if depth - 1 = 0 then some ⟨0, inString, i, true⟩
                else scanArgs buf rounds (depth - 1) inString (i + 1)
              else scanArgs buf rounds depth inString (i + 1)

def stepInArgs (serde : GemmaSerde) (p : Gemma4ToolCallParser) : Option Step :=
  (scanArgs p.buf (byteLen p.buf + 1) p.argsDepth p.argsInString 0).bind fun r =>
    (sliceTo p.buf r.stop).bind fun consumed =>
      let body := p.argsBody ++ consumed
      if r.closed then
        (sliceFrom p.buf (r.stop + 1)).bind fun rest =>
          (parseArgsBody serde body).map fun parsed =>
            ([.toolCallArgumentsDelta p.nextIndex (serde.toStringOr (parsed.getD (.object [])))],
              { p with
                buf := rest
                argsBody := []
                argsDepth := 0
                argsInString := false
                state := .awaitingClose }, true)
      else
        (sliceFrom p.buf r.stop).map fun rest =>
          ([], { p with
              buf := rest
              argsBody := body
              argsDepth := r.depth
              argsInString := r.inString }, decide (0 < r.stop))

def stepAwaitingClose (p : Gemma4ToolCallParser) : Option Step :=
  match earliestByte callClosers p.buf with
  | some (pos, marker) =>
    (sliceFrom p.buf (pos + byteLen marker)).map fun rest =>
      ([.toolCallClose p.nextIndex], { p with buf := rest, nextIndex := p.nextIndex + 1, state := .text }, true)
  | none => some ([], p, false)

/-- `emit_tool_code_block`: the events of a block, and the index behind them. -/
def toolCodeBlock (serde : GemmaSerde) (index : Nat) (block : Text) : Option (List ParserEvent × Nat) :=
  (parseToolCodeBlock serde block).map fun call =>
    match call with
    | some (name, args) =>
      ([.toolCallOpen index name, .toolCallArgumentsDelta index args, .toolCallClose index], index + 1)
    | none => (emitText (toolCodeOpen ++ block), index)

def stepInToolCode (serde : GemmaSerde) (p : Gemma4ToolCallParser) (isFinish : Bool) : Option Step :=
  match earliestByte codeClosers p.buf with
  | some (pos, marker) =>
    (sliceTo p.buf pos).bind fun block =>
      (sliceFrom p.buf (pos + byteLen marker)).bind fun rest =>
        (toolCodeBlock serde p.nextIndex block).map fun (events, index) =>
          (events, { p with buf := rest, nextIndex := index, state := .text }, true)
  | none =>
    if isFinish then
      (toolCodeBlock serde p.nextIndex p.buf).map fun (events, index) =>
        (events, { p with buf := [], nextIndex := index, state := .text }, true)
    else some ([], p, false)

def step (serde : GemmaSerde) (isFinish : Bool) (p : Gemma4ToolCallParser) : Option Step :=
  match p.state with
  | .text => stepText p isFinish
  | .inChannel => stepInChannel p isFinish
  | .inCallHeader => stepInCallHeader serde p
  | .inArgs => stepInArgs serde p
  | .awaitingClose => stepAwaitingClose p
  | .inToolCode => stepInToolCode serde p isFinish
  | .inToolResponse => stepInToolResponse p isFinish
  | .inTurnHeader => stepInTurnHeader p isFinish

/-! The echo guard. -/

/-- The loop of `try_consume_echo_prefix`: the buffer after it, and whether the guard is still
pending. -/
def consumeEcho (isFinish : Bool) : Nat → Text → Option (Text × Bool)
  | 0, _ => none
  | rounds + 1, buf =>
    match findByte ['\n'] buf with
    | some nl =>
      (sliceTo buf nl).bind fun line =>
        if isScaffoldingLine line then (sliceFrom buf (nl + 1)).bind (consumeEcho isFinish rounds)
        else some (buf, false)
    | none =>
      if !isFinish && couldExtendToScaffoldingLine buf then some (buf, true)
      else if isFinish && isScaffoldingLine buf then some ([], false)
      else some (buf, false)

/-- The guard is resolved before any other step. -/
def guardedStep (serde : GemmaSerde) (isFinish : Bool) (p : Gemma4ToolCallParser) : Option Step :=
  if p.pendingThoughtEcho then
    (consumeEcho isFinish (byteLen p.buf + 1) p.buf).map fun (buf, pending) =>
      ([], { p with buf, pendingThoughtEcho := pending }, !pending)
  else step serde isFinish p

end Flambeau.Server.ToolCallParser.Gemma4.Bytes
