import Flambeau.Server.ToolCallParser.QwenCoder
import Flambeau.Server.ToolCallParser.Slices

/-! The parser by byte offsets, with every slice it takes. -/

namespace Flambeau.Server.ToolCallParser.QwenCoder.Bytes
open Flambeau.Stream Flambeau.Runtime.JsonSchema

/-! Where a function may open. -/

/-- The first `<function=`, when it is closed. -/
def canonicalOpen (buf : Text) : Option (Option FunctionOpen) :=
  match findByte functionOpen buf with
  | none => some none
  | some p =>
    let after := p + byteLen functionOpen
    (sliceFrom buf after).bind fun rest =>
      match findByte ['>'] rest with
      | none => some none
      | some gt => (slice buf after (after + gt)).map fun name => some ⟨p, after + gt + 1 - p, name⟩

/-- The rounds of the scan for a bare `<NAME>`, from the offset `i` on. -/
def bareOpen (buf : Text) : Nat → Nat → Option (Option FunctionOpen)
  | 0, _ => none
  | rounds + 1, i =>
    (sliceFrom buf i).bind fun rest =>
      match findByte ['<'] rest with
      | none => some none
      | some rel =>
        let lt := i + rel
        (sliceFrom buf lt).bind fun tail =>
          match findByte ['>'] tail with
          | none => some none
          | some gtr =>
            let gt := lt + gtr
            (slice buf (lt + 1) gt).bind fun inner =>
              if isFunctionName inner then
                (sliceFrom buf (gt + 1)).bind fun behind =>
                  if anchored behind then some (some ⟨lt, gt + 1 - lt, inner⟩)
                  else bareOpen buf rounds (gt + 1)
              else bareOpen buf rounds (gt + 1)

/-- A round leaves at least a byte behind, so there are no more than bytes. -/
def findFunctionOpen (buf : Text) : Option (Option FunctionOpen) :=
  (canonicalOpen buf).bind fun canonical =>
    (bareOpen buf (byteLen buf + 1) 0).map fun bare =>
      match canonical, bare with
      | some f, some b => if b.start < f.start then some b else some f
      | some f, none => some f
      | none, b => b

/-- `rfind`, which answers with an offset. -/
def rfindByte (c : Char) (s : Text) : Option Nat := (rfind c s).map (byteAt s)

/-- The last byte of `buf[..stop]`. -/
def byteBefore (buf : Text) (stop : Nat) : Option UInt8 := (bytes buf)[stop - 1]?

/-- The end of `bare_open_holdback`: hold from a complete bare `<NAME>`. -/
def holdName (buf : Text) (stop : Nat) : Option Nat :=
  (byteBefore buf stop).bind fun last =>
    if last = '>'.toUInt8 then
      (sliceTo buf stop).bind fun front =>
        match rfindByte '<' front with
        | none => some (byteLen buf)
        | some lt =>
          (slice buf (lt + 1) (stop - 1)).map fun inner => if isFunctionName inner then lt else byteLen buf
    else some (byteLen buf)

def isPartialBareName (part : Text) : Option Bool :=
  if part.head? = some '<' then (sliceFrom part 1).map fun rest => rest.all isNameChar else some false

def bareOpenHoldback (buf : Text) : Option Nat :=
  let stop := byteLen (trimEnd buf)
  if stop = 0 then some (byteLen buf)
  else
    (byteBefore buf stop).bind fun last =>
      if last ≠ '>'.toUInt8 then
        (sliceTo buf stop).bind fun front =>
          match rfindByte '<' front with
          | none => some (byteLen buf)
          | some lt =>
            (slice buf lt stop).bind fun part =>
              if part.isPrefixOf parameterOpen || part.isPrefixOf functionClose then
                (sliceTo buf lt).bind fun before =>
                  let stop := byteLen (trimEnd before)
                  if stop = 0 then some lt else holdName buf stop
              else (isPartialBareName part).map fun name => if name then lt else byteLen buf
      else holdName buf stop

def pendingToolTailStart (buf : Text) : Option Nat :=
  (ambiguousTailByte buf [toolOpen, thinkOpen, functionOpen]).bind fun byTag =>
    (bareOpenHoldback buf).map fun held => min byTag held

/-! The steps. -/

def openFunction (p : QwenCoderXmlParser) (o : FunctionOpen) (rest : Text) : List ParserEvent × QwenCoderXmlParser :=
  ([.toolCallOpen p.nextIndex o.name],
    { p with buf := rest, currentName := o.name, currentParams := [], state := .inFunctionBody })

/-- The end of `step_text` and of `step_in_think`. -/
def emitUpTo (emit : Text → List ParserEvent) (p : QwenCoderXmlParser) (upto : Nat) : Option Step :=
  let upto := floorCharBoundary p.buf upto
  if 0 < upto then
    (splitByte upto p.buf).map fun (chunk, rest) => (emit chunk, { p with buf := rest }, true)
  else some ([], p, false)

def funcFirst (tag : Option (Nat × Text)) (func : Option FunctionOpen) : Option FunctionOpen :=
  match tag, func with
  | some (t, _), some f => if f.start < t then some f else none
  | none, some f => some f
  | _, none => none

def stepText (p : QwenCoderXmlParser) (isFinish : Bool) : Option Step :=
  let tag := earliestByte textStateOpenTags p.buf
  (findFunctionOpen p.buf).bind fun func =>
    match funcFirst tag func with
    | some o =>
      (sliceTo p.buf o.start).bind fun text =>
        (sliceFrom p.buf (o.start + o.tagLen)).map fun rest =>
          let (opened, p') := openFunction p o rest
          (emitText text ++ opened, p', true)
    | none =>
      match tag with
      | some (pos, tag) =>
        (sliceTo p.buf pos).bind fun text =>
          (sliceFrom p.buf (pos + byteLen tag)).map fun rest =>
            (emitText text, { p with
              buf := rest
              state := if tag = toolOpen then .inToolCall else .inThink }, true)
      | none =>
        (if isFinish then some (byteLen p.buf) else pendingToolTailStart p.buf).bind (emitUpTo emitText p)

def stepInThink (p : QwenCoderXmlParser) (isFinish : Bool) : Option Step :=
  match findByte thinkClose p.buf with
  | some pos =>
    (sliceTo p.buf pos).bind fun thought =>
      (sliceFrom p.buf (pos + byteLen thinkClose)).map fun rest =>
        (emitThink thought, { p with buf := rest, state := .text }, true)
  | none =>
    (if isFinish then some (byteLen p.buf) else ambiguousTailByte p.buf [thinkClose]).bind (emitUpTo emitThink p)

def stepInToolCall (p : QwenCoderXmlParser) : Option Step :=
  (findFunctionOpen p.buf).bind fun func =>
    match func with
    | some o =>
      (sliceFrom p.buf (o.start + o.tagLen)).map fun rest =>
        let (opened, p') := openFunction p o rest
        (opened, p', true)
    | none => some ([], p, false)

/-- The position of the earlier tag, and whether it is a parameter's. -/
def nextInBody (param func : Option Nat) : Option (Nat × Bool) :=
  match param, func with
  | some p, some f => if p < f then some (p, true) else some (f, false)
  | some p, none => some (p, true)
  | none, some f => some (f, false)
  | none, none => none

def stepInFunctionBody (serde : SerdeJson) (p : QwenCoderXmlParser) : Option Step :=
  match nextInBody (findByte parameterOpen p.buf) (findByte functionClose p.buf) with
  | none => some ([], p, false)
  | some (pos, isParam) =>
    (sliceFrom p.buf pos).bind fun buf =>
      if isParam then
        let afterPrefix := byteLen parameterOpen
        (sliceFrom buf afterPrefix).bind fun rest =>
          match findByte ['>'] rest with
          | none => some ([], { p with buf }, false)
          | some closeRel =>
            (slice buf afterPrefix (afterPrefix + closeRel)).bind fun key =>
              (sliceFrom buf (afterPrefix + closeRel + 1)).map fun rest =>
                ([], { p with buf := rest, currentParamKey := key, state := .inParameterBody }, true)
      else
        (sliceFrom buf (byteLen functionClose)).map fun rest =>
          ([.toolCallArgumentsDelta p.nextIndex (serde.toStringOr (.object p.currentParams))],
            { p with buf := rest, currentParams := [], state := .awaitingToolCallClose }, true)

/-- `start` behind a newline of the template. -/
def valueStart (buf : Text) (pos : Nat) : Option Nat :=
  if 0 < pos then (bytes buf)[0]?.map fun b => if b = '\n'.toUInt8 then 1 else 0 else some 0

/-- `end` in front of one. -/
def valueEnd (buf : Text) (start pos : Nat) : Option Nat :=
  if start < pos then (byteBefore buf pos).map fun b => if b = '\n'.toUInt8 then pos - 1 else pos else some pos

def stepInParameterBody (p : QwenCoderXmlParser) : Option Step :=
  match findByte parameterClose p.buf with
  | none => some ([], p, false)
  | some pos =>
    (valueStart p.buf pos).bind fun start =>
      (valueEnd p.buf start pos).bind fun stop =>
        (slice p.buf start stop).bind fun value =>
          (sliceFrom p.buf (pos + byteLen parameterClose)).map fun rest =>
            ([], { p with
                buf := rest
                currentParamKey := []
                currentParams := Gemma4.mapInsert p.currentParamKey (.string value) p.currentParams
                state := .inFunctionBody }, true)

def stepAwaitingClose (p : QwenCoderXmlParser) : Option Step :=
  match earliestByte [toolClose, functionOpen, parameterOpen] p.buf with
  | none => some ([], p, false)
  | some (pos, tag) =>
    (sliceFrom p.buf pos).bind fun buf =>
      let closed := { p with buf, nextIndex := p.nextIndex + 1 }
      if tag = toolClose then
        (sliceFrom buf (byteLen toolClose)).map fun rest =>
          ([.toolCallClose p.nextIndex], { closed with buf := rest, state := .text }, true)
      else if tag = functionOpen then
        some ([.toolCallClose p.nextIndex], { closed with state := .inToolCall }, true)
      else if p.currentName.isEmpty then some ([.toolCallClose p.nextIndex], closed, false)
      else
        some ([.toolCallClose p.nextIndex, .toolCallOpen (p.nextIndex + 1) p.currentName],
          { closed with state := .inFunctionBody }, true)

def step (serde : SerdeJson) (isFinish : Bool) (p : QwenCoderXmlParser) : Option Step :=
  match p.state with
  | .text => stepText p isFinish
  | .inThink => stepInThink p isFinish
  | .inToolCall => stepInToolCall p
  | .inFunctionBody => stepInFunctionBody serde p
  | .inParameterBody => stepInParameterBody p
  | .awaitingToolCallClose => stepAwaitingClose p

end Flambeau.Server.ToolCallParser.QwenCoder.Bytes
