import Mathlib
import Flambeau.Json.Document
import Flambeau.Runtime.NumberFlags

namespace Flambeau.Runtime.JsonSchema
open Flambeau.Json

/-- Strings, by their characters. -/
abbrev Name := List Char

/-- `serde_json::Value`. A map holds each key once. -/
inductive Value where
  | null
  | bool (b : Bool)
  | number (text : Bytes)
  | string (s : Name)
  | array (values : List Value)
  | object (fields : List (Name × Value))

/-- The first entry under a name. -/
def Map.get (name : Name) : List (Name × α) → Option α
  | [] => none
  | (n, x) :: fields => if n = name then some x else Map.get name fields

def Map.containsKey (name : Name) (fields : List (Name × α)) : Bool := (Map.get name fields).isSome

def Value.asStr : Value → Option Name
  | .string s => some s
  | _ => none

def Value.asArray : Value → Option (List Value)
  | .array values => some values
  | _ => none

/-- The bytes of a literal value: a JSON text with no whitespace around it. -/
structure Literal where
  bytes : Bytes
  text : ∃ d : Doc, d.bytes = bytes ∧ d.Ok rfc8259 () none

/-- A compiled schema node. `any` accepts any well-formed JSON value. -/
inductive Node where
  | any
  | bool
  | null
  | int
  | num
  | str
  | enum (candidates : List Literal)
  | object (properties : List (Name × Node)) (required : List Name) (additional : Bool)
  | array (items : Node)

def constKey : Name := ['c', 'o', 'n', 's', 't']
def enumKey : Name := ['e', 'n', 'u', 'm']
def typeKey : Name := ['t', 'y', 'p', 'e']
def itemsKey : Name := ['i', 't', 'e', 'm', 's']
def propertiesKey : Name := ['p', 'r', 'o', 'p', 'e', 'r', 't', 'i', 'e', 's']
def requiredKey : Name := ['r', 'e', 'q', 'u', 'i', 'r', 'e', 'd']
def additionalKey : Name :=
  ['a', 'd', 'd', 'i', 't', 'i', 'o', 'n', 'a', 'l', 'P', 'r', 'o', 'p', 'e', 'r', 't', 'i', 'e', 's']

theorem get_sizeOf [SizeOf α] {fields : List (Name × α)} (h : Map.get name fields = some x) :
    sizeOf x < sizeOf fields := by
  induction fields with
  | nil => cases h
  | cons f fields ih =>
    obtain ⟨n, y⟩ := f
    simp only [Map.get] at h
    split at h
    · cases h
      simp
      omega
    · have := ih h
      simp
      omega

/-- The keys of a schema's `required` list. -/
def requiredNames (obj : List (Name × Value)) : List Name :=
  match (Map.get requiredKey obj).bind Value.asArray with
  | some values => values.filterMap Value.asStr
  | none => []

/-- Extra keys are allowed only by an explicit `additionalProperties: true`. -/
def additionalAllowed (obj : List (Name × Value)) : Bool :=
  match Map.get additionalKey obj with
  | some (.bool true) => true
  | _ => false

mutual

/-- `Node::compile`, with `toVec` for `serde_json::to_vec`. Unsupported
constructs fall back to `any`. -/
def compile (toVec : Value → Literal) (schema : Value) : Node :=
  match schema with
  | .object obj =>
    match Map.get constKey obj with
    | some c => .enum [toVec c]
    | none =>
      match Map.get enumKey obj with
      | some (.array values) => .enum (values.map toVec)
      | _ =>
        match (Map.get typeKey obj).bind Value.asStr with
        | some ['o', 'b', 'j', 'e', 'c', 't'] => compileObject toVec obj
        | some ['a', 'r', 'r', 'a', 'y'] =>
          match h : Map.get itemsKey obj with
          | some items => .array (compile toVec items)
          | none => .array .any
        | some ['s', 't', 'r', 'i', 'n', 'g'] => .str
        | some ['i', 'n', 't', 'e', 'g', 'e', 'r'] => .int
        | some ['n', 'u', 'm', 'b', 'e', 'r'] => .num
        | some ['b', 'o', 'o', 'l', 'e', 'a', 'n'] => .bool
        | some ['n', 'u', 'l', 'l'] => .null
        | _ => if Map.containsKey propertiesKey obj then compileObject toVec obj else .any
  | _ => .any
termination_by 2 * sizeOf schema
decreasing_by
  all_goals simp_wf
  · omega
  · have := get_sizeOf h
    omega
  · omega

def compileObject (toVec : Value → Literal) (obj : List (Name × Value)) : Node :=
  .object
    (match h : Map.get propertiesKey obj with
      | some (.object props) => compileFields toVec props
      | _ => [])
    (requiredNames obj) (additionalAllowed obj)
termination_by 2 * sizeOf obj + 1
decreasing_by
  have := get_sizeOf h
  simp at this
  omega

def compileFields (toVec : Value → Literal) (props : List (Name × Value)) : List (Name × Node) :=
  match props with
  | [] => []
  | (k, v) :: props => (k, compile toVec v) :: compileFields toVec props
termination_by 2 * sizeOf props
decreasing_by
  all_goals
    simp only [List.cons.sizeOf_spec, Prod.mk.sizeOf_spec]
    omega

end

inductive ObjStage where
  | expectKeyOrClose
  | expectKey
  | inKey
  | expectColon
  | expectValue
  | expectCommaOrClose
deriving DecidableEq

inductive ArrStage where
  | expectValueOrClose
  | expectValue
  | expectCommaOrClose
deriving DecidableEq

/-- An object frame but for its stage. The newest key of `seen` comes first. -/
structure ObjectFrame where
  nodeProps : List (Name × Node)
  required : List Name
  additional : Bool
  seen : List Name
  pendingKey : Name

inductive Frame where
  | enum (candidates : List Literal) (pos : Nat)
  | str (escape : Bool) (unicodeRemaining : Nat)
  | num (integer : Bool) (flags : NumFlags)
  | literal (expected : Bytes)
  | object (frame : ObjectFrame) (stage : ObjStage)
  | array (items : Node) (stage : ArrStage)

/-- The schema-constrained streaming validator. The head of `stack` is the
innermost frame. -/
structure SchemaState where
  root : Node
  stack : List Frame
  started : Bool
  finished : Bool
  invalid : Bool

/-- The frame of a free-form object. -/
def anyFrame : ObjectFrame := ⟨[], [], true, [], []⟩

/-- The frame of a compiled object node. -/
def objectFrame : Node → ObjectFrame
  | .object properties required additional => ⟨properties, required, additional, [], []⟩
  | _ => anyFrame

/-- A byte read as the character of the same number. -/
def byteChar (b : UInt8) : Char := Char.ofNat b.toNat

namespace ObjectFrame

/-- The key may be used, and has not been. -/
def allows (o : ObjectFrame) (key : Name) : Bool :=
  (o.additional || Map.containsKey key o.nodeProps) && !o.seen.contains key

/-- The text is a prefix of a property not seen yet. -/
def leadsTo (o : ObjectFrame) (text : Name) : Bool :=
  o.nodeProps.any fun p => !o.seen.contains p.1 && text.isPrefixOf p.1

/-- The node of the value after the newest key. -/
def valueNode (o : ObjectFrame) : Node :=
  ((o.seen.head?).bind (fun k => Map.get k o.nodeProps)).getD .any

/-- Another property can still be added. -/
def canAdd (o : ObjectFrame) : Bool :=
  o.additional || o.nodeProps.any fun p => !o.seen.contains p.1

/-- Every required key has been seen. -/
def complete (o : ObjectFrame) : Bool := o.required.all fun r => o.seen.contains r

end ObjectFrame

namespace SchemaState

def new (toVec : Value → Literal) (schema : Value) : SchemaState :=
  ⟨compile toVec schema, [], false, false, false⟩

def isValid (s : SchemaState) : Bool := !s.invalid

def isComplete (s : SchemaState) : Bool := !s.invalid && s.finished && s.stack.isEmpty

def hasStarted (s : SchemaState) : Bool := s.started

def reject (s : SchemaState) : Bool × SchemaState := (false, { s with invalid := true })

/-- After a value closes, advance the parent frame or mark the top finished. -/
def foldAfterValue (s : SchemaState) : SchemaState :=
  match s.stack with
  | [] => { s with finished := true }
  | .array items .expectValueOrClose :: parents =>
    { s with stack := .array items .expectCommaOrClose :: parents }
  | _ => s

def push (s : SchemaState) (f : Frame) : SchemaState := { s with stack := f :: s.stack }

def openString (s : SchemaState) (b : UInt8) : Bool × SchemaState :=
  if b ≠ 0x22 then s.reject else (true, s.push (.str false 0))

def openLiteral (s : SchemaState) (expected : Bytes) : Bool × SchemaState :=
  (true, s.push (.literal expected))

def openNumber (s : SchemaState) (b : UInt8) (integer : Bool) : Bool × SchemaState :=
  if b ≠ 0x2D ∧ isDigit b = false then s.reject
  else (true, s.push (.num integer (.opened b)))

/-- A free-form value. -/
def startAny (s : SchemaState) (b : UInt8) : Bool × SchemaState :=
  if b = 0x7B then (true, push { s with started := true } (.object anyFrame .expectKeyOrClose))
  else if b = 0x5B then
    (true, push { s with started := true } (.array .any .expectValueOrClose))
  else if b = 0x22 then openString { s with started := true } b
  else if b = 0x74 then openLiteral { s with started := true } [0x72, 0x75, 0x65]
  else if b = 0x66 then openLiteral { s with started := true } [0x61, 0x6C, 0x73, 0x65]
  else if b = 0x6E then openLiteral { s with started := true } [0x75, 0x6C, 0x6C]
  else if b = 0x2D ∨ isDigit b = true then openNumber { s with started := true } b false
  else reject { s with started := true }

/-- The candidates that go on with the byte. -/
def alive (candidates : List Literal) (pos : Nat) (b : UInt8) : List Literal :=
  candidates.filter fun c => c.bytes[pos]? == some b

/-- Begin a value that must conform to the node, by its first byte. -/
def startValue (s : SchemaState) (b : UInt8) (node : Node) : Bool × SchemaState :=
  match node with
  | .enum candidates =>
    let candidates := alive candidates 0 b
    if candidates.isEmpty then reject { s with started := true }
    else if candidates.any (fun c => c.bytes.length == 1) &&
        candidates.all (fun c => c.bytes.length == 1) then
      (true, foldAfterValue { s with started := true })
    else (true, push { s with started := true } (.enum candidates 1))
  | .object .. =>
    if b ≠ 0x7B then reject { s with started := true }
    else (true, push { s with started := true } (.object (objectFrame node) .expectKeyOrClose))
  | .array items =>
    if b ≠ 0x5B then reject { s with started := true }
    else (true, push { s with started := true } (.array items .expectValueOrClose))
  | .str => openString { s with started := true } b
  | .bool =>
    if b = 0x74 then openLiteral { s with started := true } [0x72, 0x75, 0x65]
    else if b = 0x66 then openLiteral { s with started := true } [0x61, 0x6C, 0x73, 0x65]
    else reject { s with started := true }
  | .null =>
    if b = 0x6E then openLiteral { s with started := true } [0x75, 0x6C, 0x6C]
    else reject { s with started := true }
  | .int => openNumber { s with started := true } b true
  | .num => openNumber { s with started := true } b false
  | .any => startAny { s with started := true } b

def feedEnum (s : SchemaState) (b : UInt8) : Bool × SchemaState :=
  match s.stack with
  | .enum candidates pos :: parents =>
    let candidates := alive candidates pos b
    if candidates.isEmpty then s.reject
    -- Closed once every surviving candidate is fully matched.
    else if candidates.any (fun c => c.bytes.length == pos + 1) &&
        candidates.all (fun c => c.bytes.length == pos + 1) then
      (true, foldAfterValue { s with stack := parents })
    else (true, { s with stack := .enum candidates (pos + 1) :: parents })
  | _ => s.reject

def feedString (s : SchemaState) (b : UInt8) : Bool × SchemaState :=
  match s.stack with
  | .str escape unicodeRemaining :: parents =>
    if 0 < unicodeRemaining then
      if isHexDigit b then
        (true, { s with stack := .str escape (unicodeRemaining - 1) :: parents })
      else s.reject
    else if escape then
      if isEscape b then (true, { s with stack := .str false unicodeRemaining :: parents })
      else if b = 0x75 then (true, { s with stack := .str false 4 :: parents })
      else reject { s with stack := .str false unicodeRemaining :: parents }
    else if b = 0x5C then (true, { s with stack := .str true unicodeRemaining :: parents })
    else if b = 0x22 then (true, foldAfterValue { s with stack := parents })
    else if b < 0x20 then s.reject
    else (true, s)
  | _ => s.reject

def feedLiteral (s : SchemaState) (b : UInt8) : Bool × SchemaState :=
  match s.stack with
  | .literal (e :: expected) :: parents =>
    if e ≠ b then s.reject
    else if expected.isEmpty then (true, foldAfterValue { s with stack := parents })
    else (true, { s with stack := .literal expected :: parents })
  | _ => s.reject

/-- Enforce the required keys. -/
def closeObject (s : SchemaState) : Bool × SchemaState :=
  match s.stack with
  | .object o _ :: parents =>
    if !o.complete then s.reject else (true, foldAfterValue { s with stack := parents })
  | _ => s.reject

def feedObject (s : SchemaState) (b : UInt8) : Bool × SchemaState :=
  match s.stack with
  | .object o stage :: parents =>
    match stage with
    | .expectKeyOrClose =>
      if b = 0x7D then s.closeObject
      else if b = 0x22 then
        (true, { s with stack := .object { o with pendingKey := [] } .inKey :: parents })
      else s.reject
    | .expectKey =>
      if b = 0x22 then
        (true, { s with stack := .object { o with pendingKey := [] } .inKey :: parents })
      else s.reject
    | .inKey =>
      if b = 0x22 then
        if !o.allows o.pendingKey then s.reject
        else
          (true, { s with stack := .object { o with seen := o.pendingKey :: o.seen } .expectColon ::
            parents })
      -- Escapes and control bytes are not read in keys.
      else if b = 0x5C ∨ b < 0x20 then s.reject
      else if !(o.additional || o.leadsTo (o.pendingKey ++ [byteChar b])) then s.reject
      else
        (true, { s with stack := .object { o with pendingKey := o.pendingKey ++ [byteChar b] } .inKey ::
          parents })
    | .expectColon =>
      if b = 0x3A then (true, { s with stack := .object o .expectValue :: parents }) else s.reject
    | .expectValue =>
      startValue { s with stack := .object o .expectCommaOrClose :: parents } b o.valueNode
    | .expectCommaOrClose =>
      if b = 0x2C then
        if !o.canAdd then s.reject else (true, { s with stack := .object o .expectKey :: parents })
      else if b = 0x7D then s.closeObject
      else s.reject
  | _ => s.reject

def feedArray (s : SchemaState) (b : UInt8) : Bool × SchemaState :=
  match s.stack with
  | .array items stage :: parents =>
    match stage with
    | .expectValueOrClose =>
      if b = 0x5D then (true, foldAfterValue { s with stack := parents })
      else startValue { s with stack := .array items .expectCommaOrClose :: parents } b items
    | .expectValue =>
      startValue { s with stack := .array items .expectCommaOrClose :: parents } b items
    | .expectCommaOrClose =>
      if b = 0x2C then (true, { s with stack := .array items .expectValue :: parents })
      else if b = 0x5D then (true, foldAfterValue { s with stack := parents })
      else s.reject
  | _ => s.reject

@[simp] theorem foldAfterValue_length (s : SchemaState) :
    s.foldAfterValue.stack.length = s.stack.length := by
  unfold foldAfterValue
  split <;> simp_all

mutual

/-- Feed one byte: whether it was accepted, and the state after it. -/
def feed (s : SchemaState) (b : UInt8) : Bool × SchemaState :=
  if s.invalid then (false, s)
  else
    match s.stack with
    | .enum .. :: _ => s.feedEnum b
    | .str .. :: _ => s.feedString b
    | .literal _ :: _ => s.feedLiteral b
    | .num _ f :: parents =>
      if isWs b then
        if !f.seenDigit then s.reject
        else (true, foldAfterValue { s with stack := parents })
      else feedNumber s b
    -- Whitespace is let through in every other frame, an open key included.
    | .object .. :: _ => if isWs b then (true, s) else s.feedObject b
    | .array .. :: _ => if isWs b then (true, s) else s.feedArray b
    | [] =>
      if isWs b then (true, s)
      else if s.finished then s.reject
      else s.startValue b s.root
termination_by 2 * s.stack.length + 1

def feedNumber (s : SchemaState) (b : UInt8) : Bool × SchemaState :=
  match h : s.stack with
  | .num integer f :: parents =>
    match f.accept integer b with
    | some f' => (true, { s with stack := .num integer f' :: parents })
    | none =>
      if !f.closable then s.reject
      else feed (foldAfterValue { s with stack := parents }) b
  | _ => s.reject
termination_by 2 * s.stack.length
decreasing_by
  simp [h]
  omega

end

theorem feedNumber_eq (integer : Bool) (f : NumFlags) (root : Node) (parents : List Frame)
    (started finished invalid : Bool) (b : UInt8) :
    feedNumber ⟨root, .num integer f :: parents, started, finished, invalid⟩ b =
      match f.accept integer b with
      | some f' => (true, ⟨root, .num integer f' :: parents, started, finished, invalid⟩)
      | none =>
        if !f.closable then reject ⟨root, .num integer f :: parents, started, finished, invalid⟩
        else feed (foldAfterValue ⟨root, parents, started, finished, invalid⟩) b := by
  rw [feedNumber]

/-- Apply a slice of bytes: whether all were accepted, and the state reached. -/
def feedSlice (s : SchemaState) : Bytes → Bool × SchemaState
  | [] => (true, s)
  | b :: bytes =>
    match s.feed b with
    | (true, s') => s'.feedSlice bytes
    | (false, s') => (false, s')

/-- An open enum that exactly equals a candidate is settled. -/
def settleEnum (s : SchemaState) : SchemaState :=
  match s.stack with
  | .enum candidates pos :: parents =>
    if candidates.any (fun c => c.bytes.length == pos) then
      foldAfterValue { s with stack := parents }
    else s
  | _ => s

/-- Settle a trailing number frame, and then a trailing enum frame. -/
def finalizeAtEos (s : SchemaState) : SchemaState :=
  if s.invalid then s
  else
    match s.stack with
    | .num _ f :: parents =>
      if !f.closable then { s with invalid := true }
      else settleEnum (foldAfterValue { s with stack := parents })
    | _ => s.settleEnum

/-- Every byte is accepted. -/
def Takes (s : SchemaState) (w : Bytes) : Prop := (s.feedSlice w).1 = true

/-- Every byte is accepted and the state is complete at the end of the input. -/
def Accepts (s : SchemaState) (w : Bytes) : Prop :=
  s.Takes w ∧ (s.feedSlice w).2.finalizeAtEos.isComplete = true

instance (s : SchemaState) (w : Bytes) : Decidable (s.Takes w) :=
  inferInstanceAs (Decidable (_ = _))

instance (s : SchemaState) (w : Bytes) : Decidable (s.Accepts w) :=
  inferInstanceAs (Decidable (_ ∧ _))

end SchemaState
end Flambeau.Runtime.JsonSchema
