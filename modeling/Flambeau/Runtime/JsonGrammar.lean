import Flambeau.Runtime.NumberFlags

namespace Flambeau.Runtime
open Flambeau.Json

namespace JsonGrammar

inductive Frame where
  | object (expectingKey expectingColon expectingValue expectingCommaOrClose : Bool)
  | array (expectingValue expectingCommaOrClose : Bool)
  | string (escape : Bool) (unicodeRemaining : Nat) (isKey : Bool)
  | number (flags : NumFlags)
  | literal (expected : Bytes)
deriving DecidableEq, Repr

end JsonGrammar

open JsonGrammar

/-- The streaming validator. The head of `stack` is the innermost frame. -/
structure JsonState where
  stack : List Frame
  finished : Bool
  invalid : Bool
deriving DecidableEq, Repr

namespace JsonState

def new : JsonState := ⟨[], false, false⟩

def isValid (s : JsonState) : Bool := !s.invalid

def isComplete (s : JsonState) : Bool := !s.invalid && s.finished && s.stack.isEmpty

def hasStarted (s : JsonState) : Bool := !s.stack.isEmpty || s.finished

/-- Latch the unrecoverable state. -/
def reject (s : JsonState) : Bool × JsonState := (false, { s with invalid := true })

/-- Called after a value closes: the parent frame expects what comes next. -/
def foldAfterValue (s : JsonState) : JsonState :=
  match s.stack with
  | .object key colon true _ :: parents => { s with stack := .object key colon false true :: parents }
  | .array true _ :: parents => { s with stack := .array false true :: parents }
  | [] => { s with finished := true }
  | _ => s

def push (s : JsonState) (f : Frame) : JsonState := { s with stack := f :: s.stack }

def startValue (s : JsonState) (b : UInt8) : Bool × JsonState :=
  if b = 0x7B then (true, s.push (.object true false false false))
  else if b = 0x5B then (true, s.push (.array true false))
  else if b = 0x22 then (true, s.push (.string false 0 false))
  else if b = 0x74 then (true, s.push (.literal [0x72, 0x75, 0x65]))
  else if b = 0x66 then (true, s.push (.literal [0x61, 0x6C, 0x73, 0x65]))
  else if b = 0x6E then (true, s.push (.literal [0x75, 0x6C, 0x6C]))
  else if b = 0x2D ∨ isDigit b = true then (true, s.push (.number (.opened b)))
  else s.reject

def feedTopLevelByte (s : JsonState) (b : UInt8) : Bool × JsonState :=
  if s.finished then s.reject else s.startValue b

def feedStringByte (s : JsonState) (b : UInt8) : Bool × JsonState :=
  match s.stack with
  | .string escape unicodeRemaining isKey :: parents =>
    if 0 < unicodeRemaining then
      if isHexDigit b then
        (true, { s with stack := .string escape (unicodeRemaining - 1) isKey :: parents })
      else s.reject
    else if escape then
      if isEscape b then (true, { s with stack := .string false unicodeRemaining isKey :: parents })
      else if b = 0x75 then (true, { s with stack := .string false 4 isKey :: parents })
      else reject { s with stack := .string false unicodeRemaining isKey :: parents }
    else if b = 0x5C then (true, { s with stack := .string true unicodeRemaining isKey :: parents })
    else if b = 0x22 then
      if isKey then
        -- After a key string, expect `:`.
        match parents with
        | .object _ _ value comma :: rest =>
          (true, { s with stack := .object false true value comma :: rest })
        | _ => (true, { s with stack := parents })
      else (true, foldAfterValue { s with stack := parents })
    else if b < 0x20 then s.reject
    else (true, s)
  | _ => s.reject

def feedLiteralByte (s : JsonState) (b : UInt8) : Bool × JsonState :=
  match s.stack with
  | .literal (e :: expected) :: parents =>
    if e ≠ b then s.reject
    else if expected.isEmpty then (true, foldAfterValue { s with stack := parents })
    else (true, { s with stack := .literal expected :: parents })
  | _ => s.reject

def feedObjectByte (s : JsonState) (b : UInt8) : Bool × JsonState :=
  match s.stack with
  | .object true colon value comma :: parents =>
    if b = 0x22 then
      (true, { s with stack := .string false 0 true :: .object false colon value comma :: parents })
    else if b = 0x7D then (true, foldAfterValue { s with stack := parents })
    else s.reject
  | .object false true value comma :: parents =>
    if b = 0x3A then (true, { s with stack := .object false false true comma :: parents })
    else s.reject
  | .object false false true _ :: parents =>
    startValue { s with stack := .object false false false true :: parents } b
  | .object false false false true :: parents =>
    if b = 0x2C then (true, { s with stack := .object true false false false :: parents })
    else if b = 0x7D then (true, foldAfterValue { s with stack := parents })
    else s.reject
  | _ => s.reject

def feedArrayByte (s : JsonState) (b : UInt8) : Bool × JsonState :=
  match s.stack with
  | .array true _ :: parents =>
    if b = 0x5D then (true, foldAfterValue { s with stack := parents })
    else startValue { s with stack := .array false true :: parents } b
  | .array false true :: parents =>
    if b = 0x2C then (true, { s with stack := .array true false :: parents })
    else if b = 0x5D then (true, foldAfterValue { s with stack := parents })
    else s.reject
  | _ => s.reject

@[simp] theorem foldAfterValue_length (s : JsonState) :
    s.foldAfterValue.stack.length = s.stack.length := by
  unfold foldAfterValue
  split <;> simp_all

mutual

/-- Feed one byte: whether it was accepted, and the state after it. -/
def feed (s : JsonState) (b : UInt8) : Bool × JsonState :=
  if s.invalid then (false, s)
  else if isWs b then
    match s.stack with
    | .number f :: parents =>
      -- Inside a number literal whitespace ends it.
      if !f.seenDigit then s.reject
      else (true, foldAfterValue { s with stack := parents })
    | _ => (true, s)
  else
    match s.stack with
    | .string .. :: _ => s.feedStringByte b
    | .number _ :: _ => feedNumberByte s b
    | .literal _ :: _ => s.feedLiteralByte b
    | .object .. :: _ => s.feedObjectByte b
    | .array .. :: _ => s.feedArrayByte b
    | [] => s.feedTopLevelByte b
termination_by 2 * s.stack.length + 1

def feedNumberByte (s : JsonState) (b : UInt8) : Bool × JsonState :=
  match h : s.stack with
  | .number f :: parents =>
    match f.accept false b with
    | some f' => (true, { s with stack := .number f' :: parents })
    | none =>
      if !f.closable then s.reject
      -- Re-feed the byte at the parent frame.
      else feed (foldAfterValue { s with stack := parents }) b
  | _ => s.reject
termination_by 2 * s.stack.length
decreasing_by
  simp [h]
  omega

end

theorem feedNumberByte_eq (f : NumFlags) (parents : List Frame) (finished invalid : Bool)
    (b : UInt8) :
    feedNumberByte ⟨.number f :: parents, finished, invalid⟩ b =
      match f.accept false b with
      | some f' => (true, ⟨.number f' :: parents, finished, invalid⟩)
      | none =>
        if !f.closable then reject ⟨.number f :: parents, finished, invalid⟩
        else feed (foldAfterValue ⟨parents, finished, invalid⟩) b := by
  rw [feedNumberByte]

/-- Apply a slice of bytes: whether all were accepted, and the state reached. -/
def feedSlice (s : JsonState) : Bytes → Bool × JsonState
  | [] => (true, s)
  | b :: bytes =>
    match s.feed b with
    | (true, s') => s'.feedSlice bytes
    | (false, s') => (false, s')

/-- Close a trailing open number frame at the end of the input. -/
def finalizeAtEos (s : JsonState) : JsonState :=
  if s.invalid then s
  else
    match s.stack with
    | .number f :: parents =>
      if !f.closable then { s with invalid := true }
      else foldAfterValue { s with stack := parents }
    | _ => s

/-- Every byte is accepted and the state is complete at the end of the input. -/
def Accepts (s : JsonState) (w : Bytes) : Prop :=
  (s.feedSlice w).1 = true ∧ (s.feedSlice w).2.finalizeAtEos.isComplete = true

instance (s : JsonState) (w : Bytes) : Decidable (s.Accepts w) :=
  inferInstanceAs (Decidable (_ ∧ _))

end JsonState
end Flambeau.Runtime
