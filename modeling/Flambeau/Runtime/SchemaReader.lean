import Flambeau.Runtime.JsonSchema
import Flambeau.Runtime.NumberTokens
import Flambeau.Runtime.StringTokens

namespace Flambeau.Runtime.SchemaReader
open Flambeau.Json Flambeau.Runtime.JsonSchema

inductive Tok where
  | enum (candidates : List Literal) (pos : Nat)
  | str (k : Bool × Nat)
  | num (integer : Bool) (flags : NumFlags)
  | lit (expected : Bytes)

/-- The literals left and the bytes of them matched. -/
def enumTokens : Tokens (List Literal × Nat) where
  step k b :=
    let candidates := SchemaState.alive k.1 k.2 b
    if candidates.isEmpty then .fail
    else if candidates.any (fun c => c.bytes.length == k.2 + 1) &&
        candidates.all (fun c => c.bytes.length == k.2 + 1) then .last
    else .stay (candidates, k.2 + 1)
  eos k := k.1.any fun c => c.bytes.length == k.2

def litTokens : Tokens Bytes where
  step expected b :=
    match expected with
    | [] => .fail
    | e :: expected => if e ≠ b then .fail else if expected.isEmpty then .last else .stay expected
  eos _ := false

def toks : Tokens Tok where
  step
    | .enum candidates pos, b => (enumTokens.step (candidates, pos) b).map fun k => .enum k.1 k.2
    | .str k, b => (strings.step k b).map .str
    | .num integer f, b => ((numbers integer).step f b).map (.num integer)
    | .lit expected, b => (litTokens.step expected b).map .lit
  eos
    | .enum candidates pos => enumTokens.eos (candidates, pos)
    | .str k => strings.eos k
    | .num integer f => (numbers integer).eos f
    | .lit expected => litTokens.eos expected

abbrev Open := Opening Node ObjectFrame Tok

def openNumber (integer : Bool) (b : UInt8) : Option Open :=
  if b ≠ 0x2D ∧ isDigit b = false then none else some (.tok (.num integer (.opened b)))

def startAny (b : UInt8) : Option Open :=
  if b = 0x7B then some (.obj anyFrame)
  else if b = 0x5B then some (.arr .any)
  else if b = 0x22 then some (.tok (.str (false, 0)))
  else if b = 0x74 then some (.tok (.lit [0x72, 0x75, 0x65]))
  else if b = 0x66 then some (.tok (.lit [0x61, 0x6C, 0x73, 0x65]))
  else if b = 0x6E then some (.tok (.lit [0x75, 0x6C, 0x6C]))
  else if b = 0x2D ∨ isDigit b = true then openNumber false b
  else none

def start : Node → UInt8 → Option Open
  | .enum candidates, b =>
    match enumTokens.step (candidates, 0) b with
    | .stay k => some (.tok (.enum k.1 k.2))
    | .last => some .done
    | _ => none
  | .object properties required additional, b =>
    if b ≠ 0x7B then none else some (.obj ⟨properties, required, additional, [], []⟩)
  | .array items, b => if b ≠ 0x5B then none else some (.arr items)
  | .str, b => if b ≠ 0x22 then none else some (.tok (.str (false, 0)))
  | .bool, b =>
    if b = 0x74 then some (.tok (.lit [0x72, 0x75, 0x65]))
    else if b = 0x66 then some (.tok (.lit [0x61, 0x6C, 0x73, 0x65]))
    else none
  | .null, b => if b = 0x6E then some (.tok (.lit [0x75, 0x6C, 0x6C])) else none
  | .int, b => openNumber true b
  | .num, b => openNumber false b
  | .any, b => startAny b

/-- A byte of an open key; whitespace is dropped. -/
def keyByte (o : ObjectFrame) (b : UInt8) : KeyStep Node ObjectFrame ObjectFrame :=
  if isWs b then .stay o
  else if b = 0x22 then
    if !o.allows o.pendingKey then .fail
    else
      .done { o with seen := o.pendingKey :: o.seen }
        (ObjectFrame.valueNode { o with seen := o.pendingKey :: o.seen })
  else if b = 0x5C ∨ b < 0x20 then .fail
  else if !(o.additional || o.leadsTo (o.pendingKey ++ [byteChar b])) then .fail
  else .stay { o with pendingKey := o.pendingKey ++ [byteChar b] }

/-- `SchemaState` without its stages. -/
def reader : Reader Node ObjectFrame Tok ObjectFrame where
  start := start
  tok := toks
  openKey o := { o with pendingKey := [] }
  key := keyByte
  close o := o.complete
  comma o := o.canAdd
  trailing := false

abbrev SchemaMode := Mode Node ObjectFrame Tok ObjectFrame
abbrev SchemaCtx := Ctx Node ObjectFrame

def frame : SchemaCtx → Frame
  | .obj o => .object o .expectCommaOrClose
  | .arr items => .array items .expectCommaOrClose

def frames (cs : List SchemaCtx) : List Frame := cs.map frame

def tokFrame : Tok → Frame
  | .enum candidates pos => .enum candidates pos
  | .str k => .str k.1 k.2
  | .num integer f => .num integer f
  | .lit expected => .literal expected

/-- The states a fresh `SchemaState` for `root` can reach, by mode. -/
inductive Rep (root : Node) : SchemaMode → SchemaState → Prop where
  | root (started : Bool) : Rep root (.value root []) ⟨root, [], started, false, false⟩
  | memberValue (started : Bool) : Rep root (.value o.valueNode (.obj o :: cs))
      ⟨root, .object o .expectValue :: frames cs, started, false, false⟩
  | after (started : Bool) : Rep root (.after cs) ⟨root, frames cs, started, cs.isEmpty, false⟩
  | member (started mayClose : Bool) : Rep root (.member mayClose o cs)
      ⟨root, .object o (if mayClose then .expectKeyOrClose else .expectKey) :: frames cs, started,
        false, false⟩
  | key (started : Bool) : Rep root (.key o cs)
      ⟨root, .object o .inKey :: frames cs, started, false, false⟩
  | colon (started : Bool) : Rep root (.colon o o.valueNode cs)
      ⟨root, .object o .expectColon :: frames cs, started, false, false⟩
  | item (started mayClose : Bool) : Rep root (.item mayClose items cs)
      ⟨root, .array items (if mayClose then .expectValueOrClose else .expectValue) :: frames cs,
        started, false, false⟩
  | tok (started : Bool) (t : Tok) : Rep root (.tok t cs)
      ⟨root, tokFrame t :: frames cs, started, false, false⟩

/-- The byte is accepted exactly when the reader steps, into a state of the
mode stepped to. -/
def Agrees (root : Node) (r : Bool × SchemaState) : Option SchemaMode → Prop
  | some m => r.1 = true ∧ Rep root m r.2
  | none => r.1 = false

variable {root : Node} {started : Bool}

theorem fold_frames (root : Node) (started : Bool) (cs : List SchemaCtx) :
    Rep root (.after cs) (SchemaState.foldAfterValue ⟨root, frames cs, started, false, false⟩) := by
  cases cs with
  | nil => exact .after started
  | cons c cs => cases c <;> exact .after started

theorem openNumber_agrees (root : Node) (started : Bool) (cs : List SchemaCtx) (b : UInt8)
    (integer : Bool) :
    Agrees root (SchemaState.openNumber ⟨root, frames cs, started, false, false⟩ b integer)
      ((openNumber integer b).map (Reader.opened cs)) := by
  unfold SchemaState.openNumber openNumber
  split
  · rfl
  · exact ⟨rfl, .tok started (.num integer (.opened b))⟩

theorem startAny_agrees (root : Node) (started : Bool) (cs : List SchemaCtx) (b : UInt8) :
    Agrees root (SchemaState.startAny ⟨root, frames cs, started, false, false⟩ b)
      ((startAny b).map (Reader.opened cs)) := by
  unfold SchemaState.startAny startAny
  split
  · exact ⟨rfl, .member true true⟩
  split
  · exact ⟨rfl, .item true true⟩
  split
  · rename_i hb
    subst hb
    exact ⟨rfl, .tok true (.str (false, 0))⟩
  split
  · exact ⟨rfl, .tok true (.lit [0x72, 0x75, 0x65])⟩
  split
  · exact ⟨rfl, .tok true (.lit [0x61, 0x6C, 0x73, 0x65])⟩
  split
  · exact ⟨rfl, .tok true (.lit [0x75, 0x6C, 0x6C])⟩
  split
  · exact openNumber_agrees root true cs b false
  · rfl

theorem startValue_agrees (root : Node) (started : Bool) (cs : List SchemaCtx) (b : UInt8)
    (node : Node) :
    Agrees root (SchemaState.startValue ⟨root, frames cs, started, false, false⟩ b node)
      ((start node b).map (Reader.opened cs)) := by
  cases node with
  | any => exact startAny_agrees root true cs b
  | int => exact openNumber_agrees root true cs b true
  | num => exact openNumber_agrees root true cs b false
  | str =>
    simp only [SchemaState.startValue, SchemaState.openString, start]
    by_cases hb : b ≠ 0x22
    · simp only [if_pos hb]
      rfl
    · simp only [if_neg hb]
      exact ⟨rfl, .tok true (.str (false, 0))⟩
  | bool =>
    simp only [SchemaState.startValue, start]
    by_cases ht : b = 0x74
    · simp only [if_pos ht]
      exact ⟨rfl, .tok true (.lit [0x72, 0x75, 0x65])⟩
    simp only [if_neg ht]
    by_cases hf : b = 0x66
    · simp only [if_pos hf]
      exact ⟨rfl, .tok true (.lit [0x61, 0x6C, 0x73, 0x65])⟩
    · simp only [if_neg hf]
      rfl
  | null =>
    simp only [SchemaState.startValue, start]
    by_cases hn : b = 0x6E
    · simp only [if_pos hn]
      exact ⟨rfl, .tok true (.lit [0x75, 0x6C, 0x6C])⟩
    · simp only [if_neg hn]
      rfl
  | object properties required additional =>
    simp only [SchemaState.startValue, start]
    by_cases hb : b ≠ 0x7B
    · simp only [if_pos hb]
      rfl
    · simp only [if_neg hb]
      exact ⟨rfl, .member true true⟩
  | array items =>
    simp only [SchemaState.startValue, start]
    by_cases hb : b ≠ 0x5B
    · simp only [if_pos hb]
      rfl
    · simp only [if_neg hb]
      exact ⟨rfl, .item true true⟩
  | enum candidates =>
    simp only [SchemaState.startValue, start, enumTokens, Nat.zero_add]
    by_cases hempty : (SchemaState.alive candidates 0 b).isEmpty = true
    · simp only [if_pos hempty]
      rfl
    simp only [if_neg hempty]
    by_cases hdone : ((SchemaState.alive candidates 0 b).any (fun c => c.bytes.length == 1) &&
        (SchemaState.alive candidates 0 b).all (fun c => c.bytes.length == 1)) = true
    · simp only [if_pos hdone]
      exact ⟨rfl, fold_frames root true cs⟩
    · simp only [if_neg hdone]
      exact ⟨rfl, .tok true (.enum (SchemaState.alive candidates 0 b) 1)⟩

theorem closeObject_agrees (root : Node) (started : Bool) (o : ObjectFrame) (stage : ObjStage)
    (cs : List SchemaCtx) :
    Agrees root
      (SchemaState.closeObject ⟨root, .object o stage :: frames cs, started, false, false⟩)
      (if o.complete then some (.after cs) else none) := by
  simp only [SchemaState.closeObject]
  cases o.complete with
  | true => exact ⟨rfl, fold_frames root started cs⟩
  | false => rfl

theorem feed_after (root : Node) (started : Bool) (cs : List SchemaCtx) (b : UInt8) :
    Agrees root (SchemaState.feed ⟨root, frames cs, started, cs.isEmpty, false⟩ b)
      (reader.afterAny cs b) := by
  rw [SchemaState.feed]
  unfold Reader.afterAny
  cases hb : isWs b with
  | true =>
    cases cs with
    | nil => exact ⟨rfl, .after started⟩
    | cons c cs => cases c <;> exact ⟨rfl, .after started⟩
  | false =>
    cases cs with
    | nil => rfl
    | cons c cs =>
      cases c with
      | obj o =>
        simp only [frames, List.map_cons, frame, Bool.false_eq_true, if_false,
          SchemaState.feedObject, Reader.afterStep, reader]
        by_cases hc : b = 0x2C
        · simp only [if_pos hc]
          by_cases hadd : o.canAdd = true
          · simp only [hadd, Bool.not_true, Bool.false_eq_true, if_false, if_true]
            exact ⟨rfl, .member started false⟩
          · simp only [Bool.eq_false_iff.mpr hadd, Bool.not_false, Bool.false_eq_true, if_true,
              if_false]
            rfl
        simp only [if_neg hc]
        by_cases hclose : b = 0x7D
        · simp only [if_pos hclose]
          exact closeObject_agrees root started o .expectCommaOrClose cs
        · simp only [if_neg hclose]
          rfl
      | arr v =>
        simp only [frames, List.map_cons, frame, Bool.false_eq_true, if_false,
          SchemaState.feedArray, Reader.afterStep, reader]
        by_cases hc : b = 0x2C
        · simp only [if_pos hc]
          exact ⟨rfl, .item started false⟩
        simp only [if_neg hc]
        by_cases hclose : b = 0x5D
        · simp only [if_pos hclose]
          exact ⟨rfl, fold_frames root started cs⟩
        · simp only [if_neg hclose]
          rfl

theorem feed_key (root : Node) (started : Bool) (o : ObjectFrame) (cs : List SchemaCtx) (b : UInt8) :
    Agrees root (SchemaState.feed ⟨root, .object o .inKey :: frames cs, started, false, false⟩ b)
      (reader.keyStep o cs b) := by
  rw [SchemaState.feed]
  simp only [Reader.keyStep, reader, keyByte, Bool.false_eq_true, if_false]
  cases hb : isWs b with
  | true => exact ⟨rfl, .key started⟩
  | false =>
    simp only [Bool.false_eq_true, if_false, SchemaState.feedObject]
    by_cases hq : b = 0x22
    · simp only [if_pos hq]
      cases o.allows o.pendingKey with
      | true => exact ⟨rfl, .colon started⟩
      | false => rfl
    simp only [if_neg hq]
    by_cases hs : b = 0x5C ∨ b < 0x20
    · simp only [if_pos hs]
      rfl
    simp only [if_neg hs]
    cases o.additional || o.leadsTo (o.pendingKey ++ [byteChar b]) with
    | true => exact ⟨rfl, .key started⟩
    | false => rfl

theorem feed_enum (root : Node) (started : Bool) (candidates : List Literal) (pos : Nat)
    (cs : List SchemaCtx) (b : UInt8) :
    Agrees root (SchemaState.feed ⟨root, .enum candidates pos :: frames cs, started, false, false⟩ b)
      (reader.tokStep (.enum candidates pos) cs b) := by
  rw [SchemaState.feed]
  simp only [Bool.false_eq_true, if_false, SchemaState.feedEnum, Reader.tokStep, reader, toks,
    enumTokens]
  by_cases hempty : (SchemaState.alive candidates pos b).isEmpty = true
  · simp only [if_pos hempty]
    rfl
  simp only [if_neg hempty]
  by_cases hdone : ((SchemaState.alive candidates pos b).any (fun c => c.bytes.length == pos + 1) &&
      (SchemaState.alive candidates pos b).all (fun c => c.bytes.length == pos + 1)) = true
  · simp only [if_pos hdone]
    exact ⟨rfl, fold_frames root started cs⟩
  · simp only [if_neg hdone]
    exact ⟨rfl, .tok started (.enum (SchemaState.alive candidates pos b) (pos + 1))⟩

theorem feedString_step (root : Node) (started : Bool) (escape : Bool) (u : Nat)
    (parents : List Frame) (b : UInt8) :
    match charByte escape u b with
    | .stay escape' u' =>
      SchemaState.feedString ⟨root, .str escape u :: parents, started, false, false⟩ b =
        (true, ⟨root, .str escape' u' :: parents, started, false, false⟩)
    | .close =>
      SchemaState.feedString ⟨root, .str escape u :: parents, started, false, false⟩ b =
        (true, SchemaState.foldAfterValue ⟨root, parents, started, false, false⟩)
    | .fail =>
      (SchemaState.feedString ⟨root, .str escape u :: parents, started, false, false⟩ b).1 =
        false := by
  unfold charByte
  simp only [SchemaState.feedString]
  by_cases hu : 0 < u
  · simp only [if_pos hu]
    cases isHexDigit b <;> rfl
  simp only [if_neg hu]
  cases escape with
  | true =>
    simp only [if_true]
    cases isEscape b with
    | true => rfl
    | false =>
      simp only [Bool.false_eq_true, if_false]
      by_cases h : b = 0x75
      · simp only [if_pos h]
      · simp only [if_neg h]
        rfl
  | false =>
    simp only [Bool.false_eq_true, if_false]
    by_cases hs : b = 0x5C
    · simp only [if_pos hs]
    simp only [if_neg hs]
    by_cases hq : b = 0x22
    · simp only [if_pos hq]
    simp only [if_neg hq]
    by_cases hlt : b < 0x20
    · simp only [if_pos hlt]
      rfl
    · simp only [if_neg hlt]

theorem feed_str (root : Node) (started : Bool) (k : Bool × Nat) (cs : List SchemaCtx) (b : UInt8) :
    Agrees root (SchemaState.feed ⟨root, .str k.1 k.2 :: frames cs, started, false, false⟩ b)
      (reader.tokStep (.str k) cs b) := by
  have htok : reader.tok.step (.str k) b = (strings.step k b).map .str := rfl
  have h := feedString_step root started k.1 k.2 (frames cs) b
  rw [SchemaState.feed, Reader.tokStep, htok]
  simp only [Bool.false_eq_true, if_false, strings]
  cases hs : charByte k.1 k.2 b with
  | stay escape' u' =>
    rw [hs] at h
    rw [h]
    exact ⟨rfl, .tok started (.str (escape', u'))⟩
  | close =>
    rw [hs] at h
    rw [h]
    exact ⟨rfl, fold_frames root started cs⟩
  | fail =>
    rw [hs] at h
    exact h

theorem feed_num (root : Node) (started : Bool) (integer : Bool) (f : NumFlags)
    (cs : List SchemaCtx) (b : UInt8) :
    Agrees root (SchemaState.feed ⟨root, .num integer f :: frames cs, started, false, false⟩ b)
      (reader.tokStep (.num integer f) cs b) := by
  have htok : reader.tok.step (.num integer f) b =
      ((numbers integer).step f b).map (.num integer) := rfl
  rw [SchemaState.feed, Reader.tokStep, htok]
  cases hb : isWs b with
  | true =>
    simp only [Bool.false_eq_true, if_false, if_true, numbers, hb]
    cases f.seenDigit with
    | false => rfl
    | true =>
      simp only [Bool.not_true, Bool.false_eq_true, if_false, if_true, TokStep.map,
        Reader.afterAny, hb]
      exact ⟨rfl, fold_frames root started cs⟩
  | false =>
    simp only [Bool.false_eq_true, if_false, numbers, hb]
    rw [SchemaState.feedNumber_eq]
    cases f.accept integer b with
    | some f' => exact ⟨rfl, .tok started (.num integer f')⟩
    | none =>
      cases f.closable with
      | false => rfl
      | true =>
        have hfold : SchemaState.foldAfterValue ⟨root, frames cs, started, false, false⟩ =
            ⟨root, frames cs, started, cs.isEmpty, false⟩ := by
          cases cs with
          | nil => rfl
          | cons c cs => cases c <;> rfl
        simp only [Bool.not_true, Bool.false_eq_true, if_false, if_true, TokStep.map]
        rw [hfold]
        exact feed_after root started cs b

theorem feed_lit (root : Node) (started : Bool) (expected : Bytes) (cs : List SchemaCtx) (b : UInt8) :
    Agrees root (SchemaState.feed ⟨root, .literal expected :: frames cs, started, false, false⟩ b)
      (reader.tokStep (.lit expected) cs b) := by
  have htok : reader.tok.step (.lit expected) b = (litTokens.step expected b).map .lit := rfl
  rw [SchemaState.feed, Reader.tokStep, htok]
  cases expected with
  | nil => rfl
  | cons e expected =>
    simp only [Bool.false_eq_true, if_false, litTokens, SchemaState.feedLiteral]
    by_cases he : e ≠ b
    · simp only [if_pos he]
      rfl
    simp only [if_neg he]
    cases expected with
    | nil => exact ⟨rfl, fold_frames root started cs⟩
    | cons e' expected => exact ⟨rfl, .tok started (.lit (e' :: expected))⟩

/-- The staged machine does what the reader does. -/
theorem feed_agrees (h : Rep root m s) (b : UInt8) : Agrees root (s.feed b) (reader.step m b) := by
  cases h with
  | after started => exact feed_after root started _ b
  | key started => exact feed_key root started _ _ b
  | tok started t =>
    cases t with
    | enum candidates pos => exact feed_enum root started candidates pos _ b
    | str k => exact feed_str root started k _ b
    | num integer f => exact feed_num root started integer f _ b
    | lit expected => exact feed_lit root started expected _ b
  | root started =>
    rw [SchemaState.feed]
    cases hb : isWs b with
    | true =>
      simp only [Reader.step, hb]
      exact ⟨rfl, .root started⟩
    | false =>
      simp only [Bool.false_eq_true, if_false, Reader.step, hb]
      exact startValue_agrees root started [] b root
  | @memberValue o cs started =>
    rw [SchemaState.feed]
    cases hb : isWs b with
    | true =>
      simp only [Reader.step, hb]
      exact ⟨rfl, .memberValue started⟩
    | false =>
      simp only [Bool.false_eq_true, if_false, Reader.step, hb, SchemaState.feedObject]
      exact startValue_agrees root started (.obj o :: cs) b o.valueNode
  | @member o cs started mayClose =>
    rw [SchemaState.feed]
    cases hb : isWs b with
    | true =>
      simp only [Reader.step, hb]
      exact ⟨rfl, .member started mayClose⟩
    | false =>
      simp only [Bool.false_eq_true, if_false, Reader.step, hb, SchemaState.feedObject]
      by_cases hq : b = 0x22
      · subst hq
        cases mayClose <;> exact ⟨rfl, .key started⟩
      · cases mayClose with
        | true =>
          simp only [if_true, if_neg hq, and_true]
          by_cases hc : b = 0x7D
          · simp only [if_pos hc]
            exact closeObject_agrees root started o .expectKeyOrClose cs
          · simp only [if_neg hc]
            rfl
        | false =>
          simp only [Bool.false_eq_true, if_false, if_neg hq, and_false]
          rfl
  | @colon o cs started =>
    rw [SchemaState.feed]
    cases hb : isWs b with
    | true =>
      simp only [Reader.step, hb]
      exact ⟨rfl, .colon started⟩
    | false =>
      simp only [Bool.false_eq_true, if_false, Reader.step, hb, SchemaState.feedObject]
      by_cases hc : b = 0x3A
      · simp only [if_pos hc]
        exact ⟨rfl, .memberValue started⟩
      · simp only [if_neg hc]
        rfl
  | @item items cs started mayClose =>
    rw [SchemaState.feed]
    cases hb : isWs b with
    | true =>
      simp only [Reader.step, hb]
      exact ⟨rfl, .item started mayClose⟩
    | false =>
      simp only [Bool.false_eq_true, if_false, Reader.step, hb, SchemaState.feedArray]
      cases mayClose with
      | true =>
        simp only [if_true, and_true]
        by_cases hc : b = 0x5D
        · simp only [if_pos hc]
          exact ⟨rfl, fold_frames root started cs⟩
        · simp only [if_neg hc]
          exact startValue_agrees root started (.arr items :: cs) b items
      | false =>
        simp only [Bool.false_eq_true, if_false, and_false]
        exact startValue_agrees root started (.arr items :: cs) b items

theorem finalize_accepting (h : Rep root m s) :
    s.finalizeAtEos.isComplete = reader.accepting m := by
  cases h with
  | @after cs started =>
    cases cs with
    | nil => rfl
    | cons c cs => cases c <;> rfl
  | @tok cs started t =>
    cases t with
    | num integer f =>
      simp only [tokFrame, SchemaState.finalizeAtEos, Bool.false_eq_true, if_false]
      cases hc : f.closable with
      | false => cases cs <;> simp [Reader.accepting, reader, toks, numbers, SchemaState.isComplete, hc]
      | true =>
        cases cs with
        | nil => simp [Reader.accepting, reader, toks, numbers, SchemaState.isComplete, frames, hc,
          SchemaState.foldAfterValue, SchemaState.settleEnum]
        | cons c cs => cases c <;> rfl
    | enum candidates pos =>
      simp only [tokFrame, SchemaState.finalizeAtEos, Bool.false_eq_true, if_false,
        SchemaState.settleEnum]
      cases hc : candidates.any (fun c => c.bytes.length == pos) with
      | false =>
        simp only [Bool.false_eq_true, if_false]
        cases cs with
        | nil => exact hc.symm
        | cons c cs => rfl
      | true =>
        simp only [if_true]
        cases cs with
        | nil => exact hc.symm
        | cons c cs => cases c <;> rfl
    | _ => cases cs <;> rfl
  | _ => rfl

/-- A slice is taken exactly when the reader runs over it, to a state of the
mode it runs to. -/
theorem run_agrees (h : Rep root m s) (w : Bytes) :
    match reader.run m w with
    | some m' => s.Takes w ∧ Rep root m' (s.feedSlice w).2
    | none => ¬ s.Takes w := by
  induction w generalizing m s with
  | nil => exact ⟨rfl, h⟩
  | cons b w ih =>
    have hb := feed_agrees h b
    cases hs : reader.step m b with
    | none =>
      rw [hs] at hb
      have hfalse : (s.feed b).1 = false := hb
      have hfeed : s.feed b = (false, (s.feed b).2) := Prod.ext hfalse rfl
      have hrun : reader.run m (b :: w) = none := by simp only [Reader.run, hs, Option.bind_none]
      rw [hrun]
      intro ht
      rw [SchemaState.Takes, SchemaState.feedSlice, hfeed] at ht
      cases ht
    | some m' =>
      rw [hs] at hb
      obtain ⟨htrue, hrep⟩ := hb
      have hfeed : s.feed b = (true, (s.feed b).2) := Prod.ext htrue rfl
      have hslice : s.feedSlice (b :: w) = (s.feed b).2.feedSlice w := by
        rw [SchemaState.feedSlice, hfeed]
      have hrun : reader.run m (b :: w) = reader.run m' w := by
        simp only [Reader.run, hs, Option.bind_some]
      rw [hrun, SchemaState.Takes, hslice]
      exact ih hrep

theorem takes_iff_run (h : Rep root m s) (w : Bytes) :
    s.Takes w ↔ ∃ m', reader.run m w = some m' := by
  have ha := run_agrees h w
  cases hrun : reader.run m w with
  | none =>
    rw [hrun] at ha
    exact ⟨fun ht => absurd ht ha, fun ⟨_, hm⟩ => by cases hm⟩
  | some m' =>
    rw [hrun] at ha
    exact ⟨fun _ => ⟨m', rfl⟩, fun _ => ha.1⟩

/-- `SchemaState` accepts exactly what the reader takes. -/
theorem accepts_iff_acc (h : Rep root m s) (w : Bytes) : s.Accepts w ↔ reader.Acc m w := by
  have ha := run_agrees h w
  constructor
  · rintro ⟨ht, hend⟩
    obtain ⟨m', hrun⟩ := (takes_iff_run h w).mp ht
    rw [hrun] at ha
    exact ⟨m', hrun, (finalize_accepting ha.2).symm.trans hend⟩
  · rintro ⟨m', hrun, hacc⟩
    rw [hrun] at ha
    exact ⟨ha.1, (finalize_accepting ha.2).trans hacc⟩

end Flambeau.Runtime.SchemaReader
