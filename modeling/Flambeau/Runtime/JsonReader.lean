import Flambeau.Json.Automaton
import Flambeau.Runtime.JsonGrammar
import Flambeau.Runtime.NumberTokens
import Flambeau.Runtime.StringTokens

namespace Flambeau.Runtime.JsonReader
open Flambeau.Json Flambeau.Runtime.JsonGrammar

inductive Tok where
  | str (escape : Bool) (unicodeRemaining : Nat)
  | num (flags : NumFlags)
  | lit (e : UInt8) (expected : Bytes)
deriving DecidableEq

/-- Whitespace never reaches the string handler. -/
def strByte (escape : Bool) (u : Nat) (b : UInt8) : StrStep :=
  if isWs b then .stay escape u else charByte escape u b

def start (b : UInt8) : Option (Opening Unit Unit Tok) :=
  if b = 0x7B then some (.obj ())
  else if b = 0x5B then some (.arr ())
  else if b = 0x22 then some (.tok (.str false 0))
  else if b = 0x74 then some (.tok (.lit 0x72 [0x75, 0x65]))
  else if b = 0x66 then some (.tok (.lit 0x61 [0x6C, 0x73, 0x65]))
  else if b = 0x6E then some (.tok (.lit 0x75 [0x6C, 0x6C]))
  else if b = 0x2D ∨ isDigit b = true then some (.tok (.num (.opened b)))
  else none

def tokStep : Tok → UInt8 → TokStep Tok
  | .str escape u, b =>
    match strByte escape u b with
    | .stay escape' u' => .stay (.str escape' u')
    | .close => .last
    | .fail => .fail
  | .num f, b => ((numbers false).step f b).map .num
  | .lit e expected, b =>
    if isWs b then .stay (.lit e expected)
    else if e ≠ b then .fail
    else
      match expected with
      | [] => .last
      | e' :: expected => .stay (.lit e' expected)

def toks : Tokens Tok where
  step := tokStep
  eos
    | .num f => (numbers false).eos f
    | _ => false

/-- `JsonState` without its flags. -/
def reader : Reader Unit Unit Tok (Bool × Nat) where
  start _ := start
  tok := toks
  openKey _ := (false, 0)
  key k b :=
    match strByte k.1 k.2 b with
    | .stay escape u => .stay (escape, u)
    | .close => .done () ()
    | .fail => .fail
  close _ := true
  comma _ := true
  trailing := true

/-- The frame a container leaves on the stack while its child is open. -/
def frame : Ctx Unit Unit → Frame
  | .obj _ => .object false false false true
  | .arr _ => .array false true

def frames (cs : List (Ctx Unit Unit)) : List Frame := cs.map frame

def tokFrame : Tok → Frame
  | .str escape u => .string escape u false
  | .num f => .number f
  | .lit e expected => .literal (e :: expected)

/-- The states a fresh `JsonState` can reach, by mode. -/
inductive Rep : Mode Unit Unit Tok (Bool × Nat) → JsonState → Prop where
  | root : Rep (.value () []) .new
  | memberValue : Rep (.value () (.obj () :: cs))
      ⟨.object false false true false :: frames cs, false, false⟩
  | after : Rep (.after cs) ⟨frames cs, cs.isEmpty, false⟩
  | member : Rep (.member true () cs) ⟨.object true false false false :: frames cs, false, false⟩
  | key : Rep (.key (escape, u) cs)
      ⟨.string escape u true :: .object false false false false :: frames cs, false, false⟩
  | colon : Rep (.colon () () cs) ⟨.object false true false false :: frames cs, false, false⟩
  | item : Rep (.item true () cs) ⟨.array true false :: frames cs, false, false⟩
  | tok (t : Tok) : Rep (.tok t cs) ⟨tokFrame t :: frames cs, false, false⟩

/-- The byte is accepted exactly when the reader steps, into a state of the
mode stepped to. -/
def Agrees (r : Bool × JsonState) : Option (Mode Unit Unit Tok (Bool × Nat)) → Prop
  | some m => r.1 = true ∧ Rep m r.2
  | none => r.1 = false

theorem fold_frames (cs : List (Ctx Unit Unit)) :
    Rep (.after cs) (JsonState.foldAfterValue ⟨frames cs, false, false⟩) := by
  cases cs with
  | nil => exact .after
  | cons c cs => cases c <;> exact .after

theorem startValue_agrees (cs : List (Ctx Unit Unit)) (b : UInt8) :
    Agrees (JsonState.startValue ⟨frames cs, false, false⟩ b)
      ((start b).map (Reader.opened cs)) := by
  unfold JsonState.startValue start
  split
  · exact ⟨rfl, .member⟩
  split
  · exact ⟨rfl, .item⟩
  split
  · exact ⟨rfl, .tok (.str false 0)⟩
  split
  · exact ⟨rfl, .tok (.lit 0x72 [0x75, 0x65])⟩
  split
  · exact ⟨rfl, .tok (.lit 0x61 [0x6C, 0x73, 0x65])⟩
  split
  · exact ⟨rfl, .tok (.lit 0x75 [0x6C, 0x6C])⟩
  split
  · exact ⟨rfl, .tok (.num (.opened b))⟩
  · rfl

theorem feed_after (cs : List (Ctx Unit Unit)) (b : UInt8) :
    Agrees (JsonState.feed ⟨frames cs, cs.isEmpty, false⟩ b) (reader.afterAny cs b) := by
  rw [JsonState.feed]
  unfold Reader.afterAny
  cases hb : isWs b with
  | true =>
    cases cs with
    | nil => exact ⟨rfl, .after⟩
    | cons c cs => cases c <;> exact ⟨rfl, .after⟩
  | false =>
    cases cs with
    | nil => rfl
    | cons c cs =>
      cases c with
      | obj o =>
        simp only [frames, List.map_cons, frame, Bool.false_eq_true, if_false,
          JsonState.feedObjectByte, Reader.afterStep, reader, if_true]
        split
        · exact ⟨rfl, .member⟩
        split
        · exact ⟨rfl, fold_frames cs⟩
        · rfl
      | arr v =>
        simp only [frames, List.map_cons, frame, Bool.false_eq_true, if_false,
          JsonState.feedArrayByte, Reader.afterStep, reader]
        split
        · exact ⟨rfl, .item⟩
        split
        · exact ⟨rfl, fold_frames cs⟩
        · rfl

/-- A string frame, key or value, does what `strByte` says. -/
theorem feed_string (escape : Bool) (u : Nat) (isKey : Bool) (parents : List Frame) (b : UInt8) :
    match strByte escape u b with
    | .stay escape' u' => JsonState.feed ⟨.string escape u isKey :: parents, false, false⟩ b =
        (true, ⟨.string escape' u' isKey :: parents, false, false⟩)
    | .close => escape = false ∧ u = 0 ∧ b = 0x22
    | .fail => (JsonState.feed ⟨.string escape u isKey :: parents, false, false⟩ b).1 = false := by
  rw [JsonState.feed]
  unfold strByte charByte
  cases hb : isWs b with
  | true => rfl
  | false =>
    simp only [Bool.false_eq_true, if_false, JsonState.feedStringByte]
    by_cases hu : 0 < u
    · simp only [if_pos hu]
      cases isHexDigit b <;> rfl
    simp only [if_neg hu]
    cases escape with
    | true =>
      simp only [if_true]
      cases isEscape b with
      | true => rfl
      | false =>
        simp only [Bool.false_eq_true, if_false]
        by_cases h : b = 0x75
        · simp only [if_pos h]
        · simp only [if_neg h]
          rfl
    | false =>
      simp only [Bool.false_eq_true, if_false]
      by_cases hs : b = 0x5C
      · simp only [if_pos hs]
      simp only [if_neg hs]
      by_cases hq : b = 0x22
      · simp only [if_pos hq]
        exact ⟨trivial, by omega, hq⟩
      simp only [if_neg hq]
      by_cases hlt : b < 0x20
      · simp only [if_pos hlt]
        rfl
      · simp only [if_neg hlt]

theorem feed_key (escape : Bool) (u : Nat) (cs : List (Ctx Unit Unit)) (b : UInt8) :
    Agrees (JsonState.feed
        ⟨.string escape u true :: .object false false false false :: frames cs, false, false⟩ b)
      (reader.keyStep (escape, u) cs b) := by
  have h := feed_string escape u true (.object false false false false :: frames cs) b
  cases hs : strByte escape u b with
  | stay escape' u' =>
    rw [hs] at h
    simp only [Reader.keyStep, reader, hs]
    rw [h]
    exact ⟨rfl, .key⟩
  | close =>
    rw [hs] at h
    obtain ⟨rfl, rfl, rfl⟩ := h
    rw [JsonState.feed]
    exact ⟨rfl, .colon⟩
  | fail =>
    rw [hs] at h
    simp only [Reader.keyStep, reader, hs]
    exact h

theorem feed_str (escape : Bool) (u : Nat) (cs : List (Ctx Unit Unit)) (b : UInt8) :
    Agrees (JsonState.feed ⟨.string escape u false :: frames cs, false, false⟩ b)
      (reader.tokStep (.str escape u) cs b) := by
  have h := feed_string escape u false (frames cs) b
  cases hs : strByte escape u b with
  | stay escape' u' =>
    rw [hs] at h
    simp only [Reader.tokStep, reader, toks, tokStep, hs]
    rw [h]
    exact ⟨rfl, .tok (.str escape' u')⟩
  | close =>
    rw [hs] at h
    obtain ⟨rfl, rfl, rfl⟩ := h
    rw [JsonState.feed]
    exact ⟨rfl, fold_frames cs⟩
  | fail =>
    rw [hs] at h
    simp only [Reader.tokStep, reader, toks, tokStep, hs]
    exact h

theorem feed_num (f : NumFlags) (cs : List (Ctx Unit Unit)) (b : UInt8) :
    Agrees (JsonState.feed ⟨.number f :: frames cs, false, false⟩ b)
      (reader.tokStep (.num f) cs b) := by
  have htok : reader.tok.step (.num f) b = ((numbers false).step f b).map .num := rfl
  rw [JsonState.feed, Reader.tokStep, htok]
  cases hb : isWs b with
  | true =>
    simp only [Bool.false_eq_true, if_false, if_true, numbers, hb]
    cases f.seenDigit with
    | false => rfl
    | true =>
      simp only [Bool.not_true, Bool.false_eq_true, if_false, if_true, TokStep.map,
        Reader.afterAny, hb]
      exact ⟨rfl, fold_frames cs⟩
  | false =>
    simp only [Bool.false_eq_true, if_false, numbers, hb]
    rw [JsonState.feedNumberByte_eq]
    cases f.accept false b with
    | some f' => exact ⟨rfl, .tok (.num f')⟩
    | none =>
      cases f.closable with
      | false => rfl
      | true =>
        have hfold : JsonState.foldAfterValue ⟨frames cs, false, false⟩ =
            ⟨frames cs, cs.isEmpty, false⟩ := by
          cases cs with
          | nil => rfl
          | cons c cs => cases c <;> rfl
        simp only [Bool.not_true, Bool.false_eq_true, if_false, if_true, TokStep.map]
        rw [hfold]
        exact feed_after cs b

theorem feed_lit (e : UInt8) (expected : Bytes) (cs : List (Ctx Unit Unit)) (b : UInt8) :
    Agrees (JsonState.feed ⟨.literal (e :: expected) :: frames cs, false, false⟩ b)
      (reader.tokStep (.lit e expected) cs b) := by
  rw [JsonState.feed]
  cases hb : isWs b with
  | true =>
    simp only [Reader.tokStep, reader, toks, tokStep, hb]
    exact ⟨rfl, .tok (.lit e expected)⟩
  | false =>
    simp only [Bool.false_eq_true, if_false, Reader.tokStep, reader, toks, tokStep, hb,
      JsonState.feedLiteralByte]
    by_cases he : e ≠ b
    · simp only [if_pos he]
      rfl
    simp only [if_neg he]
    cases expected with
    | nil => exact ⟨rfl, fold_frames cs⟩
    | cons e' expected => exact ⟨rfl, .tok (.lit e' expected)⟩

/-- The flag-encoded machine does what the reader does. -/
theorem feed_agrees (h : Rep m s) (b : UInt8) : Agrees (s.feed b) (reader.step m b) := by
  cases h with
  | after => exact feed_after _ b
  | key => exact feed_key _ _ _ b
  | tok t =>
    cases t with
    | str escape u => exact feed_str escape u _ b
    | num f => exact feed_num f _ b
    | lit e expected => exact feed_lit e expected _ b
  | root =>
    rw [JsonState.feed]
    cases hb : isWs b with
    | true =>
      simp only [Reader.step, hb]
      exact ⟨rfl, .root⟩
    | false =>
      simp only [JsonState.new, Bool.false_eq_true, if_false, Reader.step, hb,
        JsonState.feedTopLevelByte]
      exact startValue_agrees [] b
  | @memberValue cs =>
    rw [JsonState.feed]
    cases hb : isWs b with
    | true =>
      simp only [Reader.step, hb]
      exact ⟨rfl, .memberValue⟩
    | false =>
      simp only [Bool.false_eq_true, if_false, Reader.step, hb, JsonState.feedObjectByte]
      exact startValue_agrees (.obj () :: cs) b
  | @member cs =>
    rw [JsonState.feed]
    cases hb : isWs b with
    | true =>
      simp only [Reader.step, hb]
      exact ⟨rfl, .member⟩
    | false =>
      simp only [Bool.false_eq_true, if_false, Reader.step, hb, JsonState.feedObjectByte]
      by_cases hq : b = 0x22
      · simp only [if_pos hq]
        exact ⟨rfl, .key⟩
      simp only [if_neg hq]
      by_cases hc : b = 0x7D
      · simp only [if_pos hc, and_true]
        exact ⟨rfl, fold_frames cs⟩
      · simp only [if_neg hc, and_true]
        rfl
  | colon =>
    rw [JsonState.feed]
    cases hb : isWs b with
    | true =>
      simp only [Reader.step, hb]
      exact ⟨rfl, .colon⟩
    | false =>
      simp only [Bool.false_eq_true, if_false, Reader.step, hb, JsonState.feedObjectByte]
      by_cases hc : b = 0x3A
      · simp only [if_pos hc]
        exact ⟨rfl, .memberValue⟩
      · simp only [if_neg hc]
        rfl
  | @item cs =>
    rw [JsonState.feed]
    cases hb : isWs b with
    | true =>
      simp only [Reader.step, hb]
      exact ⟨rfl, .item⟩
    | false =>
      simp only [Bool.false_eq_true, if_false, Reader.step, hb, JsonState.feedArrayByte, and_true]
      by_cases hc : b = 0x5D
      · simp only [if_pos hc]
        exact ⟨rfl, fold_frames cs⟩
      · simp only [if_neg hc]
        exact startValue_agrees (.arr () :: cs) b

theorem finalize_accepting (h : Rep m s) :
    s.finalizeAtEos.isComplete = reader.accepting m := by
  cases h with
  | @after cs =>
    cases cs with
    | nil => rfl
    | cons c cs => cases c <;> rfl
  | @tok cs t =>
    cases t with
    | num f =>
      simp only [tokFrame, JsonState.finalizeAtEos, Bool.false_eq_true, if_false]
      cases hc : f.closable with
      | false => cases cs <;> simp [Reader.accepting, reader, toks, numbers, JsonState.isComplete, hc]
      | true =>
        cases cs with
        | nil => simp [Reader.accepting, reader, toks, numbers, JsonState.isComplete, frames, hc,
          JsonState.foldAfterValue]
        | cons c cs => cases c <;> rfl
    | _ => cases cs <;> rfl
  | _ => rfl

/-- `JsonState` accepts exactly what the reader takes. -/
theorem accepts_iff_acc (h : Rep m s) (w : Bytes) : s.Accepts w ↔ reader.Acc m w := by
  induction w generalizing m s with
  | nil =>
    simp only [JsonState.Accepts, JsonState.feedSlice, Reader.Ends, Reader.run, true_and,
      Option.some.injEq, exists_eq_left', finalize_accepting h]
  | cons b w ih =>
    have hb := feed_agrees h b
    cases hs : reader.step m b with
    | none =>
      rw [hs] at hb
      have hfalse : (s.feed b).1 = false := hb
      have hfeed : s.feed b = (false, (s.feed b).2) := Prod.ext hfalse rfl
      constructor
      · rintro ⟨hok, -⟩
        rw [JsonState.feedSlice, hfeed] at hok
        cases hok
      · rintro ⟨m', hrun, -⟩
        simp [Reader.run, hs] at hrun
    | some m' =>
      rw [hs] at hb
      obtain ⟨htrue, hrep⟩ := hb
      have hfeed : s.feed b = (true, (s.feed b).2) := Prod.ext htrue rfl
      have hcons : s.Accepts (b :: w) ↔ (s.feed b).2.Accepts w := by
        rw [JsonState.Accepts, JsonState.feedSlice, hfeed]
        rfl
      rw [hcons, ih hrep]
      exact (Reader.ends_cons hs).symm

end Flambeau.Runtime.JsonReader
