import Flambeau.Server.ToolCallParser.Serde
import Flambeau.Stream.Residual

namespace Flambeau.Server.ToolCallParser
open Flambeau.Stream.Machine Flambeau.Runtime.JsonSchema

/-- A call as a client reads it: its name and the object of its arguments. -/
structure CallObject where
  name : Text
  arguments : List (Name × Value)

/-- Calls as they come out, from an index on: the name, arguments that read as the object, and the
close. -/
inductive Opened (serde : SerdeJson) : Nat → List CallObject → List ParserEvent → Prop
  | none : Opened serde i [] []
  | call (hjson : serde.fromStr json = some (.object c.arguments)) (hrest : Opened serde (i + 1) cs es) :
      Opened serde i (c :: cs) (.toolCallOpen i c.name :: .toolCallArgumentsDelta i json :: .toolCallClose i :: es)

/-- The events of calls, their arguments as `serde_json` writes them. -/
def callEvents (serde : SerdeJson) (index : Nat) : List CallObject → List ParserEvent
  | [] => []
  | c :: calls =>
    .toolCallOpen index c.name :: .toolCallArgumentsDelta index (serde.toStringOr (.object c.arguments)) ::
      .toolCallClose index :: callEvents serde (index + 1) calls

/-- `serde_json` reads back what it writes. -/
def Reads (serde : SerdeJson) (v : Value) : Prop := ∃ json, serde.toString v = some json ∧ serde.fromStr json = some v

theorem callEvents_opened {serde : SerdeJson} {calls : List CallObject}
    (h : ∀ c ∈ calls, Reads serde (.object c.arguments)) (i : Nat) : Opened serde i calls (callEvents serde i calls) := by
  induction calls generalizing i with
  | nil => exact .none
  | cons c calls ih =>
    obtain ⟨json, hto, hfrom⟩ := h c List.mem_cons_self
    have hargs : serde.toStringOr (.object c.arguments) = json := by
      rw [SerdeJson.toStringOr, hto]
      rfl
    rw [callEvents, hargs]
    exact .call hfrom (ih (fun c hc => h c (List.mem_cons_of_mem _ hc)) (i + 1))

/-- An event of a call, not text. -/
def ParserEvent.isCall : ParserEvent → Bool
  | .toolCallOpen .. | .toolCallArgumentsDelta .. | .toolCallClose _ => true
  | _ => false

def callsOf (es : List ParserEvent) : List ParserEvent := es.filter ParserEvent.isCall

theorem callsOf_append (es fs : List ParserEvent) : callsOf (es ++ fs) = callsOf es ++ callsOf fs := List.filter_append ..

theorem callsOf_text (s : Text) : callsOf (emitText s) = [] := by
  unfold emitText
  split <;> rfl

/-- White space and nothing else. -/
def Blank (s : Text) : Prop := ∀ c ∈ s, isWhitespace c = true

theorem Blank.free (h : Blank s) {c : Char} (hc : isWhitespace c = false) : c ∉ s := fun hmem =>
  Bool.false_ne_true (hc.symm.trans (h c hmem))

theorem Blank.drop (h : Blank s) (n : Nat) : Blank (s.drop n) := fun c hc => h c (List.mem_of_mem_drop hc)

theorem Blank.take (h : Blank s) (n : Nat) : Blank (s.take n) := fun c hc => h c (List.mem_of_mem_take hc)

/-- Text that is no more than white space. -/
def ParserEvent.isBlank : ParserEvent → Bool
  | .textDelta s => s.all isWhitespace
  | _ => false

/-- What a client sees besides white space. -/
def visible (es : List ParserEvent) : List ParserEvent := es.filter fun e => !e.isBlank

theorem visible_append (es fs : List ParserEvent) : visible (es ++ fs) = visible es ++ visible fs := List.filter_append ..

theorem visible_blank (h : Blank s) : visible (emitText s) = [] := by
  have hall : s.all isWhitespace = true := List.all_eq_true.mpr h
  unfold emitText
  split
  · rfl
  · rw [visible, List.filter_cons, ParserEvent.isBlank, hall]
    rfl

end Flambeau.Server.ToolCallParser
