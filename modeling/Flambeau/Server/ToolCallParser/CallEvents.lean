import Flambeau.Json.Document
import Flambeau.Stream.Judgement
import Flambeau.Server.ToolCallParser.Events
import Flambeau.Server.ToolCallParser.Serde

namespace Flambeau.Server.ToolCallParser
open Flambeau.Stream Flambeau.Runtime.JsonSchema Flambeau.Json

/-- The text is a JSON text of an object. -/
def IsObjectText (s : Text) : Prop :=
  ∃ r : Reading rfc8259 () (s.flatMap String.utf8EncodeChar), ∃ members, r.doc = .obj members

theorem emptyObject_isObjectText : IsObjectText emptyObject :=
  ⟨⟨[], .obj (.close []), [], isWs_nil, .inr ⟨(), trivial, isWs_nil, rfl, trivial⟩, isWs_nil, by decide⟩, _, rfl⟩

/-- Where a stream stands: behind so many calls, behind an open, behind its arguments. -/
inductive Phase where
  | outside (calls : Nat)
  | opened (index : Nat)
  | answered (index : Nat)

/-- Events that lead from one phase to another. A call is its open, one delta of arguments
and its close, with nothing in between, and the calls are numbered in order. -/
inductive Leads (named valid : Text → Prop) : Phase → List ParserEvent → Phase → Prop where
  | nil : Leads named valid p [] p
  | text : Leads named valid (.outside n) es p → Leads named valid (.outside n) (.textDelta s :: es) p
  | think : Leads named valid (.outside n) es p → Leads named valid (.outside n) (.thinkDelta s :: es) p
  | opens : named name → Leads named valid (.opened n) es p →
      Leads named valid (.outside n) (.toolCallOpen n name :: es) p
  | arguments : valid args → Leads named valid (.answered n) es p →
      Leads named valid (.opened n) (.toolCallArgumentsDelta n args :: es) p
  | closes : Leads named valid (.outside (n + 1)) es p → Leads named valid (.answered n) (.toolCallClose n :: es) p

/-- A whole stream: every call that is opened is closed. -/
def WellFormed (named valid : Text → Prop) (es : List ParserEvent) : Prop :=
  ∃ n, Leads named valid (.outside 0) es (.outside n)

/-- Any name and any text of arguments. -/
abbrev AnyCalls : Phase → List ParserEvent → Phase → Prop := Leads (fun _ => True) (fun _ => True)

/-- Streams with an open and no close of it, or with a close of no open. -/
inductive Unclosed : List ParserEvent → Prop where
  | opened : AnyCalls (.outside 0) front (.opened n) → (∀ e ∈ rest, ∃ s, e = .textDelta s) →
      Unclosed (front ++ rest)
  | answered : AnyCalls (.outside 0) front (.answered n) → (∀ e ∈ rest, ∃ s, e = .textDelta s) →
      Unclosed (front ++ rest)
  | overclosed : AnyCalls (.outside 0) front (.outside n) → more ≠ [] →
      (∀ e ∈ more, ∃ i, e = .toolCallClose i) → (∀ e ∈ rest, ∃ s, e = .textDelta s) →
      Unclosed (front ++ more ++ rest)

variable {named valid : Text → Prop}

theorem Leads.append (h : Leads named valid p es q) (h' : Leads named valid q fs r) :
    Leads named valid p (es ++ fs) r := by
  induction h with
  | nil => exact h'
  | text _ ih => exact .text (ih h')
  | think _ ih => exact .think (ih h')
  | opens hname _ ih => exact .opens hname (ih h')
  | arguments hargs _ ih => exact .arguments hargs (ih h')
  | closes _ ih => exact .closes (ih h')

theorem Leads.split (h : Leads named valid p (es ++ fs) r) :
    ∃ q, Leads named valid p es q ∧ Leads named valid q fs r := by
  induction es generalizing p with
  | nil => exact ⟨p, .nil, h⟩
  | cons e es ih =>
    cases h with
    | text h =>
      obtain ⟨q, hfirst, hlast⟩ := ih h
      exact ⟨q, .text hfirst, hlast⟩
    | think h =>
      obtain ⟨q, hfirst, hlast⟩ := ih h
      exact ⟨q, .think hfirst, hlast⟩
    | opens hname h =>
      obtain ⟨q, hfirst, hlast⟩ := ih h
      exact ⟨q, .opens hname hfirst, hlast⟩
    | arguments hargs h =>
      obtain ⟨q, hfirst, hlast⟩ := ih h
      exact ⟨q, .arguments hargs hfirst, hlast⟩
    | closes h =>
      obtain ⟨q, hfirst, hlast⟩ := ih h
      exact ⟨q, .closes hfirst, hlast⟩

theorem Leads.unique (h : Leads named valid p es q) (h' : Leads named valid p es r) : q = r := by
  induction h with
  | nil =>
    cases h'
    rfl
  | text _ ih =>
    cases h' with
    | text h' => exact ih h'
  | think _ ih =>
    cases h' with
    | think h' => exact ih h'
  | opens _ _ ih =>
    cases h' with
    | opens _ h' => exact ih h'
  | arguments _ _ ih =>
    cases h' with
    | arguments _ h' => exact ih h'
  | closes _ ih =>
    cases h' with
    | closes h' => exact ih h'

theorem Leads.any (h : Leads named valid p es q) : AnyCalls p es q := by
  induction h with
  | nil => exact .nil
  | text _ ih => exact .text ih
  | think _ ih => exact .think ih
  | opens _ _ ih => exact .opens trivial ih
  | arguments _ _ ih => exact .arguments trivial ih
  | closes _ ih => exact .closes ih

theorem leads_reads (named valid : Text → Prop) : Machine.Reads (Leads named valid) :=
  ⟨.nil, .append, Leads.split, Leads.unique⟩

theorem leads_emitText (s : Text) : Leads named valid (.outside n) (emitText s) (.outside n) := by
  unfold emitText
  split
  · exact .nil
  · exact .text .nil

theorem emitText_texts (h : e ∈ emitText s) : ∃ s, e = .textDelta s := by
  unfold emitText at h
  split at h
  · cases h
  · exact ⟨_, List.mem_singleton.mp h⟩

theorem leads_emitThink (s : Text) : Leads named valid (.outside n) (emitThink s) (.outside n) := by
  unfold emitThink
  split
  · exact .nil
  · exact .think .nil

/-- A call in one go. -/
theorem leads_call (hname : named name) (hargs : valid args) : Leads named valid (.outside n)
    [.toolCallOpen n name, .toolCallArgumentsDelta n args, .toolCallClose n] (.outside (n + 1)) :=
  .opens hname (.arguments hargs (.closes .nil))

/-- Serialized objects are object texts. -/
def SerdeJson.Objects (serde : SerdeJson) : Prop :=
  ∀ fields s, serde.toString (.object fields) = some s → IsObjectText s

theorem SerdeJson.Objects.toStringOr {serde : SerdeJson} (h : serde.Objects) (fields : List (Name × Value)) :
    IsObjectText (serde.toStringOr (.object fields)) := by
  unfold SerdeJson.toStringOr
  cases hs : serde.toString (.object fields) with
  | none => exact emptyObject_isObjectText
  | some s => exact h fields s hs

end Flambeau.Server.ToolCallParser
