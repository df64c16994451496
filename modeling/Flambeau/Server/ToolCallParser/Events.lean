import Flambeau.Stream.Coalesce
import Flambeau.Stream.Machine

namespace Flambeau.Server.ToolCallParser
open Flambeau.Stream

/-- A Rust string, by its characters. -/
abbrev Text := List Char

inductive ParserEvent where
  | textDelta (text : Text)
  | thinkDelta (text : Text)
  | toolCallOpen (index : Nat) (name : Text)
  | toolCallArgumentsDelta (index : Nat) (arguments : Text)
  | toolCallClose (index : Nat)
deriving DecidableEq

namespace ParserEvent

/-- The arms of `coalesce` that append to the last event. -/
def merge : ParserEvent → ParserEvent → Option ParserEvent
  | .textDelta acc, .textDelta s => some (.textDelta (acc ++ s))
  | .thinkDelta acc, .thinkDelta s => some (.thinkDelta (acc ++ s))
  | .toolCallArgumentsDelta i acc, .toolCallArgumentsDelta j s =>
    if i = j then some (.toolCallArgumentsDelta i (acc ++ s)) else none
  | _, _ => none

theorem merge_assoc (hab : merge a b = some ab) (hbc : merge b c = some bc) :
    ∃ abc, merge ab c = some abc ∧ merge a bc = some abc := by
  cases a <;> cases b <;> simp only [merge, Option.ite_none_right_eq_some, reduceCtorEq] at hab
  all_goals cases c <;> simp only [merge, Option.ite_none_right_eq_some, reduceCtorEq] at hbc
  · cases hab
    cases hbc
    exact ⟨_, rfl, by simp [merge]⟩
  · cases hab
    cases hbc
    exact ⟨_, rfl, by simp [merge]⟩
  · obtain ⟨rfl, hab⟩ := hab
    obtain ⟨rfl, hbc⟩ := hbc
    cases hab
    cases hbc
    refine ⟨_, if_pos rfl, ?_⟩
    simp [merge]

theorem merge_apart (hab : merge a b = none) (hbc : merge b c = some bc) : merge a bc = none := by
  cases b <;> cases c <;> simp only [merge, Option.ite_none_right_eq_some, reduceCtorEq] at hbc
  · cases hbc
    cases a with
    | textDelta => cases hab
    | _ => rfl
  · cases hbc
    cases a with
    | thinkDelta => cases hab
    | _ => rfl
  · obtain ⟨rfl, hbc⟩ := hbc
    cases hbc
    cases a with
    | toolCallArgumentsDelta i acc =>
      simp only [merge, ite_eq_right_iff, reduceCtorEq, imp_false] at hab ⊢
      exact hab
    | _ => rfl

def merger : Merger ParserEvent := ⟨merge, merge_assoc, merge_apart⟩

/-- `ParserEvent::coalesce`. -/
def coalesce (events : List ParserEvent) : List ParserEvent := merger.coalesce events

theorem congruent : Machine.Congruent coalesce := fun es _ _ h => Merger.coalesce_congr es h

/-- The letters of a stream, which coalescing does not change. -/
inductive Atom where
  | text (c : Char)
  | think (c : Char)
  | opened (index : Nat) (name : Text)
  | argument (index : Nat) (c : Char)
  | closed (index : Nat)

def atoms : ParserEvent → List Atom
  | .textDelta s => s.map .text
  | .thinkDelta s => s.map .think
  | .toolCallOpen i name => [.opened i name]
  | .toolCallArgumentsDelta i s => s.map (.argument i)
  | .toolCallClose i => [.closed i]

theorem atoms_merge (a b ab : ParserEvent) (h : merge a b = some ab) :
    ab.atoms = a.atoms ++ b.atoms := by
  cases a <;> cases b <;> simp only [merge, Option.ite_none_right_eq_some, reduceCtorEq] at h
  · cases h
    simp [atoms]
  · cases h
    simp [atoms]
  · obtain ⟨rfl, h⟩ := h
    cases h
    simp [atoms]

theorem atoms_of_coalesce {es fs : List ParserEvent} (h : coalesce es = coalesce fs) :
    es.flatMap atoms = fs.flatMap atoms := by
  have hes := Merger.flatMap_coalesce (M := merger) atoms_merge es
  have hfs := Merger.flatMap_coalesce (M := merger) atoms_merge fs
  unfold coalesce at h
  rw [← hes, ← hfs, h]

end ParserEvent

/-- `emit_text`, which gives out no empty delta. -/
def emitText (s : Text) : List ParserEvent := if s.isEmpty then [] else [.textDelta s]

/-- A `ThinkDelta`, when there is anything to give out. -/
def emitThink (s : Text) : List ParserEvent := if s.isEmpty then [] else [.thinkDelta s]

theorem emitText_append (s t : Text) (es : List ParserEvent) :
    ParserEvent.coalesce (emitText s ++ (emitText t ++ es)) =
      ParserEvent.coalesce (emitText (s ++ t) ++ es) := by
  cases s with
  | nil => rfl
  | cons c s =>
    cases t with
    | nil =>
      rw [List.append_nil]
      rfl
    | cons d t => rfl

theorem emitThink_append (s t : Text) (es : List ParserEvent) :
    ParserEvent.coalesce (emitThink s ++ (emitThink t ++ es)) =
      ParserEvent.coalesce (emitThink (s ++ t) ++ es) := by
  cases s with
  | nil => rfl
  | cons c s =>
    cases t with
    | nil =>
      rw [List.append_nil]
      rfl
    | cons d t => rfl

@[simp] theorem atoms_emitText (s : Text) :
    (emitText s).flatMap ParserEvent.atoms = s.map .text := by
  cases s <;> simp [emitText, ParserEvent.atoms]

@[simp] theorem atoms_emitThink (s : Text) :
    (emitThink s).flatMap ParserEvent.atoms = s.map .think := by
  cases s <;> simp [emitThink, ParserEvent.atoms]

end Flambeau.Server.ToolCallParser
