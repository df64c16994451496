import Flambeau.Stream.Account
import Flambeau.Server.ToolCallParser.Text

namespace Flambeau.Server.ToolCallParser
open Flambeau.Stream

/-- What a piece of the input is to a parser. -/
inductive Role where
  | text
  | think
  | marker
  | callHeader
  | callBody
  | scaffolding
  | space
  /-- Anything else that is taken. -/
  | junk

structure Piece where
  role : Role
  part : Text

/-- The text that has to be given out. -/
def Piece.owed (x : Piece) : Text :=
  match x.role with
  | .text | .think | .junk => x.part
  | .marker | .callHeader | .callBody | .scaffolding | .space => []

/-- What stands between two tags. -/
def gap (s : Text) : Piece := ⟨if s.all isWhitespace then .space else .junk, s⟩

theorem gap_owed (s : Text) : (gap s).owed = [] ↔ s.all isWhitespace = true := by
  unfold gap Piece.owed
  cases h : s.all isWhitespace with
  | true => simp
  | false =>
    simp only [Bool.false_eq_true, if_false, iff_false]
    rintro rfl
    cases h

/-- What an event gives out of the text outside calls. -/
def shown : ParserEvent → Text
  | .textDelta s | .thinkDelta s => s
  | .toolCallOpen .. | .toolCallArgumentsDelta .. | .toolCallClose _ => []

@[simp] theorem shown_emitText (s : Text) : (emitText s).flatMap shown = s := by
  cases s <;> simp [emitText, shown]

@[simp] theorem shown_emitThink (s : Text) : (emitThink s).flatMap shown = s := by
  cases s <;> simp [emitThink, shown]

abbrev Entry := Machine.Entry ParserEvent Piece

/-- What is owed is in the step's own events, in order. -/
def Given (e : Entry) : Prop := (e.pieces.flatMap Piece.owed).Sublist (e.events.flatMap shown)

/-- Step by step in order is in order. -/
theorem given_all {log : List Entry} (h : ∀ e ∈ log, Given e) :
    (log.flatMap fun e => e.pieces.flatMap Piece.owed).Sublist
      ((log.flatMap Machine.Entry.events).flatMap shown) := by
  induction log with
  | nil => exact List.Sublist.refl _
  | cons e log ih =>
    rw [List.flatMap_cons, List.flatMap_cons, List.flatMap_append]
    exact (h e List.mem_cons_self).append (ih fun x hx => h x (List.mem_cons_of_mem e hx))

/-- A step that gives out no text owes none. -/
theorem given_silent {es : List ParserEvent} (hes : es.flatMap shown = []) (ps : List Piece) :
    Given ⟨es, ps⟩ ↔ ps.flatMap Piece.owed = [] := by
  unfold Given
  rw [hes, List.sublist_nil]

/-- A gap and pieces that owe nothing, in a silent step. -/
theorem given_gap {es : List ParserEvent} {ps : List Piece} (hes : es.flatMap shown = [])
    (hps : ps.flatMap Piece.owed = []) (s : Text) : Given ⟨es, gap s :: ps⟩ ↔ s.all isWhitespace = true := by
  rw [given_silent hes, List.flatMap_cons, hps, List.append_nil, gap_owed]

/-- The front of the buffer that a step took. -/
def taken (before after : Text) : Text := before.take (before.length - after.length)

theorem taken_append (a b : Text) : taken (a ++ b) b = a := by
  unfold taken
  rw [List.length_append, Nat.add_sub_cancel, List.take_left]

theorem taken_drop (s : Text) (n : Nat) : taken s (s.drop n) ++ s.drop n = s := by
  have h := taken_append (s.take n) (s.drop n)
  rw [List.take_append_drop] at h
  rw [h, List.take_append_drop]

/-- A run that loses nothing: a second `finish` is silent, the state is clean, and what is owed is
given out. -/
structure Settled (m : Machine Char ParserEvent P) (clean : P → Prop) (log : List Entry) (q : P) : Prop where
  silent : m.finish q = some ([], q)
  clean : clean q
  given : ∀ e ∈ log, Given e
  inOrder : (Machine.parts Piece.owed log).Sublist ((log.flatMap Machine.Entry.events).flatMap shown)

theorem settled_iff {m : Machine Char ParserEvent P} {clean : P → Prop}
    (hsilent : ∀ q, clean q → m.finish q = some ([], q)) (log : List Entry) (q : P) :
    Settled m clean log q ↔ (∀ e ∈ log, Given e) ∧ clean q :=
  ⟨fun h => ⟨h.given, h.clean⟩, fun h => ⟨hsilent q h.2, h.2, h.1, given_all h.1⟩⟩

/-- In every run from a state the whole input is in its pieces or still held, and the run is settled
just when its steps satisfy `G` and its flush `F`. -/
def Settles (m : Machine Char ParserEvent P) (a : Machine.Account P Piece) (buf : P → Text) (clean G F : P → Prop)
    (start : P) : Prop :=
  ∀ chunks log q, (m.logged a).run start chunks = some (log, q) →
    m.run start chunks = some (log.flatMap Machine.Entry.events, q) ∧
      Machine.parts Piece.part log ++ buf q = chunks.flatten ∧
      (Settled m clean log q ↔ m.Throughout G F start chunks)

theorem settles_of {m : Machine Char ParserEvent P} {a : Machine.Account P Piece} {buf : P → Text}
    {clean G F : P → Prop} (hconserves : m.Conserves a buf Piece.part)
    (hsettled : ∀ chunks log q, (m.logged a).run start chunks = some (log, q) →
      (Settled m clean log q ↔ m.Throughout G F start chunks)) (hstart : buf start = []) :
    Settles m a buf clean G F start := by
  intro chunks log q h
  refine ⟨?_, ?_, hsettled chunks log q h⟩
  · rw [Machine.run_logged (a := a), h]
    rfl
  · have hall := hconserves.run h
    rw [hstart, List.nil_append] at hall
    exact hall.symm

end Flambeau.Server.ToolCallParser
