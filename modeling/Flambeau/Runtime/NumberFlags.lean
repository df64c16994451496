import Flambeau.Json.Tokens

namespace Flambeau.Runtime
open Flambeau.Json

/-- What an open number frame remembers of the bytes it has taken. -/
structure NumFlags where
  seenDigit : Bool
  seenDot : Bool
  seenExp : Bool
  seenExpSign : Bool
  seenExpDigit : Bool
deriving DecidableEq, Repr

/-- The flags after the first byte, a `-` or a digit. -/
def NumFlags.opened (b : UInt8) : NumFlags := ⟨isDigit b, false, false, false, false⟩

/-- The byte stays inside the number; `none` closes it. Integer frames take
digits only. -/
def NumFlags.accept (integer : Bool) (f : NumFlags) (b : UInt8) : Option NumFlags :=
  if isDigit b then
    some { f with seenDigit := true, seenExpDigit := if f.seenExp then true else f.seenExpDigit }
  else if integer then none
  else if b == 0x2E && !f.seenDot && !f.seenExp && f.seenDigit then
    some { f with seenDot := true }
  else if (b == 0x65 || b == 0x45) && !f.seenExp && f.seenDigit then
    some { f with seenExp := true }
  else if (b == 0x2B || b == 0x2D) && f.seenExp && !f.seenExpSign && !f.seenExpDigit then
    some { f with seenExpSign := true }
  else none

theorem accept_numByte {f : NumFlags} (h : f.accept integer b = some f') :
    isNumByte b = true := by
  unfold NumFlags.accept at h
  split at h
  · exact digit_numByte ‹_›
  split at h
  · cases h
  split at h
  · rename_i hdot
    simp only [Bool.and_eq_true, beq_iff_eq] at hdot
    obtain ⟨⟨⟨rfl, -⟩, -⟩, -⟩ := hdot
    decide
  split at h
  · rename_i hexp
    simp only [Bool.and_eq_true, Bool.or_eq_true, beq_iff_eq] at hexp
    obtain ⟨⟨rfl | rfl, -⟩, -⟩ := hexp <;> decide
  split at h
  · rename_i hsign
    simp only [Bool.and_eq_true, Bool.or_eq_true, beq_iff_eq] at hsign
    obtain ⟨⟨⟨rfl | rfl, -⟩, -⟩, -⟩ := hsign <;> decide
  · cases h

/-- At least one digit and, with an exponent open, at least one exponent digit. -/
def NumFlags.closable (f : NumFlags) : Bool :=
  !(!f.seenDigit || (f.seenExp && !f.seenExpDigit))

end Flambeau.Runtime
