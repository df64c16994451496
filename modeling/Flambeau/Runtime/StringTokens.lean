import Flambeau.Json.Automaton
import Flambeau.Json.Defects

namespace Flambeau.Runtime
open Flambeau.Json

/-- What a byte does inside a string. -/
inductive StrStep where
  | stay (escape : Bool) (unicodeRemaining : Nat)
  | close
  | fail

/-- The string handler both validators share. -/
def charByte (escape : Bool) (u : Nat) (b : UInt8) : StrStep :=
  if 0 < u then
    if isHexDigit b then .stay escape (u - 1) else .fail
  else if escape then
    if isEscape b then .stay false u
    else if b = 0x75 then .stay false 4
    else .fail
  else if b = 0x5C then .stay true u
  else if b = 0x22 then .close
  else if b < 0x20 then .fail
  else .stay escape u

theorem charByte_hex (escape : Bool) (u : Nat) (b : UInt8) :
    charByte escape (u + 1) b = if isHexDigit b then .stay escape u else .fail := by
  simp [charByte]

theorem charByte_escape (b : UInt8) :
    charByte true 0 b =
      if isEscape b then .stay false 0 else if b = 0x75 then .stay false 4 else .fail := by
  simp [charByte]

theorem charByte_plain (b : UInt8) :
    charByte false 0 b =
      if b = 0x5C then .stay true 0 else if b = 0x22 then .close
      else if b < 0x20 then .fail else .stay false 0 := by
  simp [charByte]

theorem charByte_close (h : charByte escape u b = .close) :
    escape = false ∧ u = 0 ∧ b = 0x22 := by
  cases u with
  | succ u =>
    rw [charByte_hex] at h
    split at h <;> cases h
  | zero =>
    cases escape with
    | true =>
      rw [charByte_escape] at h
      split at h
      · cases h
      · split at h <;> cases h
    | false =>
      rw [charByte_plain] at h
      split at h
      · cases h
      split at h
      · exact ⟨rfl, rfl, ‹_›⟩
      · split at h <;> cases h

theorem pending_nil : Pending escape u [] ↔ escape = false ∧ u = 0 := by
  constructor
  · rintro ⟨hs, r, he, hl, -, hr⟩
    obtain ⟨rfl, rfl⟩ := List.append_eq_nil_iff.mp he.symm
    refine ⟨?_, hl.symm⟩
    cases escape with
    | false => rfl
    | true =>
      simp only [if_true] at hr
      cases hr
      contradiction
  · rintro ⟨rfl, rfl⟩
    exact ⟨[], [], rfl, rfl, by simp, .nil⟩

theorem pending_closed : Pending false 0 t ↔ Chars t := by
  constructor
  · rintro ⟨hs, r, rfl, hl, -, hr⟩
    obtain rfl := List.length_eq_zero_iff.mp hl
    exact hr
  · intro h
    exact ⟨[], t, rfl, rfl, by simp, h⟩

theorem pending_open : Pending true 0 t ↔ Chars (0x5C :: t) := by
  constructor
  · rintro ⟨hs, r, rfl, hl, -, hr⟩
    obtain rfl := List.length_eq_zero_iff.mp hl
    exact hr
  · intro h
    exact ⟨[], t, rfl, rfl, by simp, h⟩

theorem pending_hex : Pending escape (u + 1) (b :: t) ↔ isHexDigit b = true ∧ Pending escape u t := by
  constructor
  · rintro ⟨hs, r, he, hl, hx, hr⟩
    cases hs with
    | nil => cases hl
    | cons c hs =>
      cases he
      exact ⟨hx b (by simp), hs, r, rfl, by simpa using hl, fun c hc => hx c (by simp [hc]), hr⟩
  · rintro ⟨hb, hs, r, rfl, hl, hx, hr⟩
    refine ⟨b :: hs, r, rfl, by simp [hl], ?_, hr⟩
    intro c hc
    rcases List.mem_cons.mp hc with rfl | hc
    · exact hb
    · exact hx c hc

theorem chars_escape_iff : Chars (0x5C :: b :: t) ↔
    (isEscape b = true ∧ Chars t) ∨ (b = 0x75 ∧ Pending false 4 t) := by
  constructor
  · intro h
    cases h with
    | plain _ _ hs => exact absurd rfl hs
    | escape he ht => exact .inl ⟨he, ht⟩
    | unicode ha hb hc hd ht =>
      exact .inr ⟨rfl, pending_hex.mpr ⟨ha, pending_hex.mpr ⟨hb, pending_hex.mpr ⟨hc,
        pending_hex.mpr ⟨hd, pending_closed.mpr ht⟩⟩⟩⟩⟩
  · rintro (⟨he, ht⟩ | ⟨rfl, hs, r, rfl, hl, hx, hr⟩)
    · exact .escape he ht
    · exact chars_unicode hl hx hr

/-- One byte of a string body, seen by the handler and by the grammar. -/
theorem pending_cons : Pending escape u (b :: t) ↔
    ∃ escape' u', charByte escape u b = .stay escape' u' ∧ Pending escape' u' t := by
  cases u with
  | succ u =>
    rw [pending_hex, charByte_hex]
    cases isHexDigit b with
    | false => simp
    | true =>
      simp only [if_true, StrStep.stay.injEq, true_and]
      exact ⟨fun h => ⟨escape, u, ⟨rfl, rfl⟩, h⟩, fun ⟨_, _, ⟨hesc, hu⟩, h⟩ => hesc ▸ hu ▸ h⟩
  | zero =>
    cases escape with
    | true =>
      rw [pending_open, chars_escape_iff, charByte_escape]
      cases he : isEscape b with
      | true =>
        have hne : b ≠ 0x75 := by
          rintro rfl
          cases he
        simp [hne, pending_closed]
      | false =>
        by_cases hu : b = 0x75
        · simp [hu]
        · simp [hu]
    | false =>
      rw [pending_closed, charByte_plain]
      by_cases hs : b = 0x5C
      · subst hs
        simp [pending_open]
      · by_cases hq : b = 0x22
        · subst hq
          simp only [hs, if_false, if_true, reduceCtorEq, false_and, exists_const, iff_false]
          intro h
          cases h with
          | plain _ hne => exact hne rfl
        · by_cases hlt : b < 0x20
          · simp only [hs, hq, hlt, if_false, if_true, reduceCtorEq, false_and, exists_const,
              iff_false]
            intro h
            cases h with
            | plain hge => exact absurd hlt (UInt8.not_lt.mpr hge)
            | escape => exact hs rfl
            | unicode => exact hs rfl
          · simp only [hs, hq, hlt, if_false, StrStep.stay.injEq]
            constructor
            · intro h
              cases h with
              | plain _ _ _ ht => exact ⟨false, 0, ⟨rfl, rfl⟩, pending_closed.mpr ht⟩
              | escape => exact absurd rfl hs
              | unicode => exact absurd rfl hs
            · rintro ⟨_, _, ⟨rfl, rfl⟩, ht⟩
              exact .plain (UInt8.not_lt.mp hlt) hq hs (pending_closed.mp ht)

/-- A string frame that whitespace does not bypass. -/
def strings : Tokens (Bool × Nat) where
  step k b :=
    match charByte k.1 k.2 b with
    | .stay escape u => .stay (escape, u)
    | .close => .last
    | .fail => .fail
  eos _ := false

theorem strings_take (escape : Bool) (u : Nat) (w : Bytes) (next : Option UInt8) :
    strings.Takes (escape, u) w next ↔ ∃ body, w = body ++ [0x22] ∧ Pending escape u body := by
  induction w generalizing escape u with
  | nil =>
    constructor
    · intro h
      cases next with
      | none => cases h
      | some b =>
        simp only [Tokens.Takes, strings] at h
        split at h <;> cases h
    · rintro ⟨body, hbody, -⟩
      cases body <;> cases hbody
  | cons b w ih =>
    constructor
    · intro h
      simp only [Tokens.Takes, strings] at h
      cases hs : charByte escape u b with
      | stay escape' u' =>
        rw [hs] at h
        obtain ⟨body, rfl, hbody⟩ := (ih escape' u').mp h
        exact ⟨b :: body, rfl, pending_cons.mpr ⟨escape', u', hs, hbody⟩⟩
      | close =>
        rw [hs] at h
        obtain rfl : w = [] := h
        obtain ⟨rfl, rfl, rfl⟩ := charByte_close hs
        exact ⟨[], rfl, pending_nil.mpr ⟨rfl, rfl⟩⟩
      | fail =>
        rw [hs] at h
        exact h.elim
    · rintro ⟨body, hw, hbody⟩
      cases body with
      | nil =>
        cases hw
        obtain ⟨rfl, rfl⟩ := pending_nil.mp hbody
        rfl
      | cons c body =>
        cases hw
        obtain ⟨escape', u', hs, hbody⟩ := pending_cons.mp hbody
        simp only [Tokens.Takes, strings, hs]
        exact (ih escape' u').mpr ⟨body, rfl, hbody⟩

end Flambeau.Runtime
