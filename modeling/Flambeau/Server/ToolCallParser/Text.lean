import Mathlib
import Flambeau.Server.ToolCallParser.Events
import Flambeau.Stream.Search

namespace Flambeau.Server.ToolCallParser
open Flambeau.Stream

attribute [instance (2000)] List.decidableBAll List.decidableBEx

/-- `char::is_whitespace`. -/
def isWhitespace (c : Char) : Bool :=
  (9 ≤ c.toNat && c.toNat ≤ 13) || c.toNat == 0x20 || c.toNat == 0x85 || c.toNat == 0xA0 ||
    c.toNat == 0x1680 || (0x2000 ≤ c.toNat && c.toNat ≤ 0x200A) || c.toNat == 0x2028 ||
    c.toNat == 0x2029 || c.toNat == 0x202F || c.toNat == 0x205F || c.toNat == 0x3000

def trimStart (s : Text) : Text := s.dropWhile isWhitespace

def trimEnd (s : Text) : Text := (s.reverse.dropWhile isWhitespace).reverse

def trim (s : Text) : Text := trimEnd (trimStart s)

/-! Byte offsets. -/

def byteLen (s : Text) : Nat := (s.map Char.utf8Size).sum

/-- A string cut at a byte offset; `none` where that is not a char boundary. -/
def splitByte (n : Nat) : Text → Option (Text × Text)
  | [] => if n = 0 then some ([], []) else none
  | c :: s =>
    if n = 0 then some ([], c :: s)
    else if c.utf8Size ≤ n then (splitByte (n - c.utf8Size) s).map fun r => (c :: r.1, r.2)
    else none

def isCharBoundary (s : Text) (n : Nat) : Bool := (splitByte n s).isSome

/-- `floor_char_boundary`, and `align_down_char_boundary`. -/
def floorCharBoundary (s : Text) (n : Nat) : Nat :=
  if byteLen s ≤ n then byteLen s else down n
where
  down : Nat → Nat
    | 0 => 0
    | n + 1 => if isCharBoundary s (n + 1) then n + 1 else down n

def IsAscii (s : Text) : Prop := ∀ c ∈ s, c.toNat < 128

instance (s : Text) : Decidable (IsAscii s) := inferInstanceAs (Decidable (∀ c ∈ s, c.toNat < 128))

@[simp] theorem isAscii_nil : IsAscii [] := by simp [IsAscii]

@[simp] theorem isAscii_cons : IsAscii (c :: s) ↔ c.toNat < 128 ∧ IsAscii s := by simp [IsAscii]

@[simp] theorem isAscii_append : IsAscii (s ++ t) ↔ IsAscii s ∧ IsAscii t := by
  simp only [IsAscii, List.mem_append]
  constructor
  · intro h
    exact ⟨fun c hc => h c (.inl hc), fun c hc => h c (.inr hc)⟩
  · intro h c hc
    rcases hc with hc | hc
    · exact h.1 c hc
    · exact h.2 c hc

theorem IsAscii.sub (h : IsAscii s) (hs : ∀ c ∈ t, c ∈ s) : IsAscii t := fun c hc => h c (hs c hc)

theorem utf8Size_ascii {c : Char} (h : c.toNat < 128) : c.utf8Size = 1 := by
  rw [Char.utf8Size_eq_one_iff, UInt32.le_iff_toNat_le]
  exact Nat.le_of_lt_succ h

theorem byteLen_cons (c : Char) (s : Text) : byteLen (c :: s) = c.utf8Size + byteLen s := by
  simp [byteLen]

theorem byteLen_ascii (h : IsAscii s) : byteLen s = s.length := by
  induction s with
  | nil => rfl
  | cons c s ih =>
    obtain ⟨hc, hs⟩ := isAscii_cons.mp h
    rw [byteLen_cons, utf8Size_ascii hc, ih hs, List.length_cons]
    omega

theorem splitByte_append (h : splitByte n s = some (a, b)) : a ++ b = s ∧ byteLen a = n := by
  induction s generalizing n a with
  | nil =>
    simp only [splitByte, Option.ite_none_right_eq_some, Option.some.injEq, Prod.mk.injEq] at h
    obtain ⟨rfl, rfl, rfl⟩ := h
    exact ⟨rfl, rfl⟩
  | cons c s ih =>
    unfold splitByte at h
    split at h
    · rename_i hzero
      cases h
      exact ⟨rfl, hzero.symm⟩
    · split at h
      · rename_i hfits
        obtain ⟨⟨a', b'⟩, hr, heq⟩ := Option.map_eq_some_iff.mp h
        cases heq
        obtain ⟨happ, hlen⟩ := ih hr
        refine ⟨by rw [List.cons_append, happ], ?_⟩
        rw [byteLen_cons, hlen]
        omega
      · cases h

theorem splitByte_length (h : splitByte n s = some (a, b)) (hn : 0 < n) : b.length < s.length := by
  obtain ⟨rfl, hlen⟩ := splitByte_append h
  cases a with
  | nil =>
    simp only [byteLen, List.map_nil, List.sum_nil] at hlen
    omega
  | cons c a =>
    rw [List.length_append, List.length_cons]
    omega

theorem splitByte_all (s : Text) : splitByte (byteLen s) s = some (s, []) := by
  induction s with
  | nil => rfl
  | cons c s ih =>
    have hpos := Char.utf8Size_pos c
    unfold splitByte
    rw [byteLen_cons, if_neg (by omega), if_pos (by omega), Nat.add_sub_cancel_left, ih]
    rfl

theorem byteLen_pos (h : s ≠ []) : 0 < byteLen s := by
  cases s with
  | nil => exact absurd rfl h
  | cons c s =>
    have hpos := Char.utf8Size_pos c
    rw [byteLen_cons]
    omega

/-- In ASCII text byte offsets are positions. -/
theorem splitByte_ascii (h : IsAscii s) (hn : n ≤ s.length) :
    splitByte n s = some (s.take n, s.drop n) := by
  induction s generalizing n with
  | nil =>
    have hzero : n = 0 := Nat.le_zero.mp hn
    simp [splitByte, hzero]
  | cons c s ih =>
    obtain ⟨hc, hs⟩ := isAscii_cons.mp h
    unfold splitByte
    by_cases hzero : n = 0
    · simp [hzero]
    · obtain ⟨k, rfl⟩ := Nat.exists_eq_succ_of_ne_zero hzero
      have hk : k ≤ s.length := by
        rw [List.length_cons] at hn
        omega
      rw [if_neg hzero, utf8Size_ascii hc, if_pos (by omega)]
      simp only [Nat.succ_eq_add_one, Nat.add_sub_cancel]
      rw [ih hs hk]
      rfl

theorem floorCharBoundary_ascii (h : IsAscii s) (hn : n ≤ s.length) :
    floorCharBoundary s n = n := by
  unfold floorCharBoundary
  rw [byteLen_ascii h]
  by_cases heq : s.length ≤ n
  · rw [if_pos heq]
    omega
  · rw [if_neg heq]
    cases n with
    | zero => rfl
    | succ n =>
      unfold floorCharBoundary.down
      rw [isCharBoundary, splitByte_ascii h hn]
      rfl

/-! Tags. -/

def toolOpen : Text := ['<', 't', 'o', 'o', 'l', '_', 'c', 'a', 'l', 'l', '>']
def toolClose : Text := ['<', '/', 't', 'o', 'o', 'l', '_', 'c', 'a', 'l', 'l', '>']
def thinkOpen : Text := ['<', 't', 'h', 'i', 'n', 'k', '>']
def thinkClose : Text := ['<', '/', 't', 'h', 'i', 'n', 'k', '>']

end Flambeau.Server.ToolCallParser
