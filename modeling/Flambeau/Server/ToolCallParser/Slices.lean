import Flambeau.Server.ToolCallParser.Text

namespace Flambeau.Server.ToolCallParser
open Flambeau.Stream

/-! Strings by their byte offsets. A slice at one that is no char boundary, or out of
range, is a panic. -/

/-- The offset of a position. -/
def byteAt (s : Text) (n : Nat) : Nat := byteLen (s.take n)

/-- `&s[a..]`, and what `drain(..a)` leaves. -/
def sliceFrom (s : Text) (a : Nat) : Option Text := (splitByte a s).map (·.2)

/-- `&s[..b]`. -/
def sliceTo (s : Text) (b : Nat) : Option Text := (splitByte b s).map (·.1)

/-- `&s[a..b]`. -/
def slice (s : Text) (a b : Nat) : Option Text :=
  if a ≤ b then (sliceTo s b).bind fun t => sliceFrom t a else none

/-- `as_bytes`. -/
def bytes (s : Text) : List UInt8 := s.flatMap String.utf8EncodeChar

/-- `str::find`, which answers with an offset. -/
def findByte (pat s : Text) : Option Nat := (find pat s).map (byteAt s)

/-- `min_by_key` over the offsets of the tags. -/
def earliestByte (tags : List Text) (s : Text) : Option (Nat × Text) :=
  minByKey (tags.filterMap fun t => (findByte t s).map fun p => (p, t))

@[simp] theorem byteLen_nil : byteLen [] = 0 := rfl

theorem byteLen_append (s t : Text) : byteLen (s ++ t) = byteLen s + byteLen t := by
  simp [byteLen]

theorem length_le_byteLen (s : Text) : s.length ≤ byteLen s := by
  induction s with
  | nil => exact Nat.le_refl 0
  | cons c s ih =>
    have hpos := Char.utf8Size_pos c
    rw [List.length_cons, byteLen_cons]
    omega

@[simp] theorem byteAt_zero (s : Text) : byteAt s 0 = 0 := rfl

theorem byteAt_length (s : Text) : byteAt s s.length = byteLen s := by
  rw [byteAt, List.take_length]

theorem byteAt_add (s : Text) (m n : Nat) : byteAt s (m + n) = byteAt s m + byteAt (s.drop m) n := by
  rw [byteAt, List.take_add, byteLen_append]
  rfl

theorem byteAt_succ (c : Char) (s : Text) (n : Nat) : byteAt (c :: s) (n + 1) = byteAt s n + c.utf8Size := by
  rw [byteAt, List.take_succ_cons, byteLen_cons, Nat.add_comm]
  rfl

theorem byteAt_le (s : Text) (n : Nat) : byteAt s n ≤ byteLen s := by
  have h := byteLen_append (s.take n) (s.drop n)
  rw [List.take_append_drop] at h
  rw [byteAt, h]
  exact Nat.le_add_right _ _

theorem byteAt_lt {s : Text} (h : m < n) (hn : n ≤ s.length) : byteAt s m < byteAt s n := by
  obtain ⟨k, rfl⟩ := Nat.exists_eq_add_of_le (Nat.le_of_lt h)
  have hpos : 0 < byteAt (s.drop m) k := by
    apply byteLen_pos
    intro hnil
    have hlen := congrArg List.length hnil
    rw [List.length_take, List.length_drop, List.length_nil] at hlen
    omega
  rw [byteAt_add]
  omega

theorem byteAt_lt_iff {s : Text} (hm : m ≤ s.length) (hn : n ≤ s.length) : byteAt s m < byteAt s n ↔ m < n := by
  constructor
  · intro h
    apply Nat.lt_of_not_le
    intro hle
    rcases Nat.lt_or_eq_of_le hle with hlt | rfl
    · have hback := byteAt_lt hlt hm
      omega
    · exact Nat.lt_irrefl _ h
  · intro h
    exact byteAt_lt h hn

theorem byteAt_pos {s : Text} (hn : n ≤ s.length) : 0 < byteAt s n ↔ 0 < n := byteAt_lt_iff (Nat.zero_le _) hn

/-- Behind a pattern that stands in the text. -/
theorem byteAt_behind {pat s : Text} (h : pat <+: s.drop p) : byteAt s (p + pat.length) = byteAt s p + byteLen pat := by
  obtain ⟨rest, hrest⟩ := h
  have hwhole : byteAt (pat ++ rest) pat.length = byteLen pat := by rw [byteAt, List.take_left]
  rw [byteAt_add, ← hrest, hwhole]

theorem splitByte_front (a s : Text) (n : Nat) :
    splitByte (byteLen a + n) (a ++ s) = (splitByte n s).map fun r => (a ++ r.1, r.2) := by
  induction a with
  | nil =>
    rw [byteLen_nil, Nat.zero_add, List.nil_append]
    cases splitByte n s <;> rfl
  | cons c a ih =>
    have hpos := Char.utf8Size_pos c
    rw [byteLen_cons, List.cons_append, splitByte, if_neg (by omega), if_pos (by omega),
      show c.utf8Size + byteLen a + n - c.utf8Size = byteLen a + n by omega, ih, Option.map_map]
    rfl

theorem splitByte_zero (s : Text) : splitByte 0 s = some ([], s) := by
  cases s <;> rfl

/-- An offset of a position is a char boundary. -/
theorem splitByte_at (s : Text) (n : Nat) : splitByte (byteAt s n) s = some (s.take n, s.drop n) := by
  have h := splitByte_front (s.take n) (s.drop n) 0
  rw [Nat.add_zero, List.take_append_drop, splitByte_zero, Option.map_some, List.append_nil] at h
  exact h

/-- No offset inside a character is. -/
theorem splitByte_inside (a s : Text) {c : Char} (hpos : 0 < j) (hlt : j < c.utf8Size) :
    splitByte (byteLen a + j) (a ++ c :: s) = none := by
  rw [splitByte_front, splitByte, if_neg (by omega), if_neg (by omega)]
  rfl

@[simp] theorem sliceFrom_at (s : Text) (n : Nat) : sliceFrom s (byteAt s n) = some (s.drop n) := by
  rw [sliceFrom, splitByte_at]
  rfl

@[simp] theorem sliceTo_at (s : Text) (n : Nat) : sliceTo s (byteAt s n) = some (s.take n) := by
  rw [sliceTo, splitByte_at]
  rfl

theorem slice_at (s : Text) (h : m ≤ n) : slice s (byteAt s m) (byteAt s n) = some ((s.take n).drop m) := by
  have hle : byteAt s m ≤ byteAt s n := by
    obtain ⟨k, rfl⟩ := Nat.exists_eq_add_of_le h
    rw [byteAt_add]
    exact Nat.le_add_right _ _
  have hfront : byteAt s m = byteAt (s.take n) m := by
    rw [byteAt, byteAt, List.take_take, Nat.min_eq_left h]
  rw [slice, if_pos hle, sliceTo_at, Option.bind_some, hfront, sliceFrom_at]

theorem sliceFrom_shift (s : Text) (n m : Nat) :
    sliceFrom s (byteAt s n + byteAt (s.drop n) m) = some ((s.drop n).drop m) := by
  rw [← byteAt_add, sliceFrom_at, List.drop_drop]

theorem slice_shift (s : Text) (n : Nat) (h : a ≤ b) :
    slice s (byteAt s n + byteAt (s.drop n) a) (byteAt s n + byteAt (s.drop n) b) =
      some (((s.drop n).drop a).take (b - a)) := by
  rw [← byteAt_add, ← byteAt_add, slice_at _ (Nat.add_le_add_left h n), List.drop_take, List.drop_drop,
    Nat.add_sub_add_left]

theorem isCharBoundary_at (s : Text) (n : Nat) : isCharBoundary s (byteAt s n) = true := by
  rw [isCharBoundary, splitByte_at]
  rfl

/-- `align_down_char_boundary` of a boundary. -/
theorem floorCharBoundary_at (s : Text) (n : Nat) : floorCharBoundary s (byteAt s n) = byteAt s n := by
  have hle := byteAt_le s n
  have hat := isCharBoundary_at s n
  unfold floorCharBoundary
  by_cases hall : byteLen s ≤ byteAt s n
  · rw [if_pos hall]
    omega
  · rw [if_neg hall]
    generalize byteAt s n = k at hat
    cases k with
    | zero => rfl
    | succ k => rw [floorCharBoundary.down, if_pos hat]

theorem splitByte_floor (s : Text) (n : Nat) : (splitByte (floorCharBoundary s n) s).isSome = true := by
  unfold floorCharBoundary
  split
  · rw [splitByte_all]
    rfl
  · induction n with
    | zero =>
      rw [floorCharBoundary.down, splitByte_zero]
      rfl
    | succ n ih =>
      rw [floorCharBoundary.down]
      split
      · assumption
      · rename_i hlt _
        exact ih (by omega)

/-! Searches. -/

theorem findByte_none {pat s : Text} (h : find pat s = none) : findByte pat s = none := by
  rw [findByte, h]
  rfl

theorem findByte_some {pat s : Text} (h : find pat s = some p) : findByte pat s = some (byteAt s p) := by
  rw [findByte, h]
  rfl

theorem find_behind {pat s : Text} (h : find pat s = some p) :
    byteAt s (p + pat.length) = byteAt s p + byteLen pat :=
  byteAt_behind ⟨_, (find_drop h).symm⟩

theorem minByKey_mem {xs : List (Nat × β)} (h : minByKey xs = some x) : x ∈ xs := by
  induction xs generalizing x with
  | nil => cases h
  | cons y xs ih =>
    rw [minByKey] at h
    split at h
    · cases h
      exact List.mem_cons_self
    · rename_i z hz
      split at h
      · cases h
        exact List.mem_cons_of_mem y (ih hz)
      · cases h
        exact List.mem_cons_self

/-- Keys that are replaced by others in the same order. -/
theorem minByKey_map {f : Nat → Nat} {xs : List (Nat × β)}
    (hf : ∀ x ∈ xs, ∀ y ∈ xs, f x.1 < f y.1 ↔ x.1 < y.1) :
    minByKey (xs.map fun x => (f x.1, x.2)) = (minByKey xs).map fun x => (f x.1, x.2) := by
  induction xs with
  | nil => rfl
  | cons x xs ih =>
    have ih := ih fun y hy z hz => hf y (List.mem_cons_of_mem x hy) z (List.mem_cons_of_mem x hz)
    rw [List.map_cons, minByKey, ih, minByKey]
    cases hmin : minByKey xs with
    | none => rfl
    | some y =>
      have horder := hf y (List.mem_cons_of_mem x (minByKey_mem hmin)) x List.mem_cons_self
      simp only [Option.map_some, horder]
      split <;> rfl

theorem earliestByte_eq (tags : List Text) (s : Text) :
    earliestByte tags s = (earliest tags s).map fun r => (byteAt s r.1, r.2) := by
  have hkeys : (tags.filterMap fun t => (findByte t s).map fun p => (p, t)) =
      (tags.filterMap fun t => (find t s).map fun p => (p, t)).map fun x => (byteAt s x.1, x.2) := by
    rw [List.map_filterMap]
    congr 1
    funext t
    rw [findByte, Option.map_map, Option.map_map]
    rfl
  have hwithin : ∀ x ∈ tags.filterMap (fun t => (find t s).map fun p => (p, t)), x.1 ≤ s.length := by
    intro x hx
    obtain ⟨t, -, hfound⟩ := List.mem_filterMap.mp hx
    obtain ⟨p, hp, rfl⟩ := Option.map_eq_some_iff.mp hfound
    have hle := find_le hp
    dsimp only
    omega
  rw [earliestByte, hkeys, earliest]
  exact minByKey_map fun x hx y hy => byteAt_lt_iff (hwithin x hx) (hwithin y hy)

theorem earliest_behind {tags : List Text} {s : Text} (h : earliest tags s = some (p, t)) :
    byteAt s (p + t.length) = byteAt s p + byteLen t := by
  obtain ⟨u, r, rfl, rfl, _, _⟩ := earliest_some h
  apply byteAt_behind
  rw [List.drop_left]
  exact ⟨r, rfl⟩

/-! Single bytes. -/

theorem utf8EncodeChar_ascii {c : Char} (h : c.toNat < 128) : String.utf8EncodeChar c = [c.toUInt8] := by
  have hle : c.val.toNat ≤ 0x7f := Nat.le_of_lt_succ h
  unfold String.utf8EncodeChar
  rw [if_pos hle]
  congr 1

/-- The bytes of a longer character are none of ASCII. -/
theorem utf8EncodeChar_wide {c : Char} (h : ¬ c.toNat < 128) {b : UInt8} (hb : b ∈ String.utf8EncodeChar c) :
    128 ≤ b.toNat := by
  have hgt : ¬ c.val.toNat ≤ 0x7f := fun hle => h (Nat.lt_succ_of_le hle)
  have hwide : ∀ k m, 0 < m → 128 ≤ k → k + m ≤ 256 → ∀ n, 128 ≤ (UInt8.ofNat (n % m + k)).toNat := by
    intro k m hpos hk hkm n
    have hlt := Nat.mod_lt n hpos
    rw [UInt8.toNat_ofNat', Nat.mod_eq_of_lt (by omega)]
    omega
  unfold String.utf8EncodeChar at hb
  rw [if_neg hgt] at hb
  split at hb
  · simp only [List.mem_cons, List.not_mem_nil, or_false] at hb
    rcases hb with rfl | rfl
    · exact hwide 0xc0 0x20 (by decide) (by decide) (by decide) _
    · exact hwide 0x80 0x40 (by decide) (by decide) (by decide) _
  split at hb
  · simp only [List.mem_cons, List.not_mem_nil, or_false] at hb
    rcases hb with rfl | rfl | rfl
    · exact hwide 0xe0 0x10 (by decide) (by decide) (by decide) _
    · exact hwide 0x80 0x40 (by decide) (by decide) (by decide) _
    · exact hwide 0x80 0x40 (by decide) (by decide) (by decide) _
  · simp only [List.mem_cons, List.not_mem_nil, or_false] at hb
    rcases hb with rfl | rfl | rfl | rfl
    · exact hwide 0xf0 0x08 (by decide) (by decide) (by decide) _
    · exact hwide 0x80 0x40 (by decide) (by decide) (by decide) _
    · exact hwide 0x80 0x40 (by decide) (by decide) (by decide) _
    · exact hwide 0x80 0x40 (by decide) (by decide) (by decide) _

theorem toUInt8_ascii {d : Char} (hd : d.toNat < 128) : d.toUInt8.toNat = d.toNat := by
  change d.val.toNat % 256 = d.val.toNat
  have hlt : d.val.toNat < 128 := hd
  omega

/-- A byte of ASCII stands only for itself. -/
theorem ascii_byte {c d : Char} (hd : d.toNat < 128) {b : UInt8} (hb : b ∈ String.utf8EncodeChar c) :
    b = d.toUInt8 ↔ c = d := by
  by_cases hc : c.toNat < 128
  · rw [utf8EncodeChar_ascii hc, List.mem_singleton] at hb
    subst hb
    constructor
    · intro h
      have hnat := congrArg UInt8.toNat h
      rw [toUInt8_ascii hc, toUInt8_ascii hd] at hnat
      exact Char.toNat_inj.mp hnat
    · rintro rfl
      rfl
  · have hwide := utf8EncodeChar_wide hc hb
    constructor
    · rintro rfl
      rw [toUInt8_ascii hd] at hwide
      omega
    · rintro rfl
      exact absurd hd hc

theorem bytes_append (s t : Text) : bytes (s ++ t) = bytes s ++ bytes t := List.flatMap_append

theorem bytes_length (s : Text) : (bytes s).length = byteLen s := by
  induction s with
  | nil => rfl
  | cons c s ih =>
    rw [byteLen_cons, ← ih, bytes, List.flatMap_cons, List.length_append, String.length_utf8EncodeChar]
    rfl

theorem bytes_drop (s : Text) (n : Nat) : (bytes s).drop (byteAt s n) = bytes (s.drop n) := by
  have hsplit := bytes_append (s.take n) (s.drop n)
  rw [List.take_append_drop] at hsplit
  rw [hsplit, byteAt, ← bytes_length, List.drop_left]

/-- The byte in front of a boundary is the last one of the character there. -/
theorem bytes_before (a s : Text) (c : Char) : ∃ b, (bytes (a ++ c :: s))[byteLen (a ++ [c]) - 1]? = some b ∧
    b ∈ String.utf8EncodeChar c := by
  have hpos := Char.utf8Size_pos c
  have hlen := String.length_utf8EncodeChar c
  have hsplit : bytes (a ++ c :: s) = bytes a ++ (String.utf8EncodeChar c ++ bytes s) := by
    rw [bytes_append]
    rfl
  have hat : byteLen (a ++ [c]) - 1 = byteLen a + (c.utf8Size - 1) := by
    rw [byteLen_append, byteLen_cons, byteLen_nil]
    omega
  have hin : c.utf8Size - 1 < (String.utf8EncodeChar c).length := by omega
  refine ⟨(String.utf8EncodeChar c)[c.utf8Size - 1], ?_, List.getElem_mem hin⟩
  rw [hsplit, hat, List.getElem?_append_right (by rw [bytes_length]; omega), bytes_length, Nat.add_sub_cancel_left,
    List.getElem?_append_left hin, List.getElem?_eq_getElem hin]

/-! Positions by what is behind them. -/

/-- The offset where a tail of the text begins. -/
def offset (s r : Text) : Nat := byteLen s - byteLen r

theorem offset_append (a r : Text) : offset (a ++ r) r = byteLen a := by
  rw [offset, byteLen_append, Nat.add_sub_cancel]

theorem offset_self (s : Text) : offset s s = 0 := Nat.sub_self _

theorem sliceFrom_offset {s r : Text} (h : r <:+ s) : sliceFrom s (offset s r) = some r := by
  obtain ⟨a, rfl⟩ := h
  have hat := splitByte_front a r 0
  rw [Nat.add_zero, splitByte_zero] at hat
  rw [offset_append, sliceFrom, hat]
  rfl

theorem sliceTo_append (a r : Text) : sliceTo (a ++ r) (byteLen a) = some a := by
  have hat := splitByte_front a r 0
  rw [Nat.add_zero, splitByte_zero, Option.map_some, List.append_nil] at hat
  rw [sliceTo, hat]
  rfl

theorem slice_append (a b r : Text) : slice (a ++ (b ++ r)) (byteLen a) (byteLen (a ++ b)) = some b := by
  have hto := sliceTo_append (a ++ b) r
  rw [List.append_assoc] at hto
  have hfrom := sliceFrom_offset (List.suffix_append a b)
  rw [offset_append] at hfrom
  rw [slice, if_pos (by rw [byteLen_append]; omega), hto, Option.bind_some, hfrom]

/-- The front of a tail. -/
theorem slice_offset {s b r : Text} (h : b ++ r <:+ s) : slice s (offset s (b ++ r)) (offset s r) = some b := by
  obtain ⟨a, rfl⟩ := h
  have hr : offset (a ++ (b ++ r)) r = byteLen (a ++ b) := by rw [← List.append_assoc, offset_append]
  rw [offset_append, hr, slice_append]

theorem bytes_offset {s r : Text} (h : r <:+ s) : (bytes s).drop (offset s r) = bytes r := by
  obtain ⟨a, rfl⟩ := h
  rw [offset_append, bytes_append, ← bytes_length, List.drop_left]

theorem offset_add {s b r : Text} (h : b ++ r <:+ s) : offset s (b ++ r) + byteLen b = offset s r := by
  obtain ⟨a, rfl⟩ := h
  have hr : offset (a ++ (b ++ r)) r = byteLen (a ++ b) := by rw [← List.append_assoc, offset_append]
  rw [offset_append, hr, byteLen_append]

theorem offset_letter {s r : Text} {c : Char} (hc : c.toNat < 128) (h : c :: r <:+ s) :
    offset s (c :: r) + 1 = offset s r := by
  have hadd := offset_add (b := [c]) (r := r) h
  rwa [byteLen_cons, utf8Size_ascii hc] at hadd

theorem offset_end {s r : Text} (h : r <:+ s) : byteLen s ≤ offset s r ↔ r = [] := by
  obtain ⟨a, rfl⟩ := h
  rw [offset_append, byteLen_append]
  constructor
  · intro hle
    apply Decidable.byContradiction
    intro hne
    have hpos := byteLen_pos hne
    omega
  · rintro rfl
    exact Nat.le_refl _

/-- The first byte of a text tells the first character, if that is of ASCII. -/
theorem bytes_head {d : Char} (hd : d.toNat < 128) (r : Text) : (bytes r).head? = some d.toUInt8 ↔ r.head? = some d := by
  cases r with
  | nil => exact iff_of_false nofun nofun
  | cons c r =>
    obtain ⟨b, bs, hb⟩ := List.exists_cons_of_ne_nil (String.utf8EncodeChar_ne_nil (c := c))
    have hat : b = d.toUInt8 ↔ c = d := ascii_byte hd (by rw [hb]; exact List.mem_cons_self)
    rw [bytes, List.flatMap_cons, hb, List.cons_append, List.head?_cons, List.head?_cons, Option.some.injEq,
      Option.some.injEq, hat]

theorem bytes_cons_ascii {c : Char} (hc : c.toNat < 128) (s : Text) : bytes (c :: s) = c.toUInt8 :: bytes s := by
  rw [bytes, List.flatMap_cons, utf8EncodeChar_ascii hc]
  rfl

theorem bytes_cons (c : Char) (s : Text) : bytes (c :: s) = String.utf8EncodeChar c ++ bytes s := List.flatMap_cons

theorem toUInt8_eq {c d : Char} (hc : c.toNat < 128) (hd : d.toNat < 128) : c.toUInt8 = d.toUInt8 ↔ c = d :=
  ascii_byte hd (by rw [utf8EncodeChar_ascii hc]; exact List.mem_singleton_self _)

theorem wide_ne {b : UInt8} (hb : 128 ≤ b.toNat) {d : Char} (hd : d.toNat < 128) : b ≠ d.toUInt8 := by
  rintro rfl
  rw [toUInt8_ascii hd] at hb
  omega

/-- A run of bytes is a run of characters, where longer characters are in it whole or not at all. -/
theorem takeWhile_bytes {p : UInt8 → Bool} {q : Char → Bool} (hascii : ∀ c : Char, c.toNat < 128 → p c.toUInt8 = q c)
    (hwide : ∀ c : Char, ¬ c.toNat < 128 → ∀ b ∈ String.utf8EncodeChar c, p b = q c) (s : Text) :
    (bytes s).takeWhile p = bytes (s.takeWhile q) := by
  induction s with
  | nil => rfl
  | cons c s ih =>
    have hchar : ∀ b ∈ String.utf8EncodeChar c, p b = q c := by
      by_cases hc : c.toNat < 128
      · intro b hb
        rw [utf8EncodeChar_ascii hc, List.mem_singleton] at hb
        rw [hb]
        exact hascii c hc
      · exact hwide c hc
    rw [bytes_cons]
    by_cases hq : q c = true
    · rw [List.takeWhile_append_of_pos (fun b hb => (hchar b hb).trans hq), ih, List.takeWhile_cons_of_pos hq, bytes_cons]
    · obtain ⟨b, bs, hb⟩ := List.exists_cons_of_ne_nil (String.utf8EncodeChar_ne_nil (c := c))
      have hfirst : ¬ p b = true := by
        rw [hchar b (by rw [hb]; exact List.mem_cons_self)]
        exact hq
      rw [hb, List.cons_append, List.takeWhile_cons_of_neg hfirst, List.takeWhile_cons_of_neg hq]
      rfl

/-! The tail that is held back. -/

/-- A proper front of a tag. -/
def opensByte (tags : List Text) (tail : Text) : Bool :=
  tags.any fun t => byteLen tail < byteLen t && tail.isPrefixOf t

/-- The loop of `ambiguous_tail_start`, which passes over the offsets inside a character. -/
def firstTail (s : Text) (tags : List Text) : List Nat → Option Nat
  | [] => some (byteLen s)
  | p :: ps =>
    if isCharBoundary s p then
      (sliceFrom s p).bind fun tail => if opensByte tags tail then some p else firstTail s tags ps
    else firstTail s tags ps

def maxTail (tags : List Text) : Nat := (tags.map fun t => byteLen t - 1).foldl max 0

/-- `ambiguous_tail_start`. -/
def ambiguousTailByte (s : Text) (tags : List Text) : Option Nat :=
  let startScan := byteLen s - maxTail tags
  firstTail s tags (List.range' startScan (byteLen s - startScan))

theorem firstTail_skip {s : Text} {ps : List Nat} (h : ∀ p ∈ ps, isCharBoundary s p = false) (qs : List Nat) :
    firstTail s tags (ps ++ qs) = firstTail s tags qs := by
  induction ps with
  | nil => rfl
  | cons p ps ih =>
    rw [List.cons_append, firstTail, h p List.mem_cons_self, if_neg Bool.false_ne_true]
    exact ih fun q hq => h q (List.mem_cons_of_mem p hq)

/-- The offsets inside a character. -/
theorem inside_range (a s : Text) (c : Char) {j k : Nat} (hj : 0 < j) (hk : j + k ≤ c.utf8Size) :
    ∀ p ∈ List.range' (byteLen a + j) k, isCharBoundary (a ++ c :: s) p = false := by
  intro p hp
  obtain ⟨hle, hlt⟩ := List.mem_range'_1.mp hp
  obtain ⟨d, rfl⟩ := Nat.exists_eq_add_of_le hle
  rw [isCharBoundary, Nat.add_assoc, splitByte_inside a s (by omega) (by omega)]
  rfl

theorem sliceFrom_front (a s : Text) : sliceFrom (a ++ s) (byteLen a) = some s := by
  have h := splitByte_front a s 0
  rw [Nat.add_zero, splitByte_zero] at h
  rw [sliceFrom, h]
  rfl

/-- From a boundary on, within the candidates. -/
theorem firstTail_from (a t : Text) (hmax : byteLen t ≤ maxTail tags) :
    firstTail (a ++ t) tags (List.range' (byteLen a) (byteLen t)) =
      some (byteLen a + byteAt t (tailStart (fun tail => byteLen tail ≤ maxTail tags && opensByte tags tail) t)) := by
  induction t generalizing a with
  | nil =>
    rw [List.append_nil]
    rfl
  | cons c t ih =>
    have hpos := Char.utf8Size_pos c
    have hlen := byteLen_cons c t
    have hhere : sliceFrom (a ++ c :: t) (byteLen a) = some (c :: t) := sliceFrom_front a (c :: t)
    have hboundary : isCharBoundary (a ++ c :: t) (byteLen a) = true := by
      rw [sliceFrom] at hhere
      obtain ⟨r, hr, -⟩ := Option.map_eq_some_iff.mp hhere
      rw [isCharBoundary, hr]
      rfl
    have hrange : List.range' (byteLen a) (byteLen (c :: t)) = byteLen a ::
        (List.range' (byteLen a + 1) (c.utf8Size - 1) ++ List.range' (byteLen (a ++ [c])) (byteLen t)) := by
      have hsum : byteLen (c :: t) = (c.utf8Size - 1 + byteLen t) + 1 := by omega
      have hnext : byteLen (a ++ [c]) = byteLen a + 1 + (c.utf8Size - 1) := by
        rw [byteLen_append, byteLen_cons, byteLen_nil]
        omega
      rw [hsum, List.range'_succ, hnext, List.range'_append_1]
    have hrest := ih (a ++ [c]) (by omega)
    rw [List.append_assoc, List.singleton_append] at hrest
    rw [hrange, firstTail, if_pos hboundary, hhere, Option.bind_some,
      firstTail_skip (inside_range a t c (Nat.zero_lt_one) (by omega)), hrest, tailStart]
    by_cases hopens : opensByte tags (c :: t) = true
    · rw [if_pos hopens, if_pos (by rw [hopens, Bool.and_true, decide_eq_true hmax])]
      rfl
    · rw [if_neg hopens, if_neg (by rw [eq_false_of_ne_true hopens, Bool.and_false]; exact Bool.false_ne_true),
        byteLen_append, Nat.add_comm (tailStart _ t) 1, byteAt_add, Nat.add_assoc]
      rfl

/-- Up to the candidates nothing is held. -/
theorem firstTail_scan (a t : Text) (hstart : byteLen a ≤ byteLen (a ++ t) - maxTail tags) :
    firstTail (a ++ t) tags (List.range' (byteLen (a ++ t) - maxTail tags)
        (byteLen (a ++ t) - (byteLen (a ++ t) - maxTail tags))) =
      some (byteLen a + byteAt t (tailStart (fun tail => byteLen tail ≤ maxTail tags && opensByte tags tail) t)) := by
  induction t generalizing a with
  | nil =>
    rw [List.append_nil] at hstart ⊢
    have hall : byteLen a - maxTail tags = byteLen a := by omega
    rw [hall, Nat.sub_self]
    rfl
  | cons c t ih =>
    have hlen := byteLen_cons c t
    have htotal := byteLen_append a (c :: t)
    have hnext : byteLen (a ++ [c]) = byteLen a + c.utf8Size := by
      rw [byteLen_append, byteLen_cons, byteLen_nil, Nat.add_zero]
    by_cases hmax : byteLen (c :: t) ≤ maxTail tags
    · have hhere : byteLen (a ++ c :: t) - maxTail tags = byteLen a := by omega
      rw [hhere, show byteLen (a ++ c :: t) - byteLen a = byteLen (c :: t) by omega]
      exact firstTail_from a (c :: t) hmax
    · have hheld : tailStart (fun tail => byteLen tail ≤ maxTail tags && opensByte tags tail) (c :: t) =
          tailStart (fun tail => byteLen tail ≤ maxTail tags && opensByte tags tail) t + 1 := by
        rw [tailStart, if_neg (by rw [decide_eq_false hmax, Bool.false_and]; exact Bool.false_ne_true)]
      have hbehind : byteAt (c :: t) (tailStart (fun tail => byteLen tail ≤ maxTail tags && opensByte tags tail) t + 1) =
          c.utf8Size + byteAt t (tailStart (fun tail => byteLen tail ≤ maxTail tags && opensByte tags tail) t) :=
        byteLen_cons c _
      have happ : a ++ c :: t = (a ++ [c]) ++ t := by simp
      rw [hheld, hbehind, ← Nat.add_assoc, ← hnext]
      by_cases hbefore : byteLen (a ++ [c]) ≤ byteLen (a ++ c :: t) - maxTail tags
      · rw [happ] at hbefore ⊢
        exact ih (a ++ [c]) hbefore
      · obtain ⟨j, hj⟩ := Nat.exists_eq_add_of_le hstart
        have hrange : List.range' (byteLen (a ++ c :: t) - maxTail tags)
            (byteLen (a ++ c :: t) - (byteLen (a ++ c :: t) - maxTail tags)) =
            List.range' (byteLen a + j) (c.utf8Size - j) ++ List.range' (byteLen (a ++ [c])) (byteLen t) := by
          have hsum : byteLen (a ++ c :: t) - (byteLen a + j) = c.utf8Size - j + byteLen t := by omega
          have hmid : byteLen (a ++ [c]) = byteLen a + j + (c.utf8Size - j) := by omega
          rw [hj, hsum, hmid, List.range'_append_1]
        rw [hrange, firstTail_skip (inside_range a t c (by omega) (by omega)), happ]
        exact firstTail_from (a ++ [c]) t (by omega)

/-- In bytes or in characters, the same tail is held. -/
theorem ambiguousTailByte_eq (s : Text) (tags : List Text) :
    ambiguousTailByte s tags =
      some (byteAt s (tailStart (fun tail => byteLen tail ≤ maxTail tags && opensByte tags tail) s)) := by
  have h := @firstTail_scan tags [] s (Nat.zero_le _)
  rw [byteLen_nil, Nat.zero_add] at h
  exact h

end Flambeau.Server.ToolCallParser
