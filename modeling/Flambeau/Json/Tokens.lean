namespace Flambeau.Json

/-! What is asked of every member of a list is decided along the list. -/

attribute [instance (2000)] List.decidableBAll List.decidableBEx

abbrev Bytes := List UInt8

/-- Insignificant whitespace: space, tab, line feed, carriage return. -/
def isWs (b : UInt8) : Bool := b == 0x20 || b == 0x09 || b == 0x0A || b == 0x0D

def isDigit (b : UInt8) : Bool := 0x30 ≤ b && b ≤ 0x39

def isHexDigit (b : UInt8) : Bool :=
  isDigit b || (0x41 ≤ b && b ≤ 0x46) || (0x61 ≤ b && b ≤ 0x66)

/-- The bytes that may follow a backslash, `u` apart: `" \ / b f n r t`. -/
def isEscape (b : UInt8) : Bool :=
  b == 0x22 || b == 0x5C || b == 0x2F || b == 0x62 || b == 0x66 || b == 0x6E || b == 0x72 ||
    b == 0x74

/-- Digits, `.`, `e`, `E`, `+` and `-`. -/
def isNumByte (b : UInt8) : Bool :=
  isDigit b || b == 0x2E || b == 0x65 || b == 0x45 || b == 0x2B || b == 0x2D

def IsWs (w : Bytes) : Prop := ∀ b ∈ w, isWs b = true

def Digits (w : Bytes) : Prop := ∀ b ∈ w, isDigit b = true

instance (w : Bytes) : Decidable (IsWs w) := inferInstanceAs (Decidable (∀ b ∈ w, isWs b = true))

instance (w : Bytes) : Decidable (Digits w) :=
  inferInstanceAs (Decidable (∀ b ∈ w, isDigit b = true))

@[simp] theorem isWs_nil : IsWs [] := by simp [IsWs]

@[simp] theorem isWs_cons : IsWs (b :: w) ↔ isWs b = true ∧ IsWs w := by simp [IsWs]

@[simp] theorem isWs_append : IsWs (v ++ w) ↔ IsWs v ∧ IsWs w := by
  simp only [IsWs, List.mem_append]
  exact ⟨fun h => ⟨fun b hb => h b (.inl hb), fun b hb => h b (.inr hb)⟩,
    fun h b hb => hb.elim (h.1 b) (h.2 b)⟩

@[simp] theorem digits_nil : Digits [] := by simp [Digits]

@[simp] theorem digits_cons : Digits (b :: w) ↔ isDigit b = true ∧ Digits w := by simp [Digits]

@[simp] theorem digits_append : Digits (v ++ w) ↔ Digits v ∧ Digits w := by
  simp only [Digits, List.mem_append]
  exact ⟨fun h => ⟨fun b hb => h b (.inl hb), fun b hb => h b (.inr hb)⟩,
    fun h b hb => hb.elim (h.1 b) (h.2 b)⟩

theorem ws_cases (h : isWs b = true) : b = 0x20 ∨ b = 0x09 ∨ b = 0x0A ∨ b = 0x0D := by
  simpa [isWs, or_assoc] using h

theorem digit_not_ws (h : isDigit b = true) : isWs b = false := by
  cases hw : isWs b with
  | false => rfl
  | true => rcases ws_cases hw with rfl | rfl | rfl | rfl <;> cases h

theorem numByte_not_ws (h : isNumByte b = true) : isWs b = false := by
  cases hw : isWs b with
  | false => rfl
  | true => rcases ws_cases hw with rfl | rfl | rfl | rfl <;> cases h

theorem hexDigit_not_ws (h : isHexDigit b = true) : isWs b = false := by
  cases hw : isWs b with
  | false => rfl
  | true => rcases ws_cases hw with rfl | rfl | rfl | rfl <;> cases h

theorem escape_not_ws (h : isEscape b = true) : isWs b = false := by
  cases hw : isWs b with
  | false => rfl
  | true => rcases ws_cases hw with rfl | rfl | rfl | rfl <;> cases h

theorem digit_numByte (h : isDigit b = true) : isNumByte b = true := by simp [isNumByte, h]

/-! Numbers, by their parts. -/

structure Expo where
  upper : Bool
  /-- `some true` is `-`, `some false` is `+`. -/
  sign : Option Bool
  digits : Bytes
deriving DecidableEq

structure Num where
  minus : Bool
  int : Bytes
  frac : Option Bytes
  exp : Option Expo
deriving DecidableEq

def signBytes : Option Bool → Bytes
  | none => []
  | some true => [0x2D]
  | some false => [0x2B]

def Expo.bytes (e : Expo) : Bytes :=
  (if e.upper then 0x45 else 0x65) :: (signBytes e.sign ++ e.digits)

def fracBytes : Option Bytes → Bytes
  | none => []
  | some ds => 0x2E :: ds

def expBytes : Option Expo → Bytes
  | none => []
  | some e => e.bytes

def Num.bytes (n : Num) : Bytes :=
  (if n.minus then [0x2D] else []) ++ (n.int ++ (fracBytes n.frac ++ expBytes n.exp))

@[simp] theorem fracBytes_none : fracBytes none = [] := rfl

@[simp] theorem fracBytes_some (ds : Bytes) : fracBytes (some ds) = 0x2E :: ds := rfl

@[simp] theorem expBytes_none : expBytes none = [] := rfl

@[simp] theorem expBytes_some (e : Expo) : expBytes (some e) = e.bytes := rfl

/-- An exponent marker that no digit follows. -/
def Num.openExp (n : Num) : Prop := ∃ e, n.exp = some e ∧ e.digits = []

/-- A digit run, then an optional dot and an optional exponent. Leading zeros
are allowed, and so are a dot and an exponent that no digit follows. -/
structure Num.Loose (n : Num) : Prop where
  int : Digits n.int ∧ n.int ≠ []
  frac : ∀ ds, n.frac = some ds → Digits ds
  exp : ∀ e, n.exp = some e → Digits e.digits

/-- No fraction and no exponent. -/
def Num.Whole (n : Num) : Prop := n.frac = none ∧ n.exp = none

/-- A number still being written: a dot or an exponent comes only after a
digit. -/
structure Num.Partial (n : Num) : Prop where
  int : Digits n.int
  frac : ∀ ds, n.frac = some ds → Digits ds ∧ n.int ≠ []
  exp : ∀ e, n.exp = some e → Digits e.digits ∧ n.int ≠ []

/-- The number production of RFC 8259. -/
structure Num.Rfc (n : Num) : Prop extends Num.Loose n where
  no_leading_zero : ∀ ds, n.int = 0x30 :: ds → ds = []
  frac_digits : n.frac ≠ some []
  exp_digits : ¬ n.openExp

theorem num_first {n : Num} (h : n.Loose) :
    ∃ b t, n.bytes = b :: t ∧ (isDigit b = true ∨ b = 0x2D) := by
  obtain ⟨minus, int, frac, exp⟩ := n
  obtain ⟨⟨hi, hne⟩, -, -⟩ := h
  cases minus with
  | true => exact ⟨0x2D, _, rfl, .inr rfl⟩
  | false =>
    cases int with
    | nil => exact absurd rfl hne
    | cons d ds => exact ⟨d, _, rfl, .inl (digits_cons.mp hi).1⟩

/-! Strings, by the bytes between the quotes. -/

/-- The characters of an RFC 8259 string at byte level: any byte from 0x20 on
other than the quote and the backslash, or a legal escape. -/
inductive Chars : Bytes → Prop where
  | nil : Chars []
  | plain : 0x20 ≤ b → b ≠ 0x22 → b ≠ 0x5C → Chars t → Chars (b :: t)
  | escape : isEscape b = true → Chars t → Chars (0x5C :: b :: t)
  | unicode : isHexDigit a = true → isHexDigit b = true → isHexDigit c = true →
      isHexDigit d = true → Chars t → Chars (0x5C :: 0x75 :: a :: b :: c :: d :: t)

/-- The bytes of `true`, `false` and `null`. -/
def trueBytes : Bytes := [0x74, 0x72, 0x75, 0x65]

def falseBytes : Bytes := [0x66, 0x61, 0x6C, 0x73, 0x65]

def nullBytes : Bytes := [0x6E, 0x75, 0x6C, 0x6C]

def IsLiteral (w : Bytes) : Prop := w = trueBytes ∨ w = falseBytes ∨ w = nullBytes

end Flambeau.Json
