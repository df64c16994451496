import Flambeau.Server.ToolCallParser.Gemma4Parser
import Flambeau.Server.ToolCallParser.Gemma4Stable

namespace Flambeau.Server.ToolCallParser.Gemma4
open Flambeau.Stream Flambeau.Runtime.JsonSchema

/-! Arguments in the native form. -/

def integerText (n : Int) : Text := if n < 0 then '-' :: digits n.natAbs else digits n.natAbs

def KeyText (key : Name) : Prop := key ≠ [] ∧ ∀ c ∈ key, c.isAlphanum = true

/-- A value, or what stands between the brackets of one. -/
inductive Part where
  | value (v : Value)
  | elements (values : List Value)
  | members (fields : List (Name × Value))

/-- How a value is written: strings between quote markers, keys bare. -/
inductive Spelled : Part → Text → Prop
  | string (hascii : IsAscii s) (hfree : ¬ stringQuote <:+: s) :
      Spelled (.value (.string s)) (stringQuote ++ (s ++ stringQuote))
  | integer (hlo : -2 ^ 63 ≤ n) (hhi : n < 2 ^ 63) : Spelled (.value (integer n)) (integerText n)
  | yes : Spelled (.value (.bool true)) ['t', 'r', 'u', 'e']
  | no : Spelled (.value (.bool false)) ['f', 'a', 'l', 's', 'e']
  | null : Spelled (.value .null) ['n', 'u', 'l', 'l']
  | array (h : Spelled (.elements values) s) : Spelled (.value (.array values)) ('[' :: (s ++ [']']))
  | object (hkeys : (fields.map (·.1)).Nodup) (h : Spelled (.members fields) s) :
      Spelled (.value (.object fields)) ('{' :: (s ++ ['}']))
  | noElements : Spelled (.elements []) []
  | lastElement (h : Spelled (.value v) s) : Spelled (.elements [v]) s
  | element (h : Spelled (.value v) s) (ht : Spelled (.elements (w :: values)) t) :
      Spelled (.elements (v :: w :: values)) (s ++ ',' :: t)
  | noMembers : Spelled (.members []) []
  | lastMember (hkey : KeyText key) (h : Spelled (.value v) s) : Spelled (.members [(key, v)]) (key ++ ':' :: s)
  | member (hkey : KeyText key) (h : Spelled (.value v) s) (ht : Spelled (.members (f :: fields)) t) :
      Spelled (.members ((key, v) :: f :: fields)) (key ++ ':' :: (s ++ ',' :: t))

/-! The letters of keys, numbers and literals. -/

/-- No bracket, comma or colon, no white space, and no front of a quote. -/
structure BareLetter (c : Char) : Prop where
  quote : c ≠ '<'
  brace : c ≠ '{'
  bracket : c ≠ '['
  colon : c ≠ ':'
  ending : endsBare c = false
  space : isWhitespace c = false
  ascii : c.toNat < 128

theorem bare_of_range {c : Char} (h : (48 ≤ c.toNat ∧ c.toNat ≤ 57) ∨ (65 ≤ c.toNat ∧ c.toNat ≤ 90) ∨
    (97 ≤ c.toNat ∧ c.toNat ≤ 122)) : BareLetter c where
  quote := by
    rintro rfl
    exact absurd h (by decide)
  brace := by
    rintro rfl
    exact absurd h (by decide)
  bracket := by
    rintro rfl
    exact absurd h (by decide)
  colon := by
    rintro rfl
    exact absurd h (by decide)
  ending := by
    have hne : c ≠ ',' ∧ c ≠ '}' ∧ c ≠ ']' := by
      refine ⟨?_, ?_, ?_⟩ <;> (rintro rfl; exact absurd h (by decide))
    simp [endsBare, hne.1, hne.2.1, hne.2.2]
  space := by
    simp only [isWhitespace, Bool.or_eq_false_iff, Bool.and_eq_false_iff, decide_eq_false_iff_not, beq_eq_false_iff_ne]
    omega
  ascii := by omega

theorem bare_of_alphanum {c : Char} (h : c.isAlphanum = true) : BareLetter c := by
  apply bare_of_range
  simp only [Char.isAlphanum, Char.isAlpha, Char.isUpper, Char.isLower, Char.isDigit, Bool.or_eq_true, Bool.and_eq_true,
    decide_eq_true_eq, ge_iff_le, UInt32.le_iff_toNat_le] at h
  change ((65 ≤ c.toNat ∧ c.toNat ≤ 90) ∨ (97 ≤ c.toNat ∧ c.toNat ≤ 122)) ∨ (48 ≤ c.toNat ∧ c.toNat ≤ 57) at h
  omega

def Bare (s : Text) : Prop := s ≠ [] ∧ ∀ c ∈ s, BareLetter c

theorem KeyText.bare (h : KeyText key) : Bare key := ⟨h.1, fun c hc => bare_of_alphanum (h.2 c hc)⟩

theorem digits_bare (n : Nat) : Bare (digits n) := by
  refine ⟨Nat.toDigits_ne_nil, fun c hc => bare_of_alphanum ?_⟩
  have hd : c.isDigit = true := Nat.isDigit_of_mem_toDigits (by decide) (by decide) hc
  rw [Char.isAlphanum, hd, Bool.or_true]

theorem dash_bare : BareLetter '-' where
  quote := by decide
  brace := by decide
  bracket := by decide
  colon := by decide
  ending := by decide
  space := by decide
  ascii := by decide

theorem integerText_bare (n : Int) : Bare (integerText n) := by
  unfold integerText
  split
  · refine ⟨List.cons_ne_nil _ _, ?_⟩
    rintro c (_ | ⟨_, hc⟩)
    · exact dash_bare
    · exact (digits_bare n.natAbs).2 c hc
  · exact digits_bare n.natAbs

/-- A number with the sign that was read. -/
def inRange (n : Int) : Option Int := if -2 ^ 63 ≤ n ∧ n < 2 ^ 63 then some n else none

def number (ds : Text) : Nat := ds.foldl (fun n c => 10 * n + (c.toNat - '0'.toNat)) 0

theorem parseI64_dash (hne : ds.isEmpty = false) (hall : ds.all Char.isDigit = true) :
    parseI64 ('-' :: ds) = inRange (-(number ds : Int)) := by
  have hmatch : parseI64 ('-' :: ds) =
      if ds.isEmpty || !ds.all Char.isDigit then none else inRange (-(number ds : Int)) := rfl
  rw [hmatch, hne, hall]
  exact if_neg (by decide)

theorem parseI64_digits (hne : ds.isEmpty = false) (hall : ds.all Char.isDigit = true) :
    parseI64 ds = inRange (number ds : Int) := by
  have hmatch : parseI64 ds = if ds.isEmpty || !ds.all Char.isDigit then none else inRange (number ds : Int) := by
    cases ds with
    | nil => rfl
    | cons c ds =>
      have hdigit : c.isDigit = true := (List.all_eq_true.mp hall) c List.mem_cons_self
      have hdash : c ≠ '-' := by
        rintro rfl
        exact absurd hdigit (by decide)
      have hplus : c ≠ '+' := by
        rintro rfl
        exact absurd hdigit (by decide)
      unfold parseI64
      split
      · rename_i h
        split at h
        · rename_i heq
          exact absurd (List.cons.inj heq).1 hdash
        · rename_i heq
          exact absurd (List.cons.inj heq).1 hplus
        · cases h
          rfl
  rw [hmatch, hne, hall]
  exact if_neg (by decide)

theorem parseI64_text (hlo : -2 ^ 63 ≤ n) (hhi : n < 2 ^ 63) : parseI64 (integerText n) = some n := by
  have hall : (digits n.natAbs).all Char.isDigit = true :=
    List.all_eq_true.mpr fun c hc => Nat.isDigit_of_mem_toDigits (by decide) (by decide) hc
  have hne : (digits n.natAbs).isEmpty = false := List.isEmpty_eq_false_iff.mpr Nat.toDigits_ne_nil
  have hvalue : number (digits n.natAbs) = n.natAbs := Nat.ofDigitChars_ten_toDigits
  unfold integerText
  by_cases hn : n < 0
  · have hback : -(n.natAbs : Int) = n := by omega
    rw [if_pos hn, parseI64_dash hne hall, hvalue, hback, inRange, if_pos ⟨hlo, hhi⟩]
  · have hback : (n.natAbs : Int) = n := by omega
    rw [if_neg hn, parseI64_digits hne hall, hvalue, hback, inRange, if_pos ⟨hlo, hhi⟩]

theorem Bare.ascii (h : Bare s) : IsAscii s := fun c hc => (h.2 c hc).ascii

theorem Spelled.ascii (h : Spelled part s) : IsAscii s := by
  have hquote : IsAscii stringQuote := by decide
  induction h with
  | string hascii _ => exact isAscii_append.mpr ⟨hquote, isAscii_append.mpr ⟨hascii, hquote⟩⟩
  | integer _ _ => exact (integerText_bare _).ascii
  | yes => decide
  | no => decide
  | null => decide
  | array _ ih => exact isAscii_cons.mpr ⟨by decide, isAscii_append.mpr ⟨ih, by decide⟩⟩
  | object _ _ ih => exact isAscii_cons.mpr ⟨by decide, isAscii_append.mpr ⟨ih, by decide⟩⟩
  | noElements => exact isAscii_nil
  | lastElement _ ih => exact ih
  | element _ _ ihs iht => exact isAscii_append.mpr ⟨ihs, isAscii_cons.mpr ⟨by decide, iht⟩⟩
  | noMembers => exact isAscii_nil
  | lastMember hkey _ ih => exact isAscii_append.mpr ⟨hkey.bare.ascii, isAscii_cons.mpr ⟨by decide, ih⟩⟩
  | member hkey _ _ ihs iht =>
    exact isAscii_append.mpr ⟨hkey.bare.ascii, isAscii_cons.mpr ⟨by decide, isAscii_append.mpr
      ⟨ihs, isAscii_cons.mpr ⟨by decide, iht⟩⟩⟩⟩

/-! The scan of the arguments. -/

/-- Inside brackets the scan comes out of the text as it went in. -/
def Crosses (s : Text) : Prop := ∀ depth r, 0 < depth → IsAscii (s ++ r) →
  scanArgs depth false (s ++ r) = (scanArgs depth false r).map (·.after s)

theorem crosses_nil : Crosses [] := by
  intro depth r _ _
  rw [List.nil_append]
  cases scanArgs depth false r <;> rfl

theorem Crosses.append (hs : Crosses s) (ht : Crosses t) : Crosses (s ++ t) := by
  intro depth r hdepth hascii
  rw [List.append_assoc] at hascii ⊢
  rw [hs depth _ hdepth hascii, ht depth r hdepth (isAscii_append.mp hascii).2, Option.map_map]
  congr 1
  funext q
  exact q.after_after s t

theorem no_quote (hc : c ≠ '<') (r : Text) : ¬ stringQuote.isPrefixOf (c :: r) = true := fun hp =>
  hc (List.cons_prefix_cons.mp (List.isPrefixOf_iff_prefix.mp hp)).1.symm

/-- A character that begins no quote. -/
theorem scan_letter (hascii : IsAscii (c :: r)) (hc : c ≠ '<')
    (hstep : (if c = '{' || c = '[' then ArgStep.advance 0 (depth + 1) false
      else if c = ']' then .advance 0 (depth - 1) false
      else if c = '}' then
        if depth = 0 then .advance 0 depth false
        else if depth - 1 = 0 then .close
        else .advance 0 (depth - 1) false
      else .advance 0 depth false) = .advance 0 depth' false) :
    scanArgs depth false (c :: r) = (scanArgs depth' false r).map (·.after [c]) := by
  have hquote : stringQuote.isPrefixOf (c :: r) = false := eq_false_of_ne_true (no_quote hc r)
  have hfront : (c :: r).isPrefixOf stringQuote = false := by
    apply eq_false_of_ne_true
    intro hp
    exact hc (List.cons_prefix_cons.mp (List.isPrefixOf_iff_prefix.mp hp)).1
  rw [scanArgs_cons, argStep_letter (lookaheadFaults_ascii hascii) hquote hfront, if_neg Bool.false_ne_true, hstep]
  rfl

theorem crosses_letter (hc : c ≠ '<') (hopen : c ≠ '{') (hbracket : c ≠ '[') (hclose : c ≠ ']') (hbrace : c ≠ '}') :
    Crosses [c] := by
  intro depth r _ hascii
  refine scan_letter hascii hc ?_
  simp [hopen, hbracket, hclose, hbrace]

theorem BareLetter.crosses (h : BareLetter c) : Crosses [c] := by
  have hend := h.ending
  simp only [endsBare, Bool.or_eq_false_iff, beq_eq_false_iff_ne] at hend
  exact crosses_letter h.quote h.brace h.bracket hend.2 hend.1.2

theorem crosses_bare (h : ∀ c ∈ s, BareLetter c) : Crosses s := by
  induction s with
  | nil => exact crosses_nil
  | cons c s ih => exact (h c List.mem_cons_self).crosses.append (ih fun d hd => h d (List.mem_cons_of_mem c hd))

/-- Inside brackets that are inside others. -/
theorem Crosses.brackets (h : Crosses s) : Crosses ('[' :: (s ++ [']'])) := by
  intro depth r hdepth hascii
  rw [List.cons_append, List.append_assoc, List.singleton_append] at hascii ⊢
  have hrest := (isAscii_cons.mp hascii).2
  rw [@scan_letter _ _ _ (depth + 1) hascii (by decide) rfl, h (depth + 1) _ (Nat.succ_pos _) hrest,
    @scan_letter _ _ _ depth (isAscii_append.mp hrest).2 (by decide) rfl, Option.map_map, Option.map_map]
  congr 1
  funext q
  simp

theorem Crosses.braces (h : Crosses s) : Crosses ('{' :: (s ++ ['}'])) := by
  intro depth r hdepth hascii
  rw [List.cons_append, List.append_assoc, List.singleton_append] at hascii ⊢
  have hrest := (isAscii_cons.mp hascii).2
  have hne : ¬ depth = 0 := by omega
  have hclose : scanArgs (depth + 1) false ('}' :: r) = (scanArgs depth false r).map (·.after ['}']) := by
    refine scan_letter (isAscii_append.mp hrest).2 (by decide) ?_
    simp [hne]
  rw [@scan_letter _ _ _ (depth + 1) hascii (by decide) rfl, h (depth + 1) _ (Nat.succ_pos _) hrest, hclose,
    Option.map_map, Option.map_map]
  congr 1
  funext q
  simp

/-- A quote that stands here. -/
theorem scan_quote (hascii : IsAscii (stringQuote ++ r)) :
    scanArgs depth inString (stringQuote ++ r) = (scanArgs depth (!inString) r).map (·.after stringQuote) := by
  have hquote : stringQuote.isPrefixOf (stringQuote ++ r) = true :=
    List.isPrefixOf_iff_prefix.mpr (List.prefix_append stringQuote r)
  have hshape : stringQuote ++ r = '<' :: ('|' :: '"' :: '|' :: '>' :: r) := rfl
  rw [hshape] at hascii hquote ⊢
  rw [scanArgs_cons, argStep_quote (lookaheadFaults_ascii hascii) hquote]
  rfl

theorem quote_markers : Markers '<' [stringQuote] := ⟨by decide, by decide⟩

/-- Inside a string, up to the quote that closes it. -/
theorem scan_string (hfree : ¬ stringQuote <:+: s) (hascii : IsAscii (s ++ (stringQuote ++ r))) :
    scanArgs depth true (s ++ (stringQuote ++ r)) = (scanArgs depth false r).map (·.after (s ++ stringQuote)) := by
  induction s with
  | nil => exact scan_quote hascii
  | cons c s ih =>
    rw [List.cons_append] at hascii ⊢
    have hquote : stringQuote.isPrefixOf (c :: (s ++ (stringQuote ++ r))) = false := by
      apply eq_false_of_ne_true
      intro hp
      have hhere := quote_markers.find_here hfree r
      rw [List.cons_append, find_cons_pos hp] at hhere
      cases hhere
    have hfront : (c :: (s ++ (stringQuote ++ r))).isPrefixOf stringQuote = false := by
      apply eq_false_of_ne_true
      intro hp
      have hlen := (List.isPrefixOf_iff_prefix.mp hp).length_le
      simp only [List.length_append, List.length_cons] at hlen
      omega
    have hrest := ih (fun hin => hfree (hin.trans (List.suffix_cons c s).isInfix)) (isAscii_cons.mp hascii).2
    rw [scanArgs_cons, argStep_letter (lookaheadFaults_ascii hascii) hquote hfront, if_pos rfl]
    dsimp only
    rw [List.drop_zero, List.take_zero, hrest, Option.map_map]
    congr 1

theorem crosses_string (hfree : ¬ stringQuote <:+: s) : Crosses (stringQuote ++ (s ++ stringQuote)) := by
  intro depth r _ hascii
  rw [List.append_assoc, List.append_assoc] at hascii ⊢
  rw [scan_quote hascii, Bool.not_false, scan_string hfree (isAscii_append.mp hascii).2, Option.map_map]
  congr 1

theorem Spelled.crosses (h : Spelled part s) : Crosses s := by
  have hcomma : Crosses [','] := crosses_letter (by decide) (by decide) (by decide) (by decide) (by decide)
  have hcolon : Crosses [':'] := crosses_letter (by decide) (by decide) (by decide) (by decide) (by decide)
  induction h with
  | string _ hfree => exact crosses_string hfree
  | integer _ _ => exact crosses_bare (integerText_bare _).2
  | yes => exact crosses_bare fun c hc => bare_of_alphanum (List.all_eq_true.mp (by decide) c hc)
  | no => exact crosses_bare fun c hc => bare_of_alphanum (List.all_eq_true.mp (by decide) c hc)
  | null => exact crosses_bare fun c hc => bare_of_alphanum (List.all_eq_true.mp (by decide) c hc)
  | array _ ih => exact ih.brackets
  | object _ _ ih => exact ih.braces
  | noElements => exact crosses_nil
  | lastElement _ ih => exact ih
  | element _ _ ihs iht => exact ihs.append (hcomma.append iht)
  | noMembers => exact crosses_nil
  | lastMember hkey _ ih => exact (crosses_bare hkey.bare.2).append (hcolon.append ih)
  | member hkey _ _ ihs iht =>
    exact (crosses_bare hkey.bare.2).append (hcolon.append (ihs.append (hcomma.append iht)))

/-- The brace behind the arguments ends the scan of them. -/
theorem Spelled.closed (h : Spelled part s) : scanArgs 1 false (s ++ '}' :: toolCallClose) =
    some ⟨s, 0, false, true, toolCallClose⟩ := by
  have hascii : IsAscii (s ++ '}' :: toolCallClose) := isAscii_append.mpr ⟨h.ascii, by decide⟩
  have hclose : scanArgs 1 false ('}' :: toolCallClose) = some ⟨[], 0, false, true, toolCallClose⟩ := by
    rw [scanArgs_cons]
    rfl
  rw [h.crosses 1 _ Nat.one_pos hascii, hclose, Option.map_some, ArgScan.after, List.append_nil]

/-! The descent over the arguments. -/

theorem whitespace_of_ascii {c : Char} (h : isWhitespace c = false) : isAsciiWhitespace c = false := by
  apply eq_false_of_ne_true
  intro hc
  simp only [isAsciiWhitespace, Bool.or_eq_true, beq_iff_eq] at hc
  rcases hc with (((rfl | rfl) | rfl) | hc) | rfl
  · exact absurd h (by decide)
  · exact absurd h (by decide)
  · exact absurd h (by decide)
  · simp [isWhitespace, hc] at h
  · exact absurd h (by decide)

theorem skipWs_solid (h : isAsciiWhitespace c = false) (s : Text) : skipWs (c :: s) = c :: s := by
  rw [skipWs, List.dropWhile_cons_of_neg (by rw [h]; exact Bool.false_ne_true)]

theorem trimStart_solid {s : Text} (h : ∀ c ∈ s, isWhitespace c = false) : trimStart s = s := by
  cases s with
  | nil => rfl
  | cons c s =>
    rw [trimStart, List.dropWhile_cons_of_neg (by rw [h c List.mem_cons_self]; exact Bool.false_ne_true)]

theorem trim_solid {s : Text} (h : ∀ c ∈ s, isWhitespace c = false) : trim s = s := by
  have hend : trimStart s.reverse = s.reverse := trimStart_solid fun c hc => h c (List.mem_reverse.mp hc)
  rw [trim, trimStart_solid h]
  change (trimStart s.reverse).reverse = s
  rw [hend, List.reverse_reverse]

/-- What follows a value. -/
def EndsValue (r : Text) : Prop := ∀ c u, r = c :: u → endsBare c = true

theorem endsValue_cons (h : endsBare c = true) (u : Text) : EndsValue (c :: u) := by
  intro d v heq
  cases heq
  exact h

theorem takeWhile_bare (h : Bare s) (hr : EndsValue r) : (s ++ r).takeWhile (fun d => !endsBare d) = s ∧
    (s ++ r).dropWhile (fun d => !endsBare d) = r := by
  have hs : ∀ c ∈ s, (!endsBare c) = true := fun c hc => by rw [(h.2 c hc).ending]; rfl
  rw [List.takeWhile_append_of_pos hs, List.dropWhile_append_of_pos hs]
  cases r with
  | nil => exact ⟨List.append_nil s, rfl⟩
  | cons c u =>
    have hc : ¬ (!endsBare c) = true := by
      rw [hr c u rfl]
      exact Bool.false_ne_true
    rw [List.takeWhile_cons_of_neg (p := fun d => !endsBare d) hc, List.dropWhile_cons_of_neg (p := fun d => !endsBare d) hc,
      List.append_nil]
    exact ⟨rfl, rfl⟩

theorem value_bare (serde : GemmaSerde) (h : Bare s) (hr : EndsValue r) :
    value serde (s ++ r) = some (bareValue serde s, r) := by
  obtain ⟨htake, hdrop⟩ := takeWhile_bare h hr
  have htrim : trim s = s := trim_solid fun c hc => (h.2 c hc).space
  cases s with
  | nil => exact absurd rfl h.1
  | cons c s =>
    have hc := h.2 c List.mem_cons_self
    rw [value_eq, List.cons_append, skipWs_solid (whitespace_of_ascii hc.space)]
    rw [List.cons_append] at htake hdrop
    rw [valueFrom, if_neg (no_quote hc.quote _), if_neg hc.brace, if_neg hc.bracket, htake, hdrop, htrim]

theorem value_string (serde : GemmaSerde) (hfree : ¬ stringQuote <:+: s) (r : Text) :
    value serde (stringQuote ++ (s ++ stringQuote) ++ r) = some (.string s, r) := by
  have hhere := quote_markers.find_here hfree r
  have hquote : stringQuote.isPrefixOf (stringQuote ++ (s ++ (stringQuote ++ r))) = true :=
    List.isPrefixOf_iff_prefix.mpr (List.prefix_append _ _)
  have hdrop : (stringQuote ++ (s ++ (stringQuote ++ r))).drop stringQuote.length = s ++ (stringQuote ++ r) :=
    List.drop_left
  have hbehind : (s ++ (stringQuote ++ r)).drop (s.length + stringQuote.length) = r := by
    rw [← List.length_append, ← List.append_assoc, List.drop_left]
  have hshape : stringQuote ++ (s ++ (stringQuote ++ r)) = '<' :: ('|' :: '"' :: '|' :: '>' :: (s ++ (stringQuote ++ r))) :=
    rfl
  rw [value_eq, List.append_assoc, List.append_assoc, hshape, skipWs_solid (by decide), ← hshape]
  rw [hshape] at hquote hdrop ⊢
  rw [valueFrom, if_pos hquote, hdrop, hhere, Option.map_some, List.take_left, hbehind]

/-- A value begins with neither white space nor the end of an array. -/
theorem Spelled.head (h : Spelled (.value v) s) : ∃ c u, s = c :: u ∧ isAsciiWhitespace c = false ∧ c ≠ ']' := by
  cases h with
  | string => exact ⟨_, _, rfl, by decide, by decide⟩
  | integer =>
    rename_i n _ _
    obtain ⟨hne, hbare⟩ := integerText_bare n
    cases ht : integerText n with
    | nil => exact absurd ht hne
    | cons c u =>
      have hc := hbare c (by rw [ht]; exact List.mem_cons_self)
      refine ⟨c, u, rfl, whitespace_of_ascii hc.space, ?_⟩
      rintro rfl
      exact absurd hc.ending (by decide)
  | yes => exact ⟨_, _, rfl, by decide, by decide⟩
  | no => exact ⟨_, _, rfl, by decide, by decide⟩
  | null => exact ⟨_, _, rfl, by decide, by decide⟩
  | array => exact ⟨_, _, rfl, by decide, by decide⟩
  | object => exact ⟨_, _, rfl, by decide, by decide⟩

/-- What the descent makes of the text of a part, whatever follows. -/
def Parsed (serde : GemmaSerde) : Part → Text → Prop
  | .value v, s => ∀ r, EndsValue r → value serde (s ++ r) = some (v, r)
  | .elements values, s => ∀ done r, array serde done (s ++ ']' :: r) = some (done ++ values, ']' :: r)
  | .members fields, s => ∀ done r, (∀ c u, r = c :: u → c = '}') → ((done ++ fields).map (·.1)).Nodup →
      objectBody serde done (s ++ r) = some (.object (done ++ fields), r)

/-- An element in front of what the array goes on with. -/
theorem array_element (serde : GemmaSerde) (h : Spelled (.value v) s) (hv : value serde (s ++ r) = some (v, r))
    (done : List Value) : array serde done (s ++ r) =
      afterValue (array serde (done ++ [v])) (fun w => (done ++ [v], w)) (skipWs r) := by
  obtain ⟨c, u, rfl, hc, hclose⟩ := h.head
  rw [array_eq, List.cons_append, skipWs_solid hc, arrayFrom, if_neg hclose, ← List.cons_append, hv]
  rfl

/-- A field in front of what the object goes on with. -/
theorem object_member (serde : GemmaSerde) (hkey : KeyText key) (hv : value serde t = some (v, r))
    {done : List (Name × Value)} (hnew : key ∉ done.map (·.1)) : objectBody serde done (key ++ ':' :: t) =
      afterValue (objectBody serde (done ++ [(key, v)])) (fun w => (.object (done ++ [(key, v)]), w)) (skipWs r) := by
  have hcolon : ∀ c ∈ key, (c != ':') = true := fun c hc => bne_iff_ne.mpr (hkey.bare.2 c hc).colon
  have hstop : ¬ (':' != ':') = true := by decide
  have htake : (key ++ ':' :: t).takeWhile (· != ':') = key := by
    rw [List.takeWhile_append_of_pos hcolon, List.takeWhile_cons_of_neg (p := (· != ':')) hstop, List.append_nil]
  have hdrop : (key ++ ':' :: t).dropWhile (· != ':') = ':' :: t := by
    rw [List.dropWhile_append_of_pos hcolon, List.dropWhile_cons_of_neg (p := (· != ':')) hstop]
  have htrim : trim key = key := trim_solid fun c hc => (hkey.bare.2 c hc).space
  cases key with
  | nil => exact absurd rfl hkey.1
  | cons c k =>
    have hc := hkey.bare.2 c List.mem_cons_self
    have hbrace : c ≠ '}' := by
      rintro rfl
      exact absurd hc.ending (by decide)
    rw [List.cons_append] at htake hdrop ⊢
    rw [objectBody_eq, skipWs_solid (whitespace_of_ascii hc.space), objectFrom, if_neg hbrace, htake, hdrop, htrim,
      objectField, hv, Option.bind_some, mapInsert_new hnew]

theorem parsed_bare (serde : GemmaSerde) (h : Bare s) (hv : bareValue serde s = v) : Parsed serde (.value v) s := by
  intro r hr
  rw [value_bare serde h hr, hv]

theorem bareValue_integer (serde : GemmaSerde) (hlo : -2 ^ 63 ≤ n) (hhi : n < 2 ^ 63) :
    bareValue serde (integerText n) = integer n := by
  have hne : ∀ w : Text, parseI64 w = none → integerText n ≠ w := by
    rintro w hw rfl
    rw [parseI64_text hlo hhi] at hw
    cases hw
  rw [bareValue, if_neg (hne _ rfl), if_neg (hne _ rfl), if_neg (hne _ rfl), parseI64_text hlo hhi]

theorem Spelled.parsed (serde : GemmaSerde) (h : Spelled part s) : Parsed serde part s := by
  induction h with
  | string _ hfree => exact fun r _ => value_string serde hfree r
  | integer hlo hhi => exact parsed_bare serde (integerText_bare _) (bareValue_integer serde hlo hhi)
  | yes => exact parsed_bare serde ⟨by decide, fun c hc => bare_of_alphanum (List.all_eq_true.mp (by decide) c hc)⟩ rfl
  | no => exact parsed_bare serde ⟨by decide, fun c hc => bare_of_alphanum (List.all_eq_true.mp (by decide) c hc)⟩ rfl
  | null => exact parsed_bare serde ⟨by decide, fun c hc => bare_of_alphanum (List.all_eq_true.mp (by decide) c hc)⟩ rfl
  | array _ ih =>
    intro r _
    have hin := ih [] r
    rw [List.cons_append, List.append_assoc, List.singleton_append, value_eq, skipWs_solid (by decide), valueFrom,
      if_neg (no_quote (by decide) _), if_neg (by decide), if_pos rfl, hin]
    rfl
  | object hkeys _ ih =>
    intro r _
    have hin := ih [] ('}' :: r) (fun c u heq => (List.cons.inj heq).1.symm) hkeys
    rw [List.cons_append, List.append_assoc, List.singleton_append, value_eq, skipWs_solid (by decide), valueFrom,
      if_neg (no_quote (by decide) _), if_pos rfl, hin]
    rfl
  | noElements =>
    intro done r
    rw [List.nil_append, array_eq, skipWs_solid (by decide), arrayFrom, if_pos rfl, List.append_nil]
  | lastElement h ih =>
    intro done r
    rw [array_element serde h (ih _ (endsValue_cons rfl r)), skipWs_solid (by decide)]
    rfl
  | @element v s w values t h _ ihs iht =>
    intro done r
    rw [List.append_assoc, List.cons_append, array_element serde h (ihs _ (endsValue_cons rfl _)), skipWs_solid (by decide)]
    have hrest := iht (done ++ [v]) r
    rw [List.append_assoc] at hrest
    exact hrest
  | noMembers =>
    intro done r hr _
    rw [List.nil_append, List.append_nil, objectBody_eq]
    cases r with
    | nil => rfl
    | cons c u =>
      cases hr c u rfl
      rw [skipWs_solid (by decide), objectFrom, if_pos rfl]
  | @lastMember key v s hkey h ih =>
    intro done r hr hnodup
    have hnew : key ∉ done.map (·.1) := by
      rw [List.map_append] at hnodup
      exact fun hmem => (List.nodup_append.mp hnodup).2.2 _ hmem _ List.mem_cons_self rfl
    have hends : EndsValue r := by
      rintro c u rfl
      cases hr c u rfl
      rfl
    rw [List.append_assoc, List.cons_append, object_member serde hkey (ih r hends) hnew]
    cases r with
    | nil => rfl
    | cons c u =>
      cases hr c u rfl
      rfl
  | @member key v s f fields t hkey h _ ihs iht =>
    intro done r hr hnodup
    have hnew : key ∉ done.map (·.1) := by
      rw [List.map_append, List.map_cons] at hnodup
      exact fun hmem => (List.nodup_append.mp hnodup).2.2 _ hmem _ List.mem_cons_self rfl
    have hsame : done ++ (key, v) :: f :: fields = (done ++ [(key, v)]) ++ f :: fields := by
      rw [List.append_assoc]
      rfl
    rw [hsame] at hnodup ⊢
    rw [List.append_assoc, List.cons_append, List.append_assoc, List.cons_append,
      object_member serde hkey (ihs (',' :: (t ++ r)) (endsValue_cons rfl _)) hnew, skipWs_solid (by decide)]
    exact iht _ r hr hnodup

/-- The body of the arguments reads as the object. -/
theorem parseArgsBody_spelled (serde : GemmaSerde) (hkeys : (fields.map (·.1)).Nodup) (h : Spelled (.members fields) s) :
    parseArgsBody serde s = some (.object fields) := by
  have hbody : objectBody serde [] s = some (.object fields, []) := by
    have hparsed := (h.parsed serde) [] [] nofun hkeys
    rwa [List.append_nil] at hparsed
  rw [parseArgsBody_eq, hbody]
  split
  · rename_i hempty
    rw [objectBody_eq, List.isEmpty_iff.mp hempty] at hbody
    cases hbody
    rfl
  · rfl

end Flambeau.Server.ToolCallParser.Gemma4
