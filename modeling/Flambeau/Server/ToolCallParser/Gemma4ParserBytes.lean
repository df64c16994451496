import Flambeau.Server.ToolCallParser.Gemma4Bytes
import Flambeau.Server.ToolCallParser.Gemma4Parser

namespace Flambeau.Server.ToolCallParser.Gemma4
open Flambeau.Stream Flambeau.Runtime.JsonSchema

/-! What the recursive descent leaves is a tail of its text. -/

theorem skipWs_suffix (s : Text) : skipWs s <:+ s := List.dropWhile_suffix isAsciiWhitespace

theorem skipWs_skipWs (s : Text) : skipWs (skipWs s) = skipWs s := by
  unfold skipWs
  cases hd : s.dropWhile isAsciiWhitespace with
  | nil => rfl
  | cons c t =>
    have hnot := List.head_dropWhile_not isAsciiWhitespace (l := s) (by rw [hd]; exact List.cons_ne_nil c t)
    simp only [hd, List.head_cons] at hnot
    rw [List.dropWhile_cons_of_neg (by rw [hnot]; exact Bool.false_ne_true)]

theorem closed_suffix (c : Char) (s : Text) : closed c s <:+ s := by
  unfold closed
  split
  · exact List.drop_suffix 1 s
  · exact List.suffix_refl s

theorem afterValue_some {next : Text → Option β} {stop : Text → β} {s : Text} (h : afterValue next stop s = some x) :
    (∃ w, s = ',' :: w ∧ next w = some x) ∨ ((∀ w, s ≠ ',' :: w) ∧ x = stop s) := by
  unfold afterValue at h
  split at h
  · exact .inl ⟨_, rfl, h⟩
  · rename_i hne
    exact .inr ⟨hne, (Option.some.inj h).symm⟩

section
variable (serde : GemmaSerde)

/-- The rests of the texts shorter than `n` are tails. -/
def Tails (n : Nat) : Prop :=
  (∀ obj s x, s.length < n → objectBody serde obj s = some x → x.2 <:+ s) ∧
    (∀ s x, s.length < n → value serde s = some x → x.2 <:+ s) ∧
      ∀ values s x, s.length < n → array serde values s = some x → x.2 <:+ s

variable {serde}

theorem objectBody_tail (ih : Tails serde n) (hs : s.length ≤ n) (h : objectBody serde obj s = some x) : x.2 <:+ s := by
  rw [objectBody_eq] at h
  have hskip := skipWs_suffix s
  cases hw : skipWs s with
  | nil =>
    rw [hw] at h
    cases h
    exact List.nil_suffix
  | cons c t =>
    rw [hw] at h hskip
    dsimp only [objectFrom] at h
    split at h
    · cases h
      exact hskip
    · have hdrop : (c :: t).dropWhile (· != ':') <:+ c :: t := List.dropWhile_suffix _
      unfold objectField at h
      split at h
      · cases h
      · rename_i d u hu
        rw [hu] at hdrop
        have hus : u <:+ s := ((List.suffix_cons d u).trans hdrop).trans hskip
        have hlen : u.length < n := by
          have hle := (hdrop.trans hskip).length_le
          rw [List.length_cons] at hle
          omega
        obtain ⟨v, hv, h⟩ := Option.bind_eq_some_iff.mp h
        have hrest := ih.2.1 u v hlen hv
        rcases afterValue_some h with ⟨w, hcomma, hnext⟩ | ⟨-, rfl⟩
        · have hws : w <:+ u := ((List.suffix_cons ',' w).trans (hcomma ▸ skipWs_suffix v.2)).trans hrest
          have hwlen : w.length < n := Nat.lt_of_le_of_lt hws.length_le hlen
          exact ((ih.1 _ w x hwlen hnext).trans hws).trans hus
        · exact ((skipWs_suffix v.2).trans hrest).trans hus

theorem value_tail (ih : Tails serde n) (hs : s.length ≤ n) (h : value serde s = some x) : x.2 <:+ s := by
  rw [value_eq] at h
  have hskip := skipWs_suffix s
  cases hw : skipWs s with
  | nil =>
    rw [hw] at h
    cases h
    exact List.nil_suffix
  | cons c t =>
    rw [hw] at h hskip
    have hts : t <:+ s := (List.suffix_cons c t).trans hskip
    have hlen : t.length < n := by
      have hle := hskip.length_le
      rw [List.length_cons] at hle
      omega
    dsimp only [valueFrom] at h
    split at h
    · obtain ⟨k, -, rfl⟩ := Option.map_eq_some_iff.mp h
      exact ((List.drop_suffix _ _).trans (List.drop_suffix _ _)).trans hskip
    split at h
    · obtain ⟨v, hv, rfl⟩ := Option.map_eq_some_iff.mp h
      exact ((closed_suffix _ _).trans (ih.1 [] t v hlen hv)).trans hts
    split at h
    · obtain ⟨v, hv, rfl⟩ := Option.map_eq_some_iff.mp h
      exact ((closed_suffix _ _).trans (ih.2.2 [] t v hlen hv)).trans hts
    · cases h
      exact (List.dropWhile_suffix _).trans hskip

theorem array_tail (ih : Tails serde n) (hs : s.length ≤ n) (h : array serde values s = some x) : x.2 <:+ s := by
  rw [array_eq] at h
  have hskip := skipWs_suffix s
  cases hw : skipWs s with
  | nil =>
    rw [hw] at h
    cases h
    exact List.nil_suffix
  | cons c t =>
    rw [hw] at h hskip
    have hlen : t.length < n := by
      have hle := hskip.length_le
      rw [List.length_cons] at hle
      omega
    dsimp only [arrayFrom] at h
    split at h
    · cases h
      exact hskip
    · obtain ⟨v, hv, h⟩ := Option.bind_eq_some_iff.mp h
      have hrest := value_tail ih hs hv
      rcases afterValue_some h with ⟨w, hcomma, hnext⟩ | ⟨-, rfl⟩
      · have hws : w <:+ s := ((List.suffix_cons ',' w).trans (hcomma ▸ skipWs_suffix v.2)).trans hrest
        have hwlen : w.length < n := by
          have hle := ((hcomma ▸ skipWs_suffix v.2).trans hrest).length_le
          rw [List.length_cons] at hle
          omega
        exact (ih.2.2 _ w x hwlen hnext).trans hws
      · exact (skipWs_suffix v.2).trans hrest

theorem tails (n : Nat) : Tails serde n := by
  induction n with
  | zero => exact ⟨fun _ _ _ h => absurd h (Nat.not_lt_zero _), fun _ _ h => absurd h (Nat.not_lt_zero _),
      fun _ _ _ h => absurd h (Nat.not_lt_zero _)⟩
  | succ n ih =>
    exact ⟨fun _ _ _ hs h => objectBody_tail ih (Nat.lt_succ_iff.mp hs) h,
      fun _ _ hs h => value_tail ih (Nat.lt_succ_iff.mp hs) h,
      fun _ _ _ hs h => array_tail ih (Nat.lt_succ_iff.mp hs) h⟩

theorem value_suffix (h : value serde s = some x) : x.2 <:+ s := (tails (s.length + 1)).2.1 s x (Nat.lt_succ_self _) h

theorem objectBody_suffix (h : objectBody serde obj s = some x) : x.2 <:+ s :=
  (tails (s.length + 1)).1 obj s x (Nat.lt_succ_self _) h

theorem array_suffix (h : array serde values s = some x) : x.2 <:+ s :=
  (tails (s.length + 1)).2.2 values s x (Nat.lt_succ_self _) h

end

/-! The positions of the parser are those of the tails. -/

section
variable {s r : Text}

theorem advanceWhile_offset {p : UInt8 → Bool} {q : Char → Bool}
    (hascii : ∀ c : Char, c.toNat < 128 → p c.toUInt8 = q c)
    (hwide : ∀ c : Char, ¬ c.toNat < 128 → ∀ b ∈ String.utf8EncodeChar c, p b = q c) (h : r <:+ s) :
    Bytes.advanceWhile p s (offset s r) = offset s (r.dropWhile q) := by
  have hsplit : r.takeWhile q ++ r.dropWhile q <:+ s := by rwa [List.takeWhile_append_dropWhile]
  have hadd := offset_add hsplit
  rw [List.takeWhile_append_dropWhile] at hadd
  rw [Bytes.advanceWhile, bytes_offset h, takeWhile_bytes hascii hwide, bytes_length, hadd]

theorem ascii_beq {c d : Char} (hc : c.toNat < 128) (hd : d.toNat < 128) : (c.toUInt8 == d.toUInt8) = (c == d) := by
  rw [Bool.eq_iff_iff, beq_iff_eq, beq_iff_eq, toUInt8_eq hc hd]

theorem wide_beq {c d : Char} (hc : ¬ c.toNat < 128) (hd : d.toNat < 128) {b : UInt8} (hb : b ∈ String.utf8EncodeChar c) :
    (b == d.toUInt8) = (c == d) := by
  rw [Bool.eq_iff_iff, beq_iff_eq, beq_iff_eq, ascii_byte hd hb]

theorem skipWs_offset (h : r <:+ s) : Bytes.skipWs s (offset s r) = offset s (skipWs r) := by
  refine advanceWhile_offset ?_ ?_ h
  · intro c hc
    have h20 := ascii_beq hc (d := ' ') (by decide)
    have h09 := ascii_beq hc (d := '\t') (by decide)
    have h0A := ascii_beq hc (d := '\n') (by decide)
    have h0D := ascii_beq hc (d := '\r') (by decide)
    have h0C : (c.toUInt8 == 0x0C) = (c.toNat == 0x0C) := by
      rw [Bool.eq_iff_iff, beq_iff_eq, beq_iff_eq, ← UInt8.toNat_inj, toUInt8_ascii hc]
      rfl
    unfold Bytes.isAsciiWhitespace isAsciiWhitespace
    rw [← h20, ← h09, ← h0A, ← h0D, ← h0C]
    rfl
  · intro c hc b hb
    have hb := utf8EncodeChar_wide hc hb
    have hbyte : Bytes.isAsciiWhitespace b = false := by
      have hne : ∀ w : UInt8, w.toNat < 128 → (b == w) = false := by
        intro w hw
        rw [beq_eq_false_iff_ne]
        rintro rfl
        omega
      unfold Bytes.isAsciiWhitespace
      rw [hne 0x20 (by decide), hne 0x09 (by decide), hne 0x0A (by decide), hne 0x0C (by decide), hne 0x0D (by decide)]
      rfl
    have hchar : isAsciiWhitespace c = false := by
      have hne : ∀ d : Char, d.toNat < 128 → (c == d) = false := by
        intro d hd
        rw [beq_eq_false_iff_ne]
        rintro rfl
        exact hc hd
      unfold isAsciiWhitespace
      rw [hne ' ' (by decide), hne '\t' (by decide), hne '\n' (by decide), hne '\r' (by decide)]
      simp only [Bool.false_or, Bool.or_false, beq_eq_false_iff_ne]
      omega
    rw [hbyte, hchar]

theorem peek_offset (h : r <:+ s) {d : Char} (hd : d.toNat < 128) :
    Bytes.peek s (offset s r) = some d.toUInt8 ↔ r.head? = some d := by
  rw [← bytes_head hd r, ← bytes_offset h, List.head?_drop]
  exact Iff.rfl

theorem isEof_offset (h : r <:+ s) : Bytes.isEof s (offset s r) = r.isEmpty := by
  rw [Bytes.isEof, Bool.eq_iff_iff, decide_eq_true_eq, offset_end h, List.isEmpty_iff]

theorem startsWith_offset (h : r <:+ s) (pat : Text) : Bytes.startsWith s (offset s r) pat = some (pat.isPrefixOf r) := by
  rw [Bytes.startsWith, sliceFrom_offset h]
  rfl

theorem passCloser_offset (h : r <:+ s) {c : Char} (hc : c.toNat < 128) :
    Bytes.passCloser c s (offset s r) = offset s (closed c r) := by
  unfold Bytes.passCloser closed
  by_cases hhead : r.head? = some c
  · obtain ⟨t, rfl⟩ := List.head?_eq_some_iff.mp hhead
    rw [if_pos ((peek_offset h hc).mpr hhead), if_pos hhead, offset_letter hc h]
    rfl
  · rw [if_neg (fun hp => hhead ((peek_offset h hc).mp hp)), if_neg hhead]

end

/-! The recursive descent by positions. -/

section
variable (serde : GemmaSerde) (s : Text)

/-- A result with its tail as a position. -/
def atOffset (x : β × Text) : β × Nat := (x.1, offset s x.2)

/-- With enough rounds the positions follow the tails, for tails shorter than `n`. -/
def Follows (n : Nat) : Prop :=
  (∀ rounds obj r, r <:+ s → r.length < n → 2 * r.length < rounds →
    Bytes.parseObjectBody serde s rounds obj (offset s r) = some ((objectBody serde obj r).map (atOffset s))) ∧
  (∀ rounds r, r <:+ s → r.length < n → 2 * r.length < rounds →
    Bytes.parseValue serde s rounds (offset s r) = some ((value serde r).map (atOffset s))) ∧
  ∀ rounds values r, r <:+ s → r.length < n → 2 * r.length + 1 < rounds →
    Bytes.parseArray serde s rounds values (offset s r) = some ((array serde values r).map (atOffset s))

variable {serde s}

theorem parseObjectBody_offset (ih : Follows serde s n) (hr : r <:+ s) (hlen : r.length ≤ n) (hrounds : 2 * r.length < rounds)
    (obj : List (Name × Value)) :
    Bytes.parseObjectBody serde s rounds obj (offset s r) = some ((objectBody serde obj r).map (atOffset s)) := by
  obtain ⟨rounds, rfl⟩ := Nat.exists_eq_add_of_le' (Nat.zero_lt_of_lt hrounds)
  have hskip := skipWs_suffix r
  have hle := hskip.length_le
  have hws := hskip.trans hr
  rw [objectBody_eq, Bytes.parseObjectBody, skipWs_offset hr]
  dsimp only
  rw [isEof_offset hws]
  generalize skipWs r = w at hskip hle hws
  cases w with
  | nil => rfl
  | cons c t =>
    rw [List.isEmpty_cons, Bool.false_or]
    dsimp only [objectFrom]
    by_cases hc : c = '}'
    · subst hc
      rw [if_pos (by rw [beq_iff_eq]; exact (peek_offset hws (by decide)).mpr rfl), if_pos rfl]
      rfl
    rw [if_neg (by rw [beq_iff_eq, peek_offset hws (by decide)]; exact fun h => hc (Option.some.inj h)), if_neg hc]
    have hstop : Bytes.advanceWhile (· != ':'.toUInt8) s (offset s (c :: t)) =
        offset s ((c :: t).dropWhile (· != ':')) := by
      refine advanceWhile_offset ?_ ?_ hws
      · intro d hd
        rw [bne, bne, ascii_beq hd (by decide)]
      · intro d hd b hb
        rw [bne, bne, wide_beq hd (by decide) hb]
    rw [hstop]
    have hsplit : (c :: t).takeWhile (· != ':') ++ (c :: t).dropWhile (· != ':') <:+ s := by
      rwa [List.takeWhile_append_dropWhile]
    have hkey := slice_offset hsplit
    rw [List.takeWhile_append_dropWhile] at hkey
    rw [hkey, Option.bind_some]
    have hdrop : (c :: t).dropWhile (· != ':') <:+ c :: t := List.dropWhile_suffix _
    have hcolon : ∀ d u, (c :: t).dropWhile (· != ':') = d :: u → d = ':' := by
      intro d u hu
      have hnot := List.head_dropWhile_not (· != ':') (l := c :: t) (by rw [hu]; exact List.cons_ne_nil d u)
      simp only [hu, List.head_cons] at hnot
      simpa using hnot
    generalize (c :: t).dropWhile (· != ':') = rest at hdrop hcolon hsplit
    generalize (c :: t).takeWhile (· != ':') = key
    have hrest := hdrop.trans hws
    unfold objectField
    cases rest with
    | nil =>
      rw [if_pos ?_]
      · rfl
      · intro hp
        cases (peek_offset hrest (by decide)).mp hp
    | cons d u =>
      cases hcolon d u rfl
      rw [if_neg (fun hne => hne ((peek_offset hrest (by decide)).mpr rfl)), offset_letter (by decide) hrest]
      have hu : u <:+ s := (List.suffix_cons ':' u).trans hrest
      have hulen : u.length + 1 ≤ r.length := by
        have hle' := hdrop.length_le
        rw [List.length_cons] at hle'
        omega
      have hwu := (skipWs_suffix u).trans hu
      have hwulen := (skipWs_suffix u).length_le
      rw [skipWs_offset hu, ih.2.1 rounds (skipWs u) hwu (by omega) (by omega), Option.bind_some]
      have hvalue : value serde (skipWs u) = value serde u := by rw [value_eq, value_eq, skipWs_skipWs]
      rw [hvalue]
      dsimp only
      cases hv : value serde u with
      | none => rfl
      | some x =>
        obtain ⟨v, r'⟩ := x
        have hr' : r' <:+ u := value_suffix hv
        rw [Option.map_some, Option.bind_some]
        unfold atOffset
        dsimp only
        rw [skipWs_offset (hr'.trans hu)]
        have hws' := ((skipWs_suffix r').trans hr').trans hu
        have hlen' := ((skipWs_suffix r').trans hr').length_le
        generalize skipWs r' = w' at hws' hlen'
        by_cases hcomma : ∃ w, w' = ',' :: w
        · obtain ⟨w, rfl⟩ := hcomma
          have hw : w <:+ s := (List.suffix_cons ',' w).trans hws'
          rw [List.length_cons] at hlen'
          rw [if_pos ((peek_offset hws' (by decide)).mpr rfl), offset_letter (by decide) hws',
            ih.1 rounds _ w hw (by omega) (by omega)]
          rfl
        · have hne : ∀ w, w' ≠ ',' :: w := fun w hw => hcomma ⟨w, hw⟩
          rw [if_neg ?_, afterValue_stop hne]
          · rfl
          · intro hp
            obtain ⟨w, hw⟩ := List.head?_eq_some_iff.mp ((peek_offset hws' (by decide)).mp hp)
            exact hne w hw

theorem parseValue_offset (ih : Follows serde s n) (hr : r <:+ s) (hlen : r.length ≤ n) (hrounds : 2 * r.length < rounds) :
    Bytes.parseValue serde s rounds (offset s r) = some ((value serde r).map (atOffset s)) := by
  obtain ⟨rounds, rfl⟩ := Nat.exists_eq_add_of_le' (Nat.zero_lt_of_lt hrounds)
  have hskip := skipWs_suffix r
  have hle := hskip.length_le
  have hws := hskip.trans hr
  rw [value_eq, Bytes.parseValue, skipWs_offset hr]
  dsimp only
  rw [isEof_offset hws]
  generalize skipWs r = w at hskip hle hws
  cases w with
  | nil => rfl
  | cons c t =>
    rw [List.isEmpty_cons, if_neg Bool.false_ne_true, startsWith_offset hws, Option.bind_some]
    dsimp only [valueFrom]
    have ht : t <:+ s := (List.suffix_cons c t).trans hws
    have htlen : t.length + 1 ≤ r.length := hle
    by_cases hquote : stringQuote.isPrefixOf (c :: t) = true
    · rw [if_pos hquote, if_pos hquote]
      obtain ⟨u, hu⟩ := List.isPrefixOf_iff_prefix.mp hquote
      have hdrop : (c :: t).drop stringQuote.length = u := by rw [← hu, List.drop_left]
      have hstart : offset s (c :: t) + byteLen stringQuote = offset s u := by
        have hus : stringQuote ++ u <:+ s := by rwa [hu]
        have hadd := offset_add hus
        rwa [hu] at hadd
      have hus : u <:+ s := (hu ▸ List.suffix_append stringQuote u : u <:+ c :: t).trans hws
      rw [hstart, sliceFrom_offset hus, Option.bind_some, hdrop]
      cases hf : find stringQuote u with
      | none => rw [findByte_none hf]; rfl
      | some k =>
        rw [findByte_some hf]
        dsimp only
        have hsplit : u.take k ++ u.drop k <:+ s := by rwa [List.take_append_drop]
        have hend : offset s u + byteAt u k = offset s (u.drop k) := by
          have hadd := offset_add hsplit
          rwa [List.take_append_drop] at hadd
        have htext := slice_offset hsplit
        rw [List.take_append_drop] at htext
        have hbehind : offset s (u.drop k) + byteLen stringQuote = offset s (u.drop (k + stringQuote.length)) := by
          have hparts := find_drop hf
          have hk : stringQuote ++ u.drop (k + stringQuote.length) <:+ s := by
            rw [← hparts]
            exact (List.drop_suffix k u).trans hus
          have hadd := offset_add hk
          rwa [← hparts] at hadd
        rw [hend, htext, hbehind]
        rfl
    rw [if_neg hquote, if_neg hquote]
    by_cases hobj : c = '{'
    · subst hobj
      rw [if_pos ((peek_offset hws (by decide)).mpr rfl), if_pos rfl, offset_letter (by decide) hws,
        ih.1 rounds [] t ht (by omega) (by omega), Option.map_some, Option.map_map, Option.map_map]
      cases hv : objectBody serde [] t with
      | none => rfl
      | some x =>
        have hx := (objectBody_suffix hv).trans ht
        rw [Option.map_some, Option.map_some, Function.comp_apply, Function.comp_apply]
        unfold atOffset
        dsimp only
        rw [passCloser_offset hx (by decide)]
    rw [if_neg (by rw [peek_offset hws (by decide)]; exact fun h => hobj (Option.some.inj h)), if_neg hobj]
    by_cases harr : c = '['
    · subst harr
      rw [if_pos ((peek_offset hws (by decide)).mpr rfl), if_pos rfl, offset_letter (by decide) hws,
        ih.2.2 rounds [] t ht (by omega) (by omega), Option.map_some, Option.map_map, Option.map_map]
      cases hv : array serde [] t with
      | none => rfl
      | some x =>
        have hx := (array_suffix hv).trans ht
        rw [Option.map_some, Option.map_some, Function.comp_apply, Function.comp_apply]
        unfold atOffset
        dsimp only
        rw [passCloser_offset hx (by decide)]
    rw [if_neg (by rw [peek_offset hws (by decide)]; exact fun h => harr (Option.some.inj h)), if_neg harr]
    have hstop : Bytes.advanceWhile
        (fun b => !(b == ','.toUInt8 || b == '}'.toUInt8 || b == ']'.toUInt8)) s (offset s (c :: t)) =
        offset s ((c :: t).dropWhile fun d => !endsBare d) := by
      refine advanceWhile_offset ?_ ?_ hws
      · intro d hd
        rw [endsBare, ascii_beq hd (by decide), ascii_beq hd (by decide), ascii_beq hd (by decide)]
      · intro d hd b hb
        rw [endsBare, wide_beq hd (by decide) hb, wide_beq hd (by decide) hb, wide_beq hd (by decide) hb]
    have hsplit : (c :: t).takeWhile (fun d => !endsBare d) ++ (c :: t).dropWhile (fun d => !endsBare d) <:+ s := by
      rwa [List.takeWhile_append_dropWhile]
    have hraw := slice_offset hsplit
    rw [List.takeWhile_append_dropWhile] at hraw
    rw [hstop, hraw]
    rfl

theorem parseArray_offset (ih : Follows serde s n) (hr : r <:+ s) (hlen : r.length ≤ n)
    (hrounds : 2 * r.length + 1 < rounds) (values : List Value) :
    Bytes.parseArray serde s rounds values (offset s r) = some ((array serde values r).map (atOffset s)) := by
  obtain ⟨rounds, rfl⟩ := Nat.exists_eq_add_of_le' (Nat.zero_lt_of_lt hrounds)
  have hskip := skipWs_suffix r
  have hle := hskip.length_le
  have hws := hskip.trans hr
  have hvalue : value serde r = value serde (skipWs r) := by rw [value_eq, value_eq, skipWs_skipWs]
  rw [array_eq, Bytes.parseArray, skipWs_offset hr]
  dsimp only
  rw [isEof_offset hws]
  generalize skipWs r = w at hskip hle hws hvalue
  cases w with
  | nil => rfl
  | cons c t =>
    rw [List.isEmpty_cons, Bool.false_or]
    dsimp only [arrayFrom]
    rw [hvalue]
    by_cases hc : c = ']'
    · subst hc
      rw [if_pos (by rw [beq_iff_eq]; exact (peek_offset hws (by decide)).mpr rfl), if_pos rfl]
      rfl
    rw [if_neg (by rw [beq_iff_eq, peek_offset hws (by decide)]; exact fun h => hc (Option.some.inj h)), if_neg hc,
      parseValue_offset ih hws (by omega) (by omega), Option.bind_some]
    cases hv : value serde (c :: t) with
    | none => rfl
    | some x =>
      obtain ⟨v, r'⟩ := x
      have hr' : r' <:+ c :: t := value_suffix hv
      rw [Option.map_some, Option.bind_some]
      unfold atOffset
      dsimp only
      rw [skipWs_offset (hr'.trans hws)]
      have hws' := ((skipWs_suffix r').trans hr').trans hws
      have hlen' := ((skipWs_suffix r').trans hr').length_le
      generalize skipWs r' = w' at hws' hlen'
      by_cases hcomma : ∃ w, w' = ',' :: w
      · obtain ⟨w, rfl⟩ := hcomma
        have hw : w <:+ s := (List.suffix_cons ',' w).trans hws'
        rw [List.length_cons] at hlen'
        rw [if_pos ((peek_offset hws' (by decide)).mpr rfl), offset_letter (by decide) hws',
          ih.2.2 rounds _ w hw (by omega) (by omega)]
        rfl
      · have hne : ∀ w, w' ≠ ',' :: w := fun w hw => hcomma ⟨w, hw⟩
        rw [if_neg ?_, afterValue_stop hne]
        · rfl
        · intro hp
          obtain ⟨w, hw⟩ := List.head?_eq_some_iff.mp ((peek_offset hws' (by decide)).mp hp)
          exact hne w hw

theorem follows (serde : GemmaSerde) (s : Text) (n : Nat) : Follows serde s n := by
  induction n with
  | zero => exact ⟨fun _ _ _ _ h => absurd h (Nat.not_lt_zero _), fun _ _ _ h => absurd h (Nat.not_lt_zero _),
      fun _ _ _ _ h => absurd h (Nat.not_lt_zero _)⟩
  | succ n ih =>
    exact ⟨fun _ obj _ hr hlen hrounds => parseObjectBody_offset ih hr (Nat.lt_succ_iff.mp hlen) hrounds obj,
      fun _ _ hr hlen hrounds => parseValue_offset ih hr (Nat.lt_succ_iff.mp hlen) hrounds,
      fun _ values _ hr hlen hrounds => parseArray_offset ih hr (Nat.lt_succ_iff.mp hlen) hrounds values⟩

end

/-- By positions or by tails, the arguments are the same. -/
theorem parseArgsBody_bytes (serde : GemmaSerde) (body : Text) :
    Bytes.parseArgsBody serde body = some (parseArgsBody serde body) := by
  have hself := List.suffix_refl body
  have hzero : (0 : Nat) = offset body body := (offset_self body).symm
  have hws := (skipWs_suffix body).trans hself
  have hobject : objectBody serde [] body = objectBody serde [] (skipWs body) := by
    rw [objectBody_eq, objectBody_eq, skipWs_skipWs]
  unfold Bytes.parseArgsBody
  dsimp only
  rw [parseArgsBody_eq, hzero, skipWs_offset hself, isEof_offset hws]
  by_cases hempty : (skipWs body).isEmpty = true
  · rw [if_pos hempty, if_pos hempty]
  · have hle := (skipWs_suffix body).length_le
    have hbytes := length_le_byteLen body
    rw [if_neg hempty, if_neg hempty,
      (follows serde body (body.length + 1)).1 _ [] (skipWs body) hws (by omega) (by omega), Option.map_some, Option.map_map,
      hobject]
    rfl

end Flambeau.Server.ToolCallParser.Gemma4
