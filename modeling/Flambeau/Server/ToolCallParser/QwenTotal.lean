import Flambeau.Server.ToolCallParser.QwenBytes
import Flambeau.Server.ToolCallParser.QwenPieces
import Flambeau.Stream.Loop

namespace Flambeau.Server.ToolCallParser.QwenCoder
open Flambeau.Stream Flambeau.Runtime.JsonSchema

/-! Every slice is at a char boundary. -/

/-- An opening tag by its byte offsets. -/
def FunctionOpen.inBytes (buf : Text) (o : FunctionOpen) : FunctionOpen :=
  ⟨byteAt buf o.start, byteAt (buf.drop o.start) o.tagLen, o.name⟩

theorem FunctionOpen.inBytes_behind (buf : Text) (o : FunctionOpen) :
    (o.inBytes buf).start + (o.inBytes buf).tagLen = byteAt buf (o.start + o.tagLen) :=
  (byteAt_add buf o.start o.tagLen).symm

theorem canonicalOpen_bytes (buf : Text) :
    Bytes.canonicalOpen buf = some ((canonicalOpen buf).map (·.inBytes buf)) := by
  unfold Bytes.canonicalOpen canonicalOpen
  cases hp : find functionOpen buf with
  | none =>
    rw [findByte_none hp]
    rfl
  | some p =>
    rw [findByte_some hp]
    dsimp only
    rw [← find_behind hp, sliceFrom_at, Option.bind_some, Option.bind_some]
    cases hgt : find ['>'] (buf.drop (p + functionOpen.length)) with
    | none =>
      rw [findByte_none hgt]
      rfl
    | some gt =>
      have hname : slice buf (byteAt buf (p + functionOpen.length))
          (byteAt buf (p + functionOpen.length) + byteAt (buf.drop (p + functionOpen.length)) gt) =
          some ((buf.drop (p + functionOpen.length)).take gt) := by
        rw [← byteAt_add, slice_at _ (Nat.le_add_right _ _), List.drop_take, Nat.add_sub_cancel_left]
      have htag : byteAt (buf.drop p) (functionOpen.length + gt + 1) =
          byteAt buf (p + functionOpen.length) + byteAt (buf.drop (p + functionOpen.length)) gt + 1 - byteAt buf p := by
        have hclose : byteAt (buf.drop (p + functionOpen.length)) (gt + 1) =
            byteAt (buf.drop (p + functionOpen.length)) gt + 1 := find_behind hgt
        have hall : byteAt buf (p + (functionOpen.length + (gt + 1))) = _ := byteAt_add buf p _
        rw [← Nat.add_assoc p, byteAt_add, hclose] at hall
        rw [Nat.add_assoc functionOpen.length]
        omega
      rw [findByte_some hgt]
      dsimp only
      rw [hname, Option.map_some, Option.map_some, Option.map_some, FunctionOpen.inBytes]
      dsimp only
      rw [htag]

/-- The offsets around a tag. -/
theorem tag_offsets {s : Text} (hlt : find ['<'] s = some lt) (hgt : find ['>'] (s.drop lt) = some gt) :
    0 < gt ∧ byteAt s (lt + 1) = byteAt s lt + 1 ∧ byteAt s (lt + gt) = byteAt s lt + byteAt (s.drop lt) gt ∧
      byteAt s (lt + gt + 1) = byteAt s (lt + gt) + 1 := by
  have hpos : 0 < gt := by
    have hhead : s.drop lt = '<' :: s.drop (lt + 1) := find_drop hlt
    have hat := find_drop hgt
    cases gt with
    | zero =>
      rw [List.drop_zero, hhead] at hat
      cases hat
    | succ gt => exact Nat.succ_pos gt
  have hclose : byteAt (s.drop lt) (gt + 1) = byteAt (s.drop lt) gt + 1 := find_behind hgt
  refine ⟨hpos, find_behind hlt, byteAt_add s lt gt, ?_⟩
  rw [Nat.add_assoc, byteAt_add, hclose, byteAt_add]
  rfl

/-- Enough rounds find what the scan in characters finds. -/
theorem bareOpen_bytes (buf : Text) (n : Nat) (h : (buf.drop n).length < rounds) :
    Bytes.bareOpen buf rounds (byteAt buf n) =
      some ((bareOpen (buf.drop n)).map fun o => FunctionOpen.inBytes buf { o with start := n + o.start }) := by
  induction rounds generalizing n with
  | zero => exact absurd h (Nat.not_lt_zero _)
  | succ rounds ih =>
    rw [Bytes.bareOpen, sliceFrom_at, Option.bind_some]
    cases hlt : find ['<'] (buf.drop n) with
    | none =>
      rw [findByte_none hlt, bareOpen_prose hlt]
      rfl
    | some lt =>
      rw [findByte_some hlt]
      dsimp only
      rw [sliceFrom_shift, Option.bind_some]
      cases hgt : find ['>'] ((buf.drop n).drop lt) with
      | none =>
        rw [findByte_none hgt, bareOpen_unclosed hlt hgt]
        rfl
      | some gt =>
        obtain ⟨hpos, hopen, hstop, hbehind⟩ := tag_offsets hlt hgt
        have hshort : ((buf.drop n).drop (lt + gt + 1)).length < (buf.drop n).length := bareOpen_descends hlt
        have hrest : Bytes.bareOpen buf rounds (byteAt buf n + byteAt (buf.drop n) (lt + gt + 1)) =
            some (((bareOpen ((buf.drop n).drop (lt + gt + 1))).map fun o =>
              { o with start := lt + gt + 1 + o.start }).map fun o =>
                FunctionOpen.inBytes buf { o with start := n + o.start }) := by
          rw [List.drop_drop] at hshort ⊢
          rw [← byteAt_add, ih _ (by omega), Option.map_map]
          simp only [Function.comp_def, Nat.add_assoc]
        rw [findByte_some hgt]
        dsimp only
        rw [Nat.add_assoc (byteAt buf n) (byteAt (buf.drop n) lt) (byteAt _ gt), ← hstop,
          Nat.add_assoc (byteAt buf n) _ 1, Nat.add_assoc (byteAt buf n) _ 1, ← hopen, ← hbehind,
          slice_shift _ _ (by omega), Option.bind_some, hrest, sliceFrom_shift, Option.bind_some, bareOpen_tag hlt hgt,
          show lt + gt - (lt + 1) = gt - 1 by omega]
        by_cases hname : isFunctionName (((buf.drop n).drop (lt + 1)).take (gt - 1)) = true
        · rw [if_pos hname, hname, Bool.true_and]
          by_cases hanchor : anchored ((buf.drop n).drop (lt + gt + 1)) = true
          · have htag : byteAt buf n + byteAt (buf.drop n) (lt + gt + 1) - (byteAt buf n + byteAt (buf.drop n) lt) =
                byteAt (buf.drop (n + lt)) (gt + 1) := by
              rw [Nat.add_assoc lt, byteAt_add (buf.drop n) lt, List.drop_drop]
              omega
            rw [if_pos hanchor, if_pos hanchor, Option.map_some, FunctionOpen.inBytes]
            dsimp only
            rw [htag, byteAt_add buf n lt]
          · rw [if_neg hanchor, if_neg hanchor]
        · rw [if_neg hname, eq_false_of_ne_true hname, Bool.false_and, if_neg Bool.false_ne_true]

theorem byteLen_ge (s : Text) : s.length ≤ byteLen s := by
  induction s with
  | nil => exact Nat.le_refl _
  | cons c s ih =>
    have hpos := Char.utf8Size_pos c
    rw [byteLen_cons, List.length_cons]
    omega

theorem findFunctionOpen_bytes (buf : Text) :
    Bytes.findFunctionOpen buf = some ((findFunctionOpen buf).map (·.inBytes buf)) := by
  have hbare : Bytes.bareOpen buf (byteLen buf + 1) 0 = some ((bareOpen buf).map (·.inBytes buf)) := by
    have h := @bareOpen_bytes (byteLen buf + 1) buf 0 (Nat.lt_succ_of_le (byteLen_ge buf))
    simp only [byteAt_zero, List.drop_zero, Nat.zero_add] at h
    exact h
  unfold Bytes.findFunctionOpen findFunctionOpen
  rw [canonicalOpen_bytes, Option.bind_some, hbare, Option.map_some]
  cases hf : canonicalOpen buf with
  | none => rfl
  | some f =>
    cases hb : bareOpen buf with
    | none => rfl
    | some b =>
      obtain ⟨-, hfin⟩ := canonicalOpen_within hf
      obtain ⟨-, hbin⟩ := bareOpen_within hb
      have horder : (b.inBytes buf).start < (f.inBytes buf).start ↔ b.start < f.start :=
        byteAt_lt_iff (by omega) (by omega)
      simp only [Option.map_some, horder]
      split <;> rfl

/-! What is held back. -/

theorem byteLen_front {t s : Text} (h : t <+: s) : byteLen t = byteAt s t.length := by
  obtain ⟨r, rfl⟩ := h
  rw [byteAt, List.take_left]

theorem byteAt_front {t s : Text} (h : t <+: s) (hn : n ≤ t.length) : byteAt t n = byteAt s n := by
  obtain ⟨r, rfl⟩ := h
  rw [byteAt, byteAt, List.take_append_of_le_length hn]

theorem sliceTo_front {t s : Text} (h : t <+: s) : sliceTo s (byteLen t) = some t := by
  rw [byteLen_front h, sliceTo_at, ← List.prefix_iff_eq_take.mp h]

/-- The last byte of a front tells the last character, if that is of ASCII. -/
theorem byteBefore_front {t s : Text} (h : t <+: s) (hlast : t.getLast? = some c) (hd : d.toNat < 128) :
    ∃ b, Bytes.byteBefore s (byteLen t) = some b ∧ (b = d.toUInt8 ↔ c = d) := by
  obtain ⟨a, rfl⟩ := List.getLast?_eq_some_iff.mp hlast
  obtain ⟨r, rfl⟩ := h
  obtain ⟨b, hb, hin⟩ := bytes_before a r c
  refine ⟨b, ?_, ascii_byte hd hin⟩
  rw [Bytes.byteBefore, List.append_assoc, List.singleton_append]
  exact hb

theorem rfind_some {c : Char} {s : Text} (h : rfind c s = some lt) :
    lt < s.length ∧ s.drop lt = c :: s.drop (lt + 1) := by
  obtain ⟨n, hn, rfl⟩ := Option.map_eq_some_iff.mp h
  have hle := find_le hn
  rw [List.length_reverse, List.length_singleton] at hle
  have hlt : s.length - 1 - n < s.length := by omega
  have hget : s[s.length - 1 - n]? = some c := by
    have hrev : s.reverse[n]? = some c := by
      rw [← List.head?_drop, find_drop hn]
      rfl
    rw [List.getElem?_reverse (by omega)] at hrev
    exact hrev
  refine ⟨hlt, ?_⟩
  rw [List.drop_eq_getElem_cons hlt]
  rw [List.getElem?_eq_getElem hlt] at hget
  rw [Option.some.inj hget]

theorem byteAt_letter {s : Text} {c : Char} (h : s.drop n = c :: s.drop (n + 1)) (hc : c.toNat < 128) :
    byteAt s (n + 1) = byteAt s n + 1 := by
  have hbehind := @byteAt_behind n [c] s ⟨s.drop (n + 1), h.symm⟩
  rw [List.length_singleton, byteLen_cons, utf8Size_ascii hc] at hbehind
  exact hbehind

theorem trimEnd_front (s : Text) : trimEnd s <+: s := by
  unfold trimEnd
  have h := List.dropWhile_suffix (l := s.reverse) isWhitespace
  rw [← List.reverse_prefix, List.reverse_reverse] at h
  exact h

theorem holdName_bytes {t buf : Text} (ht : t <+: buf) (hne : t ≠ []) :
    Bytes.holdName buf (byteLen t) = some (byteAt buf ((bareNameAtEnd t).getD buf.length)) := by
  obtain ⟨c, hlast⟩ : ∃ c, t.getLast? = some c := ⟨t.getLast hne, List.getLast?_eq_some_getLast hne⟩
  obtain ⟨b, hb, hbc⟩ := byteBefore_front ht hlast (d := '>') (by decide)
  unfold Bytes.holdName bareNameAtEnd
  rw [hb, Option.bind_some]
  by_cases hc : c = '>'
  · rw [if_pos (hbc.mpr hc), if_pos (by rw [hlast, hc]), sliceTo_front ht, Option.bind_some, Bytes.rfindByte]
    cases hlt : rfind '<' t with
    | none =>
      dsimp only [Option.map_none, Option.filter_none, Option.getD_none]
      rw [byteAt_length]
    | some lt =>
      obtain ⟨hin, hat⟩ := rfind_some hlt
      obtain ⟨a, rfl⟩ := List.getLast?_eq_some_iff.mp hlast
      have hlen : (a ++ [c]).length = a.length + 1 := by simp
      have hbefore : lt < a.length := by
        apply Nat.lt_of_not_le
        intro hle
        have heq : lt = a.length := by omega
        rw [heq, List.drop_left, hc] at hat
        cases hat
      have hopen : byteAt (a ++ [c]) lt + 1 = byteAt buf (lt + 1) := by
        rw [← byteAt_letter hat (by decide), byteAt_front ht (by omega)]
      have hstop : byteLen (a ++ [c]) - 1 = byteAt buf a.length := by
        rw [byteLen_append, hc, ← byteAt_front ht (by omega), byteAt, List.take_left]
        rfl
      have hinner : (buf.take a.length).drop (lt + 1) = ((a ++ [c]).drop (lt + 1)).dropLast := by
        obtain ⟨r, rfl⟩ := ht
        rw [List.append_assoc, List.take_left, List.drop_append_of_le_length (by omega), List.dropLast_concat]
      dsimp only [Option.map_some]
      rw [hopen, hstop, slice_at _ (by omega), Option.map_some, hinner, byteAt_front ht (by omega)]
      rw [Option.filter_some]
      by_cases hname : isFunctionName (((a ++ [c]).drop (lt + 1)).dropLast) = true
      · rw [if_pos hname, if_pos hname]
        rfl
      · rw [if_neg hname, if_neg hname, Option.getD_none, byteAt_length]
  · rw [if_neg (fun h => hc (hbc.mp h)), if_neg (by rw [hlast]; exact fun h => hc (Option.some.inj h)), Option.getD_none,
      byteAt_length]

theorem isPartialBareName_bytes (part : Text) : Bytes.isPartialBareName part = some (isPartialBareName part) := by
  unfold Bytes.isPartialBareName isPartialBareName
  cases part with
  | nil => rfl
  | cons c part =>
    by_cases hc : c = '<'
    · have hrest : sliceFrom (c :: part) 1 = some part := by
        have h := sliceFrom_at (c :: part) 1
        rw [show byteAt (c :: part) 1 = 1 by rw [hc]; rfl] at h
        exact h
      rw [if_pos (by rw [hc]; rfl), hrest, hc]
      rfl
    · have hhead : (some c == some '<') = false := beq_eq_false_iff_ne.mpr fun h => hc (Option.some.inj h)
      rw [if_neg (by intro h; exact hc (Option.some.inj h)), List.head?_cons, hhead, Bool.false_and]

theorem byteLen_eq_zero {s : Text} : byteLen s = 0 ↔ s.isEmpty = true := by
  rw [List.isEmpty_iff]
  constructor
  · intro h
    apply Decidable.byContradiction
    intro hne
    have hpos := byteLen_pos hne
    omega
  · rintro rfl
    rfl

theorem bareOpenHoldback_bytes (buf : Text) :
    Bytes.bareOpenHoldback buf = some (byteAt buf (bareOpenHoldback buf)) := by
  have hfront := trimEnd_front buf
  unfold Bytes.bareOpenHoldback bareOpenHoldback
  simp only [byteLen_eq_zero]
  by_cases hempty : (trimEnd buf).isEmpty = true
  · rw [if_pos hempty, if_pos hempty, byteAt_length]
  have hne : trimEnd buf ≠ [] := fun h => hempty (List.isEmpty_iff.mpr h)
  obtain ⟨c, hlast⟩ : ∃ c, (trimEnd buf).getLast? = some c := ⟨_, List.getLast?_eq_some_getLast hne⟩
  obtain ⟨b, hb, hbc⟩ := byteBefore_front hfront hlast (d := '>') (by decide)
  rw [if_neg hempty, if_neg hempty, hb, Option.bind_some]
  by_cases hc : c = '>'
  · rw [if_neg (not_not_intro (hbc.mpr hc)), if_pos (by rw [hlast, hc]), holdName_bytes hfront hne]
  rw [if_pos (fun h => hc (hbc.mp h)), if_neg (by rw [hlast]; exact fun h => hc (Option.some.inj h)), sliceTo_front hfront,
    Option.bind_some, Bytes.rfindByte]
  cases hlt : rfind '<' (trimEnd buf) with
  | none =>
    dsimp only [Option.map_none]
    rw [byteAt_length]
  | some lt =>
    obtain ⟨hin, hat⟩ := rfind_some hlt
    have hpart : slice buf (byteAt (trimEnd buf) lt) (byteLen (trimEnd buf)) = some ((trimEnd buf).drop lt) := by
      rw [byteLen_front hfront, byteAt_front hfront (Nat.le_of_lt hin), slice_at _ (Nat.le_of_lt hin),
        ← List.prefix_iff_eq_take.mp hfront]
    dsimp only [Option.map_some]
    rw [hpart, Option.bind_some]
    by_cases hanchor : (((trimEnd buf).drop lt).isPrefixOf parameterOpen ||
        ((trimEnd buf).drop lt).isPrefixOf functionClose) = true
    · have hbefore := trimEnd_front (buf.take lt)
      rw [if_pos hanchor, if_pos hanchor, byteAt_front hfront (Nat.le_of_lt hin), sliceTo_at, Option.bind_some]
      by_cases hnone : (trimEnd (buf.take lt)).isEmpty = true
      · rw [if_pos hnone, if_pos hnone]
      · rw [if_neg hnone, if_neg hnone]
        exact holdName_bytes (hbefore.trans (List.take_prefix lt buf)) fun h => hnone (List.isEmpty_iff.mpr h)
    · rw [if_neg hanchor, if_neg hanchor, isPartialBareName_bytes, Option.map_some]
      by_cases hname : isPartialBareName ((trimEnd buf).drop lt) = true
      · rw [if_pos hname, if_pos hname, byteAt_front hfront (Nat.le_of_lt hin)]
      · rw [if_neg hname, if_neg hname, byteAt_length]

theorem ambiguousTailStart_bytes (s : Text) (tags : List Text) :
    ambiguousTailByte s tags = some (byteAt s (ambiguousTailStart s tags)) := ambiguousTailByte_eq s tags

theorem byteAt_min (s : Text) (m n : Nat) : min (byteAt s m) (byteAt s n) = byteAt s (min m n) := by
  rcases Nat.le_total m n with h | h
  · obtain ⟨k, rfl⟩ := Nat.exists_eq_add_of_le h
    rw [byteAt_add, Nat.min_eq_left h, Nat.min_eq_left (Nat.le_add_right _ _)]
  · obtain ⟨k, rfl⟩ := Nat.exists_eq_add_of_le h
    rw [byteAt_add, Nat.min_eq_right h, Nat.min_eq_right (Nat.le_add_right _ _)]

theorem pendingToolTailStart_bytes (buf : Text) :
    Bytes.pendingToolTailStart buf = some (byteAt buf (pendingToolTailStart buf)) := by
  unfold Bytes.pendingToolTailStart pendingToolTailStart
  rw [ambiguousTailStart_bytes, Option.bind_some, bareOpenHoldback_bytes, Option.map_some, byteAt_min]

/-! The steps. -/

theorem emitUpTo_bytes (emit : Text → List ParserEvent) (p : QwenCoderXmlParser) (hle : upto ≤ p.buf.length) :
    Bytes.emitUpTo emit p (byteAt p.buf upto) = some (emitUpTo emit p upto) := by
  unfold Bytes.emitUpTo emitUpTo
  dsimp only
  rw [floorCharBoundary_at]
  by_cases hpos : 0 < upto
  · rw [if_pos ((byteAt_pos hle).mpr hpos), if_pos hpos, splitByte_at]
    rfl
  · rw [if_neg (fun h => hpos ((byteAt_pos hle).mp h)), if_neg hpos]

theorem funcFirst_bytes (buf : Text) :
    Bytes.funcFirst (earliestByte textStateOpenTags buf) ((findFunctionOpen buf).map (·.inBytes buf)) =
      (functionFirst buf).map (·.inBytes buf) := by
  rw [earliestByte_eq]
  unfold Bytes.funcFirst functionFirst
  cases ho : findFunctionOpen buf with
  | none => cases earliest textStateOpenTags buf <;> rfl
  | some o =>
    obtain ⟨-, hin⟩ := findFunctionOpen_within ho
    cases ht : earliest textStateOpenTags buf with
    | none => rfl
    | some r =>
      have hle := earliest_le ht
      have horder : (o.inBytes buf).start < byteAt buf r.1 ↔ o.start < r.1 := byteAt_lt_iff (by omega) (by omega)
      simp only [Option.map_some, horder, Option.filter_some, decide_eq_true_iff]
      split <;> rfl

theorem openFunction_bytes (p : QwenCoderXmlParser) (o : FunctionOpen) :
    Bytes.openFunction p (o.inBytes p.buf) (p.buf.drop (o.start + o.tagLen)) = openFunction p o := rfl

theorem stepText_bytes (p : QwenCoderXmlParser) (fin : Bool) : Bytes.stepText p fin = some (stepText p fin) := by
  unfold Bytes.stepText stepText
  dsimp only
  rw [findFunctionOpen_bytes, Option.bind_some, funcFirst_bytes]
  cases ho : functionFirst p.buf with
  | some o =>
    dsimp only [Option.map_some]
    have hfront : sliceTo p.buf (o.inBytes p.buf).start = some (p.buf.take o.start) := sliceTo_at p.buf o.start
    rw [hfront, Option.bind_some, FunctionOpen.inBytes_behind, sliceFrom_at, Option.map_some, openFunction_bytes]
  | none =>
    dsimp only [Option.map_none]
    rw [earliestByte_eq]
    cases ht : earliest textStateOpenTags p.buf with
    | some r =>
      dsimp only [Option.map_some]
      rw [sliceTo_at, Option.bind_some, ← earliest_behind ht, sliceFrom_at]
      rfl
    | none =>
      dsimp only [Option.map_none]
      cases fin with
      | true =>
        rw [if_pos rfl, if_pos rfl, Option.bind_some, ← byteAt_length]
        exact emitUpTo_bytes emitText p (Nat.le_refl _)
      | false =>
        rw [if_neg Bool.false_ne_true, if_neg Bool.false_ne_true, pendingToolTailStart_bytes, Option.bind_some]
        exact emitUpTo_bytes emitText p (pendingToolTailStart_le _)

theorem stepInThink_bytes (p : QwenCoderXmlParser) (fin : Bool) :
    Bytes.stepInThink p fin = some (stepInThink p fin) := by
  unfold Bytes.stepInThink stepInThink
  cases hf : find thinkClose p.buf with
  | some pos =>
    rw [findByte_some hf]
    dsimp only
    rw [sliceTo_at, Option.bind_some, ← find_behind hf, sliceFrom_at]
    rfl
  | none =>
    rw [findByte_none hf]
    dsimp only
    cases fin with
    | true =>
      rw [if_pos rfl, if_pos rfl, Option.bind_some, ← byteAt_length]
      exact emitUpTo_bytes emitThink p (Nat.le_refl _)
    | false =>
      rw [if_neg Bool.false_ne_true, if_neg Bool.false_ne_true, ambiguousTailStart_bytes, Option.bind_some]
      exact emitUpTo_bytes emitThink p (ambiguousTailStart_le _ _)

theorem stepInToolCall_bytes (p : QwenCoderXmlParser) : Bytes.stepInToolCall p = some (stepInToolCall p) := by
  unfold Bytes.stepInToolCall stepInToolCall
  rw [findFunctionOpen_bytes, Option.bind_some]
  cases ho : findFunctionOpen p.buf with
  | none => rfl
  | some o =>
    dsimp only [Option.map_some]
    rw [FunctionOpen.inBytes_behind, sliceFrom_at, Option.map_some, openFunction_bytes]

theorem nextInBody_bytes (buf : Text) :
    Bytes.nextInBody (findByte parameterOpen buf) (findByte functionClose buf) =
      (earliest [functionClose, parameterOpen] buf).map fun r => (byteAt buf r.1, decide (r.2 = parameterOpen)) := by
  unfold earliest
  rw [List.filterMap_cons, List.filterMap_cons, List.filterMap_nil]
  cases hp : find parameterOpen buf with
  | none =>
    rw [findByte_none hp]
    cases hf : find functionClose buf with
    | none =>
      rw [findByte_none hf]
      rfl
    | some f =>
      rw [findByte_some hf]
      rfl
  | some p =>
    rw [findByte_some hp]
    cases hf : find functionClose buf with
    | none =>
      rw [findByte_none hf]
      rfl
    | some f =>
      have hple := find_le hp
      have hfle := find_le hf
      have horder : byteAt buf p < byteAt buf f ↔ p < f := byteAt_lt_iff (by omega) (by omega)
      rw [findByte_some hf]
      simp only [Bytes.nextInBody, Option.map_some, minByKey, horder]
      by_cases hlt : p < f
      · rw [if_pos hlt, if_pos hlt]
        rfl
      · rw [if_neg hlt, if_neg hlt]
        rfl

theorem sliceFrom_tag {s tag : Text} (h : tag <+: s) : sliceFrom s (byteLen tag) = some (s.drop tag.length) := by
  rw [byteLen_front h, sliceFrom_at]

theorem stepInFunctionBody_bytes (serde : SerdeJson) (p : QwenCoderXmlParser) :
    Bytes.stepInFunctionBody serde p = some (stepInFunctionBody serde p) := by
  unfold Bytes.stepInFunctionBody stepInFunctionBody
  rw [nextInBody_bytes]
  cases he : earliest [functionClose, parameterOpen] p.buf with
  | none => rfl
  | some r =>
    obtain ⟨pos, tag⟩ := r
    have htag : tag <+: p.buf.drop pos := by
      obtain ⟨u, r, hs, rfl, _, _⟩ := earliest_some he
      rw [hs, List.drop_left]
      exact List.prefix_append tag r
    obtain ⟨_, _, _, _, hmem, _⟩ := earliest_some he
    dsimp only [Option.map_some]
    rw [sliceFrom_at, Option.bind_some]
    by_cases hparam : tag = parameterOpen
    · rw [if_pos (decide_eq_true hparam), if_pos hparam]
      rw [hparam] at htag
      rw [sliceFrom_tag htag, Option.bind_some, parameterTag]
      cases hgt : find ['>'] ((p.buf.drop pos).drop parameterOpen.length) with
      | none =>
        rw [findByte_none hgt]
        rfl
      | some gt =>
        have hclose : byteAt ((p.buf.drop pos).drop parameterOpen.length) (gt + 1) =
            byteAt ((p.buf.drop pos).drop parameterOpen.length) gt + 1 := find_behind hgt
        have hname := slice_shift (p.buf.drop pos) parameterOpen.length (Nat.zero_le gt)
        have hrest := sliceFrom_shift (p.buf.drop pos) parameterOpen.length (gt + 1)
        rw [byteAt_zero, Nat.add_zero, ← byteLen_front htag, List.drop_zero, Nat.sub_zero] at hname
        rw [hclose, ← byteLen_front htag] at hrest
        rw [findByte_some hgt]
        dsimp only
        rw [hname, Option.bind_some, Nat.add_assoc, hrest]
        rfl
    · simp only [List.mem_cons, List.not_mem_nil, or_false] at hmem
      rw [hmem.resolve_right hparam] at htag
      rw [if_neg (by rw [decide_eq_true_iff]; exact hparam), if_neg hparam, sliceFrom_tag htag]
      rfl

theorem valueStart_bytes {buf : Text} (hn : n ≤ buf.length) :
    Bytes.valueStart buf (byteAt buf n) =
      some (byteAt buf (if (buf.take n).head? = some '\n' then 1 else 0)) := by
  unfold Bytes.valueStart
  by_cases hpos : 0 < n
  · rw [if_pos ((byteAt_pos hn).mpr hpos)]
    cases buf with
    | nil => exact absurd hn (by rw [List.length_nil]; omega)
    | cons c t =>
      obtain ⟨k, rfl⟩ : ∃ k, n = k + 1 := ⟨n - 1, by omega⟩
      obtain ⟨b, bs, hb⟩ : ∃ b bs, String.utf8EncodeChar c = b :: bs := List.exists_cons_of_ne_nil String.utf8EncodeChar_ne_nil
      have hat : b = '\n'.toUInt8 ↔ c = '\n' := ascii_byte (by decide) (by rw [hb]; exact List.mem_cons_self)
      have hget : (bytes (c :: t))[0]? = some b := by
        rw [bytes, List.flatMap_cons, hb]
        rfl
      rw [hget, Option.map_some, List.take_succ_cons, List.head?_cons]
      by_cases hc : c = '\n'
      · rw [if_pos (hat.mpr hc), if_pos (congrArg some hc), hc]
        rfl
      · rw [if_neg (fun h => hc (hat.mp h)), if_neg (fun h => hc (Option.some.inj h))]
        rfl
  · obtain rfl := Nat.eq_zero_of_not_pos hpos
    rfl

theorem valueEnd_bytes {buf : Text} (hn : n ≤ buf.length) (hk : k ≤ buf.length) :
    Bytes.valueEnd buf (byteAt buf k) (byteAt buf n) =
      some (byteAt buf (if k < n ∧ (buf.take n).getLast? = some '\n' then n - 1 else n)) := by
  have horder : byteAt buf k < byteAt buf n ↔ k < n := byteAt_lt_iff hk hn
  unfold Bytes.valueEnd
  by_cases hlt : k < n
  · have hlen : (buf.take n).length = n := by rw [List.length_take, Nat.min_eq_left hn]
    have hne : buf.take n ≠ [] := by
      intro hnil
      rw [hnil, List.length_nil] at hlen
      omega
    obtain ⟨c, hlast⟩ : ∃ c, (buf.take n).getLast? = some c := ⟨_, List.getLast?_eq_some_getLast hne⟩
    obtain ⟨b, hb, hbc⟩ := byteBefore_front (List.take_prefix n buf) hlast (d := '\n') (by decide)
    rw [if_pos (horder.mpr hlt)]
    change (Bytes.byteBefore buf (byteLen (buf.take n))).map _ = _
    rw [hb, Option.map_some, hlast]
    by_cases hc : c = '\n'
    · have hbefore : byteAt buf n = byteAt buf (n - 1) + 1 := by
        obtain ⟨a, ha⟩ := List.getLast?_eq_some_iff.mp hlast
        have halen : a.length = n - 1 := by
          rw [ha, List.length_append, List.length_singleton] at hlen
          omega
        have hfront : buf.take (n - 1) = a := by
          rw [← halen, ← Nat.min_eq_left (show a.length ≤ n by omega), ← List.take_take, ha, List.take_left]
        rw [byteAt, ha, byteLen_append, byteAt, hfront, hc]
        rfl
      rw [if_pos (hbc.mpr hc), if_pos ⟨hlt, congrArg some hc⟩, hbefore, Nat.add_sub_cancel]
    · rw [if_neg (fun h => hc (hbc.mp h)), if_neg (fun h => hc (Option.some.inj h.2))]
  · rw [if_neg (fun h => hlt (horder.mp h)), if_neg (fun h => hlt h.1)]

theorem drop_getLast {s : List α} (h : k < s.length) : (s.drop k).getLast? = s.getLast? := by
  rw [List.getLast?_drop, if_neg (by omega)]

/-- The value between the template's newlines. -/
theorem stripNewlines_eq (value : Text) :
    stripNewlines value =
      (value.take (if (if value.head? = some '\n' then 1 else 0) < value.length ∧ value.getLast? = some '\n'
        then value.length - 1 else value.length)).drop (if value.head? = some '\n' then 1 else 0) := by
  unfold stripNewlines
  have hdrop : (if value.head? = some '\n' then value.tail else value) =
      value.drop (if value.head? = some '\n' then 1 else 0) := by
    split
    · rw [List.drop_one]
    · rw [List.drop_zero]
  rw [hdrop]
  generalize (if value.head? = some '\n' then 1 else 0) = k
  by_cases hlt : k < value.length
  · dsimp only
    rw [drop_getLast hlt]
    by_cases hlast : value.getLast? = some '\n'
    · rw [if_pos hlast, if_pos ⟨hlt, hlast⟩, List.dropLast_eq_take, List.length_drop, List.drop_take]
      congr 1
      omega
    · rw [if_neg hlast, if_neg (fun h => hlast h.2), List.take_length]
  · have hnil : value.drop k = [] := List.drop_eq_nil_of_le (by omega)
    have hlast : ([] : Text).getLast? ≠ some '\n' := nofun
    rw [hnil, if_neg hlast, if_neg (fun h => hlt h.1), List.take_length, hnil]

theorem stepInParameterBody_bytes (p : QwenCoderXmlParser) :
    Bytes.stepInParameterBody p = some (stepInParameterBody p) := by
  unfold Bytes.stepInParameterBody stepInParameterBody
  cases hf : find parameterClose p.buf with
  | none =>
    rw [findByte_none hf]
  | some pos =>
    have hle := find_le hf
    have hn : pos ≤ p.buf.length := by omega
    have hlen : (p.buf.take pos).length = pos := by rw [List.length_take, Nat.min_eq_left hn]
    have hstrip := stripNewlines_eq (p.buf.take pos)
    rw [findByte_some hf]
    dsimp only
    rw [valueStart_bytes hn, Option.bind_some]
    generalize hk : (if (p.buf.take pos).head? = some '\n' then 1 else 0) = k at hstrip ⊢
    have hkn : k ≤ pos := by
      rw [← hk]
      split
      · rename_i hhead
        apply Nat.pos_of_ne_zero
        rintro rfl
        cases hhead
      · exact Nat.zero_le _
    rw [valueEnd_bytes hn (Nat.le_trans hkn hn), Option.bind_some]
    rw [hlen] at hstrip
    generalize hm : (if k < pos ∧ (p.buf.take pos).getLast? = some '\n' then pos - 1 else pos) = m at hstrip ⊢
    have hmn : k ≤ m ∧ m ≤ pos := by
      rw [← hm]
      split <;> omega
    rw [List.take_take, Nat.min_eq_left hmn.2] at hstrip
    rw [slice_at _ hmn.1, Option.bind_some, ← find_behind hf, sliceFrom_at, hstrip]
    rfl

theorem stepAwaitingClose_bytes (p : QwenCoderXmlParser) : Bytes.stepAwaitingClose p = some (stepAwaitingClose p) := by
  unfold Bytes.stepAwaitingClose stepAwaitingClose
  rw [earliestByte_eq]
  cases he : earliest [toolClose, functionOpen, parameterOpen] p.buf with
  | none => rfl
  | some r =>
    obtain ⟨pos, tag⟩ := r
    have htag : tag <+: p.buf.drop pos := by
      obtain ⟨u, r, hs, rfl, _, _⟩ := earliest_some he
      rw [hs, List.drop_left]
      exact List.prefix_append tag r
    dsimp only [Option.map_some]
    rw [sliceFrom_at, Option.bind_some]
    by_cases hclose : tag = toolClose
    · rw [hclose] at htag
      rw [if_pos hclose, if_pos hclose, sliceFrom_tag htag, Option.map_some, List.drop_drop]
    · rw [if_neg hclose, if_neg hclose]
      split
      · rfl
      split <;> rfl

/-- By bytes or by characters, the steps are the same: none panics. -/
theorem step_bytes (serde : SerdeJson) (fin : Bool) (p : QwenCoderXmlParser) :
    Bytes.step serde fin p = some (step serde fin p) := by
  unfold Bytes.step step
  cases p.state with
  | text => exact stepText_bytes p fin
  | inThink => exact stepInThink_bytes p fin
  | inToolCall => exact stepInToolCall_bytes p
  | inFunctionBody => exact stepInFunctionBody_bytes serde p
  | inParameterBody => exact stepInParameterBody_bytes p
  | awaitingToolCallClose => exact stepAwaitingClose_bytes p

/-! Termination. -/

/-- Bytes of the buffer are taken. -/
def Consumes (p p' : QwenCoderXmlParser) : Prop := p'.buf <:+ p.buf ∧ byteLen p'.buf < byteLen p.buf

theorem consumes_of {p p' : QwenCoderXmlParser} (h : step serde fin p = (es, p', b)) (hne : p'.buf ≠ p.buf) :
    Consumes p p' := by
  have hsplit := (conserves serde).step (congrArg some h)
  have hsuffix : p'.buf <:+ p.buf := ⟨_, hsplit.symm⟩
  obtain ⟨a, ha⟩ := hsuffix
  have hpos : 0 < byteLen a := by
    apply byteLen_pos
    rintro rfl
    exact hne ha
  refine ⟨⟨a, ha⟩, ?_⟩
  rw [← ha, byteLen_append]
  omega

/-- Only behind a call may a step leave the buffer as it is. -/
theorem step_consumes {p p' : QwenCoderXmlParser} (hs : p.state ≠ .awaitingToolCallClose)
    (h : step serde fin p = (es, p', true)) : Consumes p p' := by
  have hlt := step_descends serde h
  apply consumes_of h
  intro heq
  rw [rank, rank, heq, if_neg hs] at hlt
  omega

/-- The loop of the parser as the source has it, by bytes. -/
def byteLoop (serde : SerdeJson) : Loop Char ParserEvent QwenCoderXmlParser where
  feed p chunk := { p with buf := p.buf ++ chunk }
  step := Bytes.step serde
  flush := flush

theorem byteLoop_is (serde : SerdeJson) : (byteLoop serde).Is (machine serde) where
  feed := rfl
  step := by
    funext fin p
    exact step_bytes serde fin p
  flush := rfl

theorem run_total (serde : SerdeJson) (p : QwenCoderXmlParser) (chunks : List Text) :
    ∃ es q, (machine serde).run p chunks = some (es, q) := by
  obtain ⟨es, hes⟩ := stream_total serde p chunks
  rw [Machine.stream_eq_run, Option.map_eq_some_iff] at hes
  obtain ⟨⟨es, q⟩, hrun, -⟩ := hes
  exact ⟨es, q, hrun⟩

/-- Every run ends, without a slice that is out of place, in some number of steps; and a step that
reports progress takes bytes, or changes to a state that can only go on by taking some. -/
theorem qwen_total (serde : SerdeJson) (inThink : Bool) (chunks : List Text) :
    (∃ n, ∀ steps, n ≤ steps → ∃ es q, (byteLoop serde).run steps (start inThink) chunks = some (es, q)) ∧
    ∀ fin p es p', Bytes.step serde fin p = some (es, p', true) →
      Consumes p p' ∨
        p'.state ≠ p.state ∧ ∀ fin' es' q, Bytes.step serde fin' p' = some (es', q, true) → Consumes p' q := by
  constructor
  · obtain ⟨n, hn⟩ := (byteLoop_is serde).run (start inThink) chunks
    obtain ⟨es, q, hrun⟩ := run_total serde (start inThink) chunks
    exact ⟨n, fun steps hle => ⟨es, q, (hn steps hle).trans hrun⟩⟩
  · intro fin p es p' h
    rw [step_bytes, Option.some.injEq] at h
    by_cases hbuf : p'.buf = p.buf
    · have hs : p.state = .awaitingToolCallClose := by
        apply Decidable.byContradiction
        intro hs
        have hlt := (step_consumes hs h).2
        rw [hbuf] at hlt
        exact Nat.lt_irrefl _ hlt
      have hs' : p'.state ≠ .awaitingToolCallClose := by
        intro hs'
        have hlt := step_descends serde h
        rw [rank, rank, hbuf, if_pos hs, if_pos hs'] at hlt
        exact Nat.lt_irrefl _ hlt
      refine .inr ⟨by rw [hs]; exact hs', fun fin' es' q hq => ?_⟩
      rw [step_bytes, Option.some.injEq] at hq
      exact step_consumes hs' hq
    · exact .inl (consumes_of h hbuf)

end Flambeau.Server.ToolCallParser.QwenCoder
