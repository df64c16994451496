import Flambeau.Server.ToolCallParser.Gemma4CallBytes
import Flambeau.Server.ToolCallParser.Gemma4Stable

namespace Flambeau.Server.ToolCallParser.Gemma4
open Flambeau.Stream Flambeau.Runtime.JsonSchema

/-! The offsets of the markers are char boundaries. -/

theorem emitBuffered_bytes (emit : Text → List ParserEvent) (tags : List Text) (p : Gemma4ToolCallParser) (fin : Bool) :
    Bytes.emitBuffered emit tags p fin = some (emitBuffered emit tags p fin) := by
  have hn : (if fin = true then some (byteLen p.buf) else ambiguousTailByte p.buf tags) =
      some (byteAt p.buf (if fin = true then p.buf.length else ambiguousTailStart p.buf tags)) := by
    cases fin with
    | true => rw [if_pos rfl, if_pos rfl, byteAt_length]
    | false =>
      rw [if_neg Bool.false_ne_true, if_neg Bool.false_ne_true, ambiguousTailByte_eq]
      rfl
  have hle : (if fin = true then p.buf.length else ambiguousTailStart p.buf tags) ≤ p.buf.length := by
    split
    · exact Nat.le_refl _
    · exact tailStart_le _ _
  unfold Bytes.emitBuffered emitBuffered
  rw [hn, Option.bind_some, floorCharBoundary_at]
  generalize (if fin = true then p.buf.length else ambiguousTailStart p.buf tags) = n at hle ⊢
  dsimp only
  by_cases hpos : 0 < n
  · rw [if_pos ((byteAt_pos hle).mpr hpos), if_pos hpos, splitByte_at]
    rfl
  · rw [if_neg fun h => hpos ((byteAt_pos hle).mp h), if_neg hpos]

theorem stepText_bytes (p : Gemma4ToolCallParser) (fin : Bool) : Bytes.stepText p fin = some (stepText p fin) := by
  unfold Bytes.stepText stepText
  rw [earliestByte_eq]
  cases he : earliest textOpenTags p.buf with
  | none => exact emitBuffered_bytes emitText textOpenTags p fin
  | some r =>
    dsimp only [Option.map_some]
    rw [sliceTo_at, Option.bind_some, ← earliest_behind he, sliceFrom_at]
    rfl

theorem stepInChannel_bytes (p : Gemma4ToolCallParser) (fin : Bool) :
    Bytes.stepInChannel p fin = some (stepInChannel p fin) := by
  unfold Bytes.stepInChannel stepInChannel
  rw [earliestByte_eq]
  cases he : earliest channelClosers p.buf with
  | none => exact emitBuffered_bytes emitThink channelClosers p fin
  | some r =>
    dsimp only [Option.map_some]
    rw [sliceTo_at, Option.bind_some, ← earliest_behind he, sliceFrom_at]
    rfl

theorem stepInToolResponse_bytes (p : Gemma4ToolCallParser) (fin : Bool) :
    Bytes.stepInToolResponse p fin = some (stepInToolResponse p fin) := by
  unfold Bytes.stepInToolResponse stepInToolResponse
  cases hf : find toolResponseClose p.buf with
  | none =>
    rw [findByte_none hf]
    dsimp only
    split <;> rfl
  | some pos =>
    rw [findByte_some hf]
    dsimp only
    rw [← find_behind hf, sliceFrom_at]
    rfl

theorem stepInTurnHeader_bytes (p : Gemma4ToolCallParser) (fin : Bool) :
    Bytes.stepInTurnHeader p fin = some (stepInTurnHeader p fin) := by
  unfold Bytes.stepInTurnHeader stepInTurnHeader
  cases hf : find ['\n'] p.buf with
  | none =>
    rw [findByte_none hf]
    dsimp only
    split <;> rfl
  | some nl =>
    have hbehind : byteAt p.buf (nl + 1) = byteAt p.buf nl + 1 := find_behind hf
    rw [findByte_some hf]
    dsimp only
    rw [← hbehind, sliceFrom_at]
    rfl

theorem stepAwaitingClose_bytes (p : Gemma4ToolCallParser) :
    Bytes.stepAwaitingClose p = some (stepAwaitingClose p) := by
  unfold Bytes.stepAwaitingClose stepAwaitingClose
  rw [earliestByte_eq]
  cases he : earliest callClosers p.buf with
  | none => rfl
  | some r =>
    dsimp only [Option.map_some]
    rw [← earliest_behind he, sliceFrom_at]
    rfl

theorem toolCodeBlock_bytes (serde : GemmaSerde) (index : Nat) (block : Text) :
    Bytes.toolCodeBlock serde index block = some (toolCodeBlock serde index block) := by
  unfold Bytes.toolCodeBlock toolCodeBlock
  rw [parseToolCodeBlock_bytes]
  cases parseToolCodeBlock serde block <;> rfl

theorem stepInToolCode_bytes (serde : GemmaSerde) (p : Gemma4ToolCallParser) (fin : Bool) :
    Bytes.stepInToolCode serde p fin = some (stepInToolCode serde p fin) := by
  unfold Bytes.stepInToolCode stepInToolCode
  rw [earliestByte_eq]
  cases he : earliest codeClosers p.buf with
  | none =>
    dsimp only [Option.map_none]
    rw [toolCodeBlock_bytes]
    split <;> rfl
  | some r =>
    dsimp only [Option.map_some]
    rw [sliceTo_at, Option.bind_some, ← earliest_behind he, sliceFrom_at, Option.bind_some, toolCodeBlock_bytes]
    rfl

/-! The header of a call. -/

theorem find_lt {pat s : Text} (h : find pat s = some p) (hpat : 0 < pat.length) : p < s.length := by
  have hle := find_le h
  omega

theorem headerOpener_bytes (rest : Text) :
    Bytes.headerOpener rest = (headerOpener rest).map fun x => (x.1, byteAt rest x.2) := by
  unfold Bytes.headerOpener headerOpener
  cases hb : find ['{'] rest with
  | none =>
    rw [findByte_none hb]
    cases hp : find ['('] rest with
    | none =>
      rw [findByte_none hp]
      rfl
    | some p =>
      rw [findByte_some hp]
      rfl
  | some b =>
    rw [findByte_some hb]
    cases hp : find ['('] rest with
    | none =>
      rw [findByte_none hp]
      rfl
    | some p =>
      have horder : byteAt rest p < byteAt rest b ↔ p < b :=
        byteAt_lt_iff (Nat.le_of_lt (find_lt hp Nat.zero_lt_one)) (Nat.le_of_lt (find_lt hb Nat.zero_lt_one))
      rw [findByte_some hp]
      dsimp only
      by_cases hlt : p < b
      · rw [if_pos (horder.mpr hlt), if_pos hlt]
        rfl
      · rw [if_neg (fun h => hlt (horder.mp h)), if_neg hlt]
        rfl

theorem closesFirst_bytes (rest : Text) {opener : Option (Char × Nat)} (ho : headerOpener rest = opener) :
    Bytes.closesFirst rest (opener.map fun x => (x.1, byteAt rest x.2)) = (closesFirst rest opener).map (byteAt rest) := by
  unfold Bytes.closesFirst closesFirst
  cases hc : find toolCallClose rest with
  | none =>
    rw [findByte_none hc]
    rfl
  | some c =>
    rw [findByte_some hc]
    cases opener with
    | none => rfl
    | some x =>
      have horder : byteAt rest c < byteAt rest x.2 ↔ c < x.2 :=
        byteAt_lt_iff (Nat.le_of_lt (find_lt hc (by decide))) (Nat.le_of_lt (find_lt (headerOpener_at ho).2 Nat.zero_lt_one))
      dsimp only [Option.map_some]
      by_cases hlt : c < x.2
      · rw [if_pos (horder.mpr hlt), if_pos hlt]
        rfl
      · rw [if_neg (fun h => hlt (horder.mp h)), if_neg hlt]
        rfl

theorem afterPrefix_bytes (buf : Text) : Bytes.afterPrefix buf = (afterPrefix buf).map (byteAt buf) := by
  unfold Bytes.afterPrefix afterPrefix
  split
  · rename_i hp
    have hbehind := byteAt_behind (p := 0) (List.isPrefixOf_iff_prefix.mp hp)
    rw [byteAt_zero, Nat.zero_add, Nat.zero_add] at hbehind
    rw [Option.map_some, hbehind]
  · split <;> rfl

theorem stepInCallHeader_bytes (serde : GemmaSerde) (p : Gemma4ToolCallParser) :
    Bytes.stepInCallHeader serde p = some (stepInCallHeader serde p) := by
  unfold Bytes.stepInCallHeader stepInCallHeader
  rw [afterPrefix_bytes]
  cases afterPrefix p.buf with
  | none => rfl
  | some after =>
    dsimp only [Option.map_some]
    rw [sliceFrom_at, Option.bind_some, headerOpener_bytes, closesFirst_bytes _ rfl]
    cases closesFirst (p.buf.drop after) (headerOpener (p.buf.drop after)) with
    | some c =>
      dsimp only [Option.map_some]
      rw [sliceTo_at, Option.bind_some, sliceFrom_shift, List.drop_drop]
      rfl
    | none =>
      cases ho : headerOpener (p.buf.drop after) with
      | none => rfl
      | some x =>
        obtain ⟨kind, o⟩ := x
        have hat := find_drop (headerOpener_at ho).2
        have hkind : kind.utf8Size = 1 := by
          rcases (headerOpener_at ho).1 with rfl | rfl <;> rfl
        have hnext : byteAt p.buf after + byteAt (p.buf.drop after) o + 1 = byteAt p.buf (after + o + 1) := by
          rw [List.drop_drop, List.drop_drop] at hat
          have hbehind := @byteAt_behind (after + o) [kind] _ ⟨_, hat.symm⟩
          rw [byteLen_cons, byteLen_nil, hkind] at hbehind
          rw [← byteAt_add]
          exact hbehind.symm
        dsimp only [Option.map_some]
        rw [sliceTo_at, Option.bind_some]
        by_cases hbrace : kind = '{'
        · rw [if_pos hbrace, if_pos hbrace, hnext, sliceFrom_at]
          rfl
        · rw [if_neg hbrace, if_neg hbrace, sliceFrom_shift, Option.bind_some, matchingParen_bytes]
          cases hm : matchingParen ((p.buf.drop after).drop o) with
          | none => rfl
          | some k =>
            rw [List.drop_drop] at hm
            obtain ⟨hinner, hbehind⟩ := inner_slice hm
            rw [List.drop_drop]
            dsimp only [Option.map_some]
            rw [← byteAt_add, hinner, Option.bind_some, parsePythonArgs_bytes, Option.bind_some, hbehind, sliceFrom_at,
              Option.map_some, List.drop_drop, Nat.add_assoc after o 1]
            rfl

end Flambeau.Server.ToolCallParser.Gemma4

namespace Flambeau.Server.ToolCallParser.Gemma4
open Flambeau.Stream Flambeau.Runtime.JsonSchema

/-! The scan of the arguments by bytes: the look for a quote is a slice from each byte. -/

theorem splitByte_boundary (s : Text) (n : Nat) : isCharBoundary s n = true ↔ ∃ a t, s = a ++ t ∧ byteLen a = n := by
  constructor
  · intro h
    obtain ⟨r, hr⟩ := Option.isSome_iff_exists.mp h
    obtain ⟨happ, hlen⟩ := splitByte_append hr
    exact ⟨r.1, r.2, happ.symm, hlen⟩
  · rintro ⟨a, t, rfl, rfl⟩
    have hat := splitByte_at (a ++ t) a.length
    rw [byteAt, List.take_left] at hat
    rw [isCharBoundary, hat]
    rfl

/-- The slice the scan looks at. -/
theorem slice_window (a t : Text) (n : Nat) :
    slice (a ++ t) (byteLen a) (byteLen a + n) = (splitByte n t).map (·.1) := by
  rw [slice, if_pos (Nat.le_add_right _ _), sliceTo, splitByte_front, Option.map_map]
  cases splitByte n t with
  | none => rfl
  | some r => exact sliceFrom_front a r.1

/-- No slice starts inside a character. -/
theorem slice_inside (a s : Text) {c : Char} (hpos : 0 < j) (hlt : j < c.utf8Size) (n : Nat) :
    slice (a ++ c :: s) (byteLen a + j) (byteLen a + j + n) = none := by
  rw [slice, if_pos (Nat.le_add_right _ _), sliceTo]
  cases hs : splitByte (byteLen a + j + n) (a ++ c :: s) with
  | none => rfl
  | some r =>
    obtain ⟨happ, hlen⟩ := splitByte_append hs
    have hnone : splitByte (byteLen a + j) r.1 = none := by
      have hinside := splitByte_inside a s hpos hlt
      rw [← happ] at hinside
      cases hr : splitByte (byteLen a + j) r.1 with
      | none => rfl
      | some q =>
        obtain ⟨hfront, hq⟩ := splitByte_append hr
        have hboundary : isCharBoundary (r.1 ++ r.2) (byteLen a + j) = true :=
          (splitByte_boundary _ _).mpr ⟨q.1, q.2 ++ r.2, by rw [← List.append_assoc, hfront], hq⟩
        rw [isCharBoundary, hinside] at hboundary
        cases hboundary
    rw [Option.map_some, Option.bind_some, sliceFrom, hnone]
    rfl

/-- What the look of the scan at a character needs: where five bytes are left, they end at a
boundary; where more are, none of the looks that follow starts inside the character. -/
def LooksWhole (s : Text) : Prop :=
  (byteLen stringQuote ≤ byteLen s → isCharBoundary s (byteLen stringQuote) = true) ∧
    (byteLen stringQuote < byteLen s → ∀ c, s.head? = some c → c.toNat < 128)

theorem wide_size {c : Char} (hc : ¬ c.toNat < 128) : 1 < c.utf8Size := by
  have hpos := Char.utf8Size_pos c
  have hone : c.utf8Size ≠ 1 := by
    intro h
    rw [Char.utf8Size_eq_one_iff] at h
    exact hc (Nat.lt_succ_of_le h)
  omega

theorem lookaheadFaults_whole (c : Char) (s : Text) : lookaheadFaults (c :: s) = false ↔ LooksWhole (c :: s) := by
  have hpos := Char.utf8Size_pos c
  unfold lookaheadFaults LooksWhole
  rw [List.any_eq_false]
  simp only [List.mem_range, Bool.and_eq_true, decide_eq_true_eq, Bool.or_eq_true, bne_iff_ne, ne_eq,
    Bool.not_eq_true', not_and, not_or, Decidable.not_not, Bool.not_eq_false, List.head?_cons, Option.some.injEq]
  constructor
  · intro h
    refine ⟨fun hle => (h 0 hpos (by omega)).2, ?_⟩
    rintro hlt _ rfl
    apply Decidable.byContradiction
    intro hc
    have hone := (h 1 (wide_size hc) (by omega)).1
    cases hone
  · rintro ⟨hboundary, hascii⟩ j hj hle
    refine ⟨?_, hboundary (by omega)⟩
    apply Decidable.byContradiction
    intro hne
    have hsize := utf8Size_ascii (hascii (by omega) c rfl)
    omega

theorem quoteAt_window (a t : Text) :
    Bytes.quoteAt (a ++ t) (byteLen a) =
      if byteLen stringQuote ≤ byteLen t → isCharBoundary t (byteLen stringQuote) = true then
        some (stringQuote.isPrefixOf t)
      else none := by
  unfold Bytes.quoteAt
  rw [byteLen_append, slice_window]
  by_cases hroom : byteLen stringQuote ≤ byteLen t
  · rw [if_pos (Nat.add_le_add_left hroom _)]
    cases hs : splitByte (byteLen stringQuote) t with
    | none =>
      rw [if_neg ?_]
      · rfl
      · intro h
        have hb := h hroom
        rw [isCharBoundary, hs] at hb
        cases hb
    | some r =>
      obtain ⟨happ, hlen⟩ := splitByte_append hs
      rw [if_pos fun _ => by rw [isCharBoundary, hs]; rfl]
      simp only [Option.map_some, Option.some.injEq]
      rw [Bool.eq_iff_iff, beq_iff_eq, List.isPrefixOf_iff_prefix, ← happ]
      constructor
      · intro h
        rw [h]
        exact List.prefix_append _ _
      · rintro ⟨u, hu⟩
        have hsame := splitByte_at (stringQuote ++ u) stringQuote.length
        rw [byteAt, List.take_left, hu, happ, hs] at hsame
        exact congrArg (fun o => (o.getD ([], [])).1) hsame
  · have hnot : stringQuote.isPrefixOf t = false := by
      apply eq_false_of_ne_true
      intro h
      obtain ⟨u, rfl⟩ := List.isPrefixOf_iff_prefix.mp h
      rw [byteLen_append] at hroom
      omega
    rw [if_neg (by omega), if_pos fun h => absurd h hroom, hnot]

/-- The bytes of a longer character are passed, or the first look from inside it panics. -/
theorem scanArgs_inside (a s : Text) {c : Char} (hc : ¬ c.toNat < 128) (depth : Nat) (inString : Bool) :
    ∀ k j rounds, 0 < j → j + k = c.utf8Size →
      Bytes.scanArgs (a ++ c :: s) (rounds + k) depth inString (byteLen a + j) =
        if 0 < k ∧ j + byteLen stringQuote ≤ byteLen (c :: s) then none
        else Bytes.scanArgs (a ++ c :: s) rounds depth inString (byteLen a + c.utf8Size) := by
  intro k
  induction k with
  | zero =>
    rintro j rounds - rfl
    rw [if_neg (by omega)]
    rfl
  | succ k ih =>
    intro j rounds hpos hsize
    have hlen := byteLen_append a (c :: s)
    have hcons := byteLen_cons c s
    obtain ⟨b, hb, hwide⟩ : ∃ b, (bytes (a ++ c :: s))[byteLen a + j]? = some b ∧ 128 ≤ b.toNat := by
      have hin : j < (String.utf8EncodeChar c).length := by
        rw [String.length_utf8EncodeChar]
        omega
      refine ⟨(String.utf8EncodeChar c)[j], ?_, utf8EncodeChar_wide hc (List.getElem_mem hin)⟩
      rw [bytes_append, ← bytes_length, List.getElem?_append_right (Nat.le_add_right _ _), Nat.add_sub_cancel_left,
        bytes_cons, List.getElem?_append_left hin]
      exact List.getElem?_eq_getElem hin
    have hin : ¬ byteLen (a ++ c :: s) ≤ byteLen a + j := by omega
    rw [← Nat.add_assoc, Bytes.scanArgs, if_neg hin]
    unfold Bytes.quoteAt
    rw [hlen, slice_inside a s hpos (by omega)]
    by_cases hroom : j + byteLen stringQuote ≤ byteLen (c :: s)
    · have hlook : byteLen a + j + byteLen stringQuote ≤ byteLen a + byteLen (c :: s) := by omega
      have hfault : 0 < k + 1 ∧ j + byteLen stringQuote ≤ byteLen (c :: s) := ⟨Nat.succ_pos k, hroom⟩
      rw [if_pos hlook, if_pos hfault]
      rfl
    · have hlook : ¬ byteLen a + j + byteLen stringQuote ≤ byteLen a + byteLen (c :: s) := by omega
      have hrest := ih (j + 1) rounds (Nat.succ_pos j) (by omega)
      have hfault : ¬ (0 < k + 1 ∧ j + byteLen stringQuote ≤ byteLen (c :: s)) := fun h => hroom h.2
      rw [if_neg (by omega)] at hrest
      rw [if_neg hlook, if_neg hfault, ← hrest, Option.bind_some, if_neg Bool.false_ne_true, hb, Option.bind_some,
        if_neg fun h => wide_ne hwide (by decide) h.1, Option.bind_some, if_neg Bool.false_ne_true,
        if_neg (not_or_intro (wide_ne hwide (by decide)) (wide_ne hwide (by decide))),
        if_neg (wide_ne hwide (by decide)), if_neg (wide_ne hwide (by decide)), ite_self]
      rfl

theorem quote_wide {c : Char} (hc : ¬ c.toNat < 128) (s : Text) : stringQuote.isPrefixOf (c :: s) = false := by
  have hne : ('<' == c) = false := beq_eq_false_iff_ne.mpr fun h => char_ne hc (by decide) h.symm
  rw [stringQuote, List.isPrefixOf, hne, Bool.false_and]

theorem argStep_wide {c : Char} (hc : ¬ c.toNat < 128) (depth : Nat) (inString : Bool) (s : Text) :
    argStep depth inString c s = if lookaheadFaults (c :: s) = true then .fault else .advance 0 depth inString := by
  unfold argStep
  rw [quote_wide hc]
  simp only [char_ne hc (show ('<' : Char).toNat < 128 by decide), char_ne hc (show ('{' : Char).toNat < 128 by decide),
    char_ne hc (show ('[' : Char).toNat < 128 by decide), char_ne hc (show (']' : Char).toNat < 128 by decide),
    char_ne hc (show ('}' : Char).toNat < 128 by decide), decide_false, Bool.false_and, Bool.or_self, Bool.false_eq_true,
    if_false, ite_self]

theorem mayQuote_front (a t : Text) : Bytes.mayQuote (a ++ t) (byteLen a) = some (t.isPrefixOf stringQuote) := by
  rw [Bytes.mayQuote, sliceFrom_front]
  rfl

/-- What the byte scan does at a character is the step of the scan there, in so many rounds as the
character has bytes. -/
def Scans (a s : Text) (c : Char) (depth : Nat) (inString : Bool) (rounds : Nat) : ArgStep → Prop
  | .fault => Bytes.scanArgs (a ++ c :: s) rounds depth inString (byteLen a) = none
  | .hold => Bytes.scanArgs (a ++ c :: s) rounds depth inString (byteLen a) = some ⟨depth, inString, byteLen a, false⟩
  | .close => Bytes.scanArgs (a ++ c :: s) rounds depth inString (byteLen a) = some ⟨0, inString, byteLen a, true⟩
  | .advance more depth' inString' => ∃ left, byteLen (s.drop more) < left ∧
      Bytes.scanArgs (a ++ c :: s) rounds depth inString (byteLen a) =
        Bytes.scanArgs (a ++ c :: s) left depth' inString' (byteLen a + byteLen (c :: s.take more))

theorem scans_wide (a s : Text) {c : Char} (hc : ¬ c.toNat < 128) (depth : Nat) (inString : Bool)
    (hrounds : byteLen (c :: s) < rounds) : Scans a s c depth inString rounds (argStep depth inString c s) := by
  have hpos := Char.utf8Size_pos c
  have hsize := wide_size hc
  have hlen := byteLen_append a (c :: s)
  have hcons := byteLen_cons c s
  have hin : ¬ byteLen (a ++ c :: s) ≤ byteLen a := by omega
  obtain ⟨b, hb, hwide⟩ : ∃ b, (bytes (a ++ c :: s))[byteLen a]? = some b ∧ 128 ≤ b.toNat := by
    obtain ⟨b, bs, hbytes⟩ := List.exists_cons_of_ne_nil (String.utf8EncodeChar_ne_nil (c := c))
    refine ⟨b, ?_, utf8EncodeChar_wide hc (by rw [hbytes]; exact List.mem_cons_self)⟩
    rw [bytes_append, ← bytes_length, List.getElem?_append_right (Nat.le_refl _), Nat.sub_self, bytes_cons, hbytes]
    rfl
  obtain ⟨left, rfl⟩ : ∃ left, rounds = left + (c.utf8Size - 1) + 1 := ⟨rounds - c.utf8Size, by omega⟩
  have hstep : Bytes.scanArgs (a ++ c :: s) (left + (c.utf8Size - 1) + 1) depth inString (byteLen a) =
      if byteLen stringQuote ≤ byteLen (c :: s) → isCharBoundary (c :: s) (byteLen stringQuote) = true then
        Bytes.scanArgs (a ++ c :: s) (left + (c.utf8Size - 1)) depth inString (byteLen a + 1)
      else none := by
    rw [Bytes.scanArgs, if_neg hin, quoteAt_window]
    by_cases hwhole : byteLen stringQuote ≤ byteLen (c :: s) → isCharBoundary (c :: s) (byteLen stringQuote) = true
    · rw [if_pos hwhole, if_pos hwhole, Option.bind_some, quote_wide hc, if_neg Bool.false_ne_true, hb, Option.bind_some,
        if_neg fun h => wide_ne hwide (by decide) h.1, Option.bind_some, if_neg Bool.false_ne_true,
        if_neg (not_or_intro (wide_ne hwide (by decide)) (wide_ne hwide (by decide))),
        if_neg (wide_ne hwide (by decide)), if_neg (wide_ne hwide (by decide)), ite_self]
    · rw [if_neg hwhole, if_neg hwhole]
      rfl
  have hinside := scanArgs_inside a s hc depth inString (c.utf8Size - 1) 1 left Nat.one_pos (by omega)
  have hlooks := lookaheadFaults_whole c s
  rw [argStep_wide hc]
  by_cases hfault : lookaheadFaults (c :: s) = true
  · rw [if_pos hfault]
    change Bytes.scanArgs _ _ _ _ _ = none
    rw [hstep]
    split
    · rename_i hwhole
      have hroom : 0 < c.utf8Size - 1 ∧ 1 + byteLen stringQuote ≤ byteLen (c :: s) := by
        refine ⟨by omega, ?_⟩
        apply Decidable.byContradiction
        intro hshort
        have hfine := hlooks.mpr ⟨hwhole, fun hlt => absurd hlt (by omega)⟩
        rw [hfault] at hfine
        cases hfine
      rw [hinside, if_pos hroom]
    · rfl
  · obtain ⟨hwhole, hascii⟩ := hlooks.mp (eq_false_of_ne_true hfault)
    have hroom : ¬ (0 < c.utf8Size - 1 ∧ 1 + byteLen stringQuote ≤ byteLen (c :: s)) :=
      fun h => hc (hascii (by omega) c rfl)
    rw [if_neg hfault]
    refine ⟨left, ?_, ?_⟩
    · rw [List.drop_zero]
      omega
    · rw [hstep, if_pos hwhole, hinside, if_neg hroom, List.take_zero, byteLen_cons, byteLen_nil, Nat.add_zero]

theorem scans_ascii (a s : Text) {c : Char} (hc : c.toNat < 128) (depth : Nat) (inString : Bool)
    (hrounds : byteLen (c :: s) < rounds) : Scans a s c depth inString rounds (argStep depth inString c s) := by
  have hsize := utf8Size_ascii hc
  have hlen := byteLen_append a (c :: s)
  have hcons := byteLen_cons c s
  have hin : ¬ byteLen (a ++ c :: s) ≤ byteLen a := by omega
  have hb : (bytes (a ++ c :: s))[byteLen a]? = some c.toUInt8 := by
    rw [bytes_append, ← bytes_length, List.getElem?_append_right (Nat.le_refl _), Nat.sub_self, bytes_cons_ascii hc]
    rfl
  have hwhole : lookaheadFaults (c :: s) = false ↔
      (byteLen stringQuote ≤ byteLen (c :: s) → isCharBoundary (c :: s) (byteLen stringQuote) = true) := by
    rw [lookaheadFaults_whole]
    refine ⟨fun h => h.1, fun h => ⟨h, ?_⟩⟩
    rintro - _ hhead
    cases hhead
    exact hc
  have heq : ∀ d : Char, d.toNat < 128 → (c.toUInt8 = d.toUInt8 ↔ c = d) := fun d hd => toUInt8_eq hc hd
  obtain ⟨left, rfl⟩ : ∃ left, rounds = left + 1 := ⟨rounds - 1, by omega⟩
  have hnext : ∀ depth', ∃ l, byteLen (s.drop 0) < l ∧
      Bytes.scanArgs (a ++ c :: s) left depth' inString (byteLen a + 1) =
        Bytes.scanArgs (a ++ c :: s) l depth' inString (byteLen a + byteLen (c :: s.take 0)) := by
    intro depth'
    refine ⟨left, ?_, ?_⟩
    · rw [List.drop_zero]
      omega
    · rw [List.take_zero, byteLen_cons, byteLen_nil, hsize]
  by_cases hfault : lookaheadFaults (c :: s) = true
  · have hstep : argStep depth inString c s = .fault := by rw [argStep, if_pos hfault]
    rw [hstep, Scans, Bytes.scanArgs, if_neg hin, quoteAt_window, if_neg ?_]
    · rfl
    · intro h
      rw [hwhole.mpr h] at hfault
      cases hfault
  have hlook : Bytes.quoteAt (a ++ c :: s) (byteLen a) = some (stringQuote.isPrefixOf (c :: s)) := by
    rw [quoteAt_window, if_pos (hwhole.mp (eq_false_of_ne_true hfault))]
  by_cases hquote : stringQuote.isPrefixOf (c :: s) = true
  · have hstep : argStep depth inString c s = .advance (stringQuote.length - 1) depth (!inString) := by
      rw [argStep, if_neg hfault, if_pos hquote]
    obtain ⟨u, hu⟩ := List.isPrefixOf_iff_prefix.mp hquote
    have hlong : byteLen (c :: s) = byteLen stringQuote + byteLen u := by rw [← hu, byteLen_append]
    have hfive : byteLen stringQuote = 5 := by decide
    cases hu
    rw [hstep, Scans, Bytes.scanArgs, if_neg hin, hlook, Option.bind_some, if_pos hquote]
    refine ⟨left, ?_, rfl⟩
    change byteLen u < left
    omega
  have hstep : Bytes.scanArgs (a ++ c :: s) (left + 1) depth inString (byteLen a) =
      if c = '<' ∧ (inString = true → byteLen (c :: s) < byteLen stringQuote) ∧ (c :: s).isPrefixOf stringQuote = true then
        some ⟨depth, inString, byteLen a, false⟩
      else if inString = true then Bytes.scanArgs (a ++ c :: s) left depth inString (byteLen a + 1)
      else if c = '{' ∨ c = '[' then Bytes.scanArgs (a ++ c :: s) left (depth + 1) inString (byteLen a + 1)
      else if c = ']' then Bytes.scanArgs (a ++ c :: s) left (depth - 1) inString (byteLen a + 1)
      else if c = '}' then
        if depth = 0 then Bytes.scanArgs (a ++ c :: s) left depth inString (byteLen a + 1)
        else if depth - 1 = 0 then some ⟨0, inString, byteLen a, true⟩
        else Bytes.scanArgs (a ++ c :: s) left (depth - 1) inString (byteLen a + 1)
      else Bytes.scanArgs (a ++ c :: s) left depth inString (byteLen a + 1) := by
    have hroom : byteLen a + byteLen (c :: s) < byteLen a + byteLen stringQuote ↔ byteLen (c :: s) < byteLen stringQuote := by
      omega
    rw [Bytes.scanArgs, if_neg hin, hlook, Option.bind_some, if_neg hquote, hb, Option.bind_some, mayQuote_front, hlen]
    simp only [heq '<' (by decide), heq '{' (by decide), heq '[' (by decide), heq ']' (by decide), heq '}' (by decide), hroom]
    by_cases htail : c = '<' ∧ (inString = true → byteLen (c :: s) < byteLen stringQuote)
    · rw [if_pos htail, Option.bind_some]
      simp only [htail.1, true_and, and_iff_right (htail.1 ▸ htail.2)]
    · have hpass : ¬ (c = '<' ∧ (inString = true → byteLen (c :: s) < byteLen stringQuote) ∧
          (c :: s).isPrefixOf stringQuote = true) := fun h => htail ⟨h.1, h.2.1⟩
      rw [if_neg htail, Option.bind_some, if_neg Bool.false_ne_true, if_neg hpass]
  have hgo : ∀ d, Bytes.scanArgs (a ++ c :: s) (left + 1) depth inString (byteLen a) =
      Bytes.scanArgs (a ++ c :: s) left d inString (byteLen a + 1) →
      Scans a s c depth inString (left + 1) (.advance 0 d inString) := by
    intro d h
    obtain ⟨l, hl, hn⟩ := hnext d
    exact ⟨l, hl, h.trans hn⟩
  rw [argStep, if_neg hfault, if_neg hquote]
  cases inString with
  | true =>
    rw [if_pos rfl]
    simp only [Bool.and_eq_true, decide_eq_true_eq, forall_const] at hstep ⊢
    by_cases hhold : (c = '<' ∧ byteLen (c :: s) < byteLen stringQuote) ∧ (c :: s).isPrefixOf stringQuote = true
    · rw [if_pos hhold]
      rw [and_assoc] at hhold
      exact hstep.trans (if_pos hhold)
    · rw [if_neg hhold]
      rw [and_assoc] at hhold
      rw [if_neg hhold, if_pos trivial] at hstep
      exact hgo depth hstep
  | false =>
    rw [if_neg Bool.false_ne_true]
    simp only [Bool.and_eq_true, Bool.or_eq_true, decide_eq_true_eq, Bool.false_eq_true, false_implies, true_and,
      if_false] at hstep ⊢
    by_cases hhold : c = '<' ∧ (c :: s).isPrefixOf stringQuote = true
    · rw [if_pos hhold]
      exact hstep.trans (if_pos hhold)
    rw [if_neg hhold] at hstep ⊢
    by_cases hopen : c = '{' ∨ c = '['
    · rw [if_pos hopen] at hstep ⊢
      exact hgo _ hstep
    rw [if_neg hopen] at hstep ⊢
    by_cases hbracket : c = ']'
    · rw [if_pos hbracket] at hstep ⊢
      exact hgo _ hstep
    rw [if_neg hbracket] at hstep ⊢
    by_cases hbrace : c = '}'
    · rw [if_pos hbrace] at hstep ⊢
      by_cases hzero : depth = 0
      · rw [if_pos hzero] at hstep ⊢
        exact hgo _ hstep
      rw [if_neg hzero] at hstep ⊢
      by_cases hlast : depth - 1 = 0
      · rw [if_pos hlast] at hstep ⊢
        exact hstep
      rw [if_neg hlast] at hstep ⊢
      exact hgo _ hstep
    rw [if_neg hbrace] at hstep ⊢
    exact hgo _ hstep

/-- The scan by bytes is the scan by characters. -/
theorem scanArgs_bytes (a t : Text) (depth : Nat) (inString : Bool) (hrounds : byteLen t < rounds) :
    Bytes.scanArgs (a ++ t) rounds depth inString (byteLen a) = (scanArgs depth inString t).map fun r =>
      ⟨r.depth, r.inString, byteLen a + byteLen r.consumed, r.closed⟩ := by
  match t with
  | [] =>
    obtain ⟨left, rfl⟩ : ∃ left, rounds = left + 1 := ⟨rounds - 1, by omega⟩
    rw [List.append_nil, Bytes.scanArgs, if_pos (Nat.le_refl _), scanArgs]
    rfl
  | c :: s =>
    have hstep : Scans a s c depth inString rounds (argStep depth inString c s) := by
      by_cases hc : c.toNat < 128
      · exact scans_ascii a s hc depth inString hrounds
      · exact scans_wide a s hc depth inString hrounds
    rw [scanArgs_cons]
    cases hact : argStep depth inString c s with
    | fault =>
      rw [hact] at hstep
      exact hstep
    | hold =>
      rw [hact] at hstep
      exact hstep
    | close =>
      rw [hact] at hstep
      exact hstep
    | advance more depth' inString' =>
      rw [hact] at hstep
      obtain ⟨left, hleft, hstep⟩ := hstep
      have happ : a ++ c :: s = (a ++ c :: s.take more) ++ s.drop more := by
        rw [List.append_assoc, List.cons_append, List.take_append_drop]
      have ih := scanArgs_bytes (a ++ c :: s.take more) (s.drop more) depth' inString' hleft
      rw [hstep, ← byteLen_append, happ, ih, Option.map_map]
      congr 1
      funext r
      rw [Function.comp_apply, ArgScan.after, byteLen_append, byteLen_append, Nat.add_assoc]
termination_by t.length
decreasing_by
  rw [List.length_drop, List.length_cons]
  omega

end Flambeau.Server.ToolCallParser.Gemma4
