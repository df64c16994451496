import Flambeau.Server.ToolCallParser.Gemma4ParserBytes

namespace Flambeau.Server.ToolCallParser.Gemma4
open Flambeau.Stream Flambeau.Runtime.JsonSchema

/-! The scans of a python call by bytes. A byte of a longer character does nothing to them. -/

theorem isQuote_ascii {c : Char} (hc : c.toNat < 128) : Bytes.isQuote c.toUInt8 = isQuote c := by
  rw [Bytes.isQuote, isQuote, ascii_beq hc (by decide), ascii_beq hc (by decide)]

theorem isOpener_ascii {c : Char} (hc : c.toNat < 128) : Bytes.isOpener c.toUInt8 = isOpener c := by
  rw [Bytes.isOpener, isOpener, ascii_beq hc (by decide), ascii_beq hc (by decide), ascii_beq hc (by decide)]

theorem isCloser_ascii {c : Char} (hc : c.toNat < 128) : Bytes.isCloser c.toUInt8 = isCloser c := by
  rw [Bytes.isCloser, isCloser, ascii_beq hc (by decide), ascii_beq hc (by decide), ascii_beq hc (by decide)]

section
variable {b : UInt8} {c : Char}

theorem byte_beq (hb : 128 ≤ b.toNat) {d : Char} (hd : d.toNat < 128) : (b == d.toUInt8) = false := by
  rw [beq_eq_false_iff_ne]
  exact wide_ne hb hd

theorem char_beq (hc : ¬ c.toNat < 128) {d : Char} (hd : d.toNat < 128) : (c == d) = false := by
  rw [beq_eq_false_iff_ne]
  rintro rfl
  exact hc hd

theorem isQuote_byte (hb : 128 ≤ b.toNat) : Bytes.isQuote b = false := by
  rw [Bytes.isQuote, byte_beq hb (by decide), byte_beq hb (by decide), Bool.or_false]

theorem isQuote_wide (hc : ¬ c.toNat < 128) : isQuote c = false := by
  rw [isQuote, char_beq hc (by decide), char_beq hc (by decide), Bool.or_false]

theorem isOpener_byte (hb : 128 ≤ b.toNat) : Bytes.isOpener b = false := by
  rw [Bytes.isOpener, byte_beq hb (by decide), byte_beq hb (by decide), byte_beq hb (by decide), Bool.or_false, Bool.or_false]

theorem isOpener_wide (hc : ¬ c.toNat < 128) : isOpener c = false := by
  rw [isOpener, char_beq hc (by decide), char_beq hc (by decide), char_beq hc (by decide), Bool.or_false, Bool.or_false]

theorem isCloser_byte (hb : 128 ≤ b.toNat) : Bytes.isCloser b = false := by
  rw [Bytes.isCloser, byte_beq hb (by decide), byte_beq hb (by decide), byte_beq hb (by decide), Bool.or_false, Bool.or_false]

theorem isCloser_wide (hc : ¬ c.toNat < 128) : isCloser c = false := by
  rw [isCloser, char_beq hc (by decide), char_beq hc (by decide), char_beq hc (by decide), Bool.or_false, Bool.or_false]

theorem char_ne (hc : ¬ c.toNat < 128) {d : Char} (hd : d.toNat < 128) : c ≠ d := by
  rintro rfl
  exact hc hd

theorem quote_ascii {q : Char} (h : isQuote q = true) : q.toNat < 128 := by
  rw [isQuote, Bool.or_eq_true, beq_iff_eq, beq_iff_eq] at h
  rcases h with rfl | rfl <;> decide

end

/-- The open quote as the byte scan has it. -/
def quoteByte (quote : Option Char) : Option UInt8 := quote.map Char.toUInt8

theorem matchingParen_wide {bs : List UInt8} (hbs : ∀ b ∈ bs, 128 ≤ b.toNat) (depth : Int) {quote : Option Char}
    (hquote : ∀ q, quote = some q → isQuote q = true) (rest : List UInt8) :
    Bytes.matchingParen.go depth (quoteByte quote) (bs ++ rest) =
      (Bytes.matchingParen.go depth (quoteByte quote) rest).map (· + bs.length) := by
  induction bs with
  | nil =>
    rw [List.nil_append]
    cases Bytes.matchingParen.go depth (quoteByte quote) rest <;> rfl
  | cons b bs ih =>
    have hb := hbs b List.mem_cons_self
    have ih := ih fun b' hb' => hbs b' (List.mem_cons_of_mem b hb')
    rw [List.cons_append, List.length_cons]
    cases quote with
    | none =>
      unfold quoteByte at ih ⊢
      rw [Option.map_none, Bytes.matchingParen.go.eq_def]
      dsimp only
      rw [isQuote_byte hb, if_neg Bool.false_ne_true, if_neg (wide_ne hb (by decide)), if_neg (wide_ne hb (by decide)),
        show (none : Option UInt8) = Option.map Char.toUInt8 none from rfl, ih, Option.map_map]
      congr 1
    | some q =>
      unfold quoteByte at ih ⊢
      rw [Option.map_some, Bytes.matchingParen.go.eq_def]
      dsimp only
      rw [if_neg (wide_ne hb (by decide)), if_neg (wide_ne hb (quote_ascii (hquote q rfl))),
        show some q.toUInt8 = Option.map Char.toUInt8 (some q) from rfl, ih, Option.map_map]
      congr 1

theorem matchingParen_go (depth : Int) (quote : Option Char) (s : Text)
    (hquote : ∀ q, quote = some q → isQuote q = true) :
    Bytes.matchingParen.go depth (quoteByte quote) (bytes s) = (matchingParen.go depth quote s).map (byteAt s) := by
  match s with
  | [] => cases quote <;> rfl
  | c :: s =>
    have hpass : ∀ (d : Int) (q : Option Char), (∀ x, q = some x → isQuote x = true) → ∀ w : Nat, w = c.utf8Size →
        (Bytes.matchingParen.go d (quoteByte q) (bytes s)).map (· + w) =
          ((matchingParen.go d q s).map (· + 1)).map (byteAt (c :: s)) := by
      rintro d q hq w rfl
      rw [matchingParen_go d q s hq, Option.map_map, Option.map_map]
      congr 1
      funext k
      exact (byteAt_succ c s k).symm
    by_cases hc : c.toNat < 128
    · have hone := utf8Size_ascii hc
      rw [bytes_cons_ascii hc]
      cases quote with
      | none =>
        change Bytes.matchingParen.go depth none _ = _
        rw [Bytes.matchingParen.go.eq_def, matchingParen.go.eq_def]
        dsimp only
        rw [isQuote_ascii hc]
        by_cases hq : isQuote c = true
        · rw [if_pos hq, if_pos hq]
          exact hpass depth (some c) (fun x hx => by cases hx; exact hq) 1 hone.symm
        rw [if_neg hq, if_neg hq]
        simp only [toUInt8_eq hc (show ('(' : Char).toNat < 128 by decide), toUInt8_eq hc (show (')' : Char).toNat < 128 by decide)]
        by_cases hopen : c = '('
        · rw [if_pos hopen, if_pos hopen]
          exact hpass (depth + 1) none nofun 1 hone.symm
        rw [if_neg hopen, if_neg hopen]
        by_cases hclose : c = ')'
        · rw [if_pos hclose, if_pos hclose]
          by_cases hdepth : depth - 1 = 0
          · rw [if_pos hdepth, if_pos hdepth]
            rfl
          · rw [if_neg hdepth, if_neg hdepth]
            exact hpass (depth - 1) none nofun 1 hone.symm
        · rw [if_neg hclose, if_neg hclose]
          exact hpass depth none nofun 1 hone.symm
      | some q =>
        have hq := quote_ascii (hquote q rfl)
        change Bytes.matchingParen.go depth (some q.toUInt8) _ = _
        rw [Bytes.matchingParen.go.eq_def, matchingParen.go.eq_def]
        dsimp only
        simp only [toUInt8_eq hc (show ('\\' : Char).toNat < 128 by decide), toUInt8_eq hc hq]
        by_cases hesc : c = '\\'
        · rw [if_pos hesc, if_pos hesc]
          match s with
          | [] => rfl
          | d :: s =>
            obtain ⟨b, bs, hb⟩ := List.exists_cons_of_ne_nil (String.utf8EncodeChar_ne_nil (c := d))
            have hlen : bs.length + 1 = d.utf8Size := by
              have hsize := String.length_utf8EncodeChar d
              rwa [hb, List.length_cons] at hsize
            have hwide : ∀ x ∈ bs, 128 ≤ x.toNat := by
              intro x hx
              by_cases hd : d.toNat < 128
              · rw [utf8EncodeChar_ascii hd] at hb
                cases hb
                cases hx
              · exact utf8EncodeChar_wide hd (by rw [hb]; exact List.mem_cons_of_mem b hx)
            rw [bytes_cons, hb, List.cons_append]
            dsimp only
            change ((Bytes.matchingParen.go depth (quoteByte (some q)) (bs ++ bytes s)).map (· + 2)) = _
            rw [matchingParen_wide hwide depth hquote, matchingParen_go depth (some q) s hquote, Option.map_map,
              Option.map_map, Option.map_map]
            congr 1
            funext k
            have hback : byteAt (c :: d :: s) (k + 2) = byteAt s k + d.utf8Size + c.utf8Size := by
              rw [byteAt_succ, byteAt_succ]
            rw [Function.comp_apply, Function.comp_apply, Function.comp_apply, hback]
            omega
        · rw [if_neg hesc, if_neg hesc]
          by_cases hend : c = q
          · rw [if_pos hend, if_pos hend]
            exact hpass depth none nofun 1 hone.symm
          · rw [if_neg hend, if_neg hend]
            exact hpass depth (some q) hquote 1 hone.symm
    · rw [bytes_cons, matchingParen_wide (fun b hb => utf8EncodeChar_wide hc hb) depth hquote, String.length_utf8EncodeChar]
      have hskip : matchingParen.go depth quote (c :: s) = (matchingParen.go depth quote s).map (· + 1) := by
        cases quote with
        | none =>
          rw [matchingParen.go.eq_def]
          dsimp only
          rw [isQuote_wide hc, if_neg Bool.false_ne_true, if_neg (char_ne hc (by decide)), if_neg (char_ne hc (by decide))]
        | some q =>
          rw [matchingParen.go.eq_def]
          dsimp only
          rw [if_neg (char_ne hc (by decide)), if_neg (char_ne hc (quote_ascii (hquote q rfl)))]
      rw [hskip]
      exact hpass depth quote hquote _ rfl
termination_by s.length

theorem matchingParen_bytes (s : Text) : Bytes.matchingParen s = (matchingParen s).map (byteAt s) := by
  unfold Bytes.matchingParen matchingParen
  by_cases hopen : s.head? = some '('
  · rw [if_pos ((bytes_head (by decide) s).mpr hopen), if_pos hopen]
    exact matchingParen_go 0 none s nofun
  · rw [if_neg (fun h => hopen ((bytes_head (by decide) s).mp h)), if_neg hopen]
    rfl

/-- The parenthesis that is found is not the first one. -/
theorem matchingParen_brace {s : Text} (h : matchingParen s = some k) :
    1 ≤ k ∧ s.drop 0 = '(' :: s.drop 1 ∧ s.drop k = ')' :: s.drop (k + 1) := by
  unfold matchingParen at h
  split at h
  · rename_i hopen
    obtain ⟨t, rfl⟩ := List.head?_eq_some_iff.mp hopen
    have hstep : matchingParen.go 0 none ('(' :: t) = (matchingParen.go 1 none t).map (· + 1) := rfl
    rw [hstep] at h
    obtain ⟨j, hj, rfl⟩ := Option.map_eq_some_iff.mp h
    refine ⟨Nat.le_add_left 1 j, rfl, ?_⟩
    rw [List.drop_succ_cons, List.drop_succ_cons]
    exact closes 1 none t j hj
  · cases h
where
  closes (depth : Int) (quote : Option Char) (s : Text) (k : Nat) (h : matchingParen.go depth quote s = some k) :
      s.drop k = ')' :: s.drop (k + 1) := by
    match s with
    | [] => cases quote <;> cases h
    | c :: s =>
      have hpass : ∀ (d : Int) (q : Option Char), (matchingParen.go d q s).map (· + 1) = some k →
          (c :: s).drop k = ')' :: (c :: s).drop (k + 1) := by
        intro d q hq
        obtain ⟨j, hj, rfl⟩ := Option.map_eq_some_iff.mp hq
        rw [List.drop_succ_cons, List.drop_succ_cons]
        exact closes d q s j hj
      cases quote with
      | none =>
        rw [matchingParen.go.eq_def] at h
        dsimp only at h
        split at h
        · exact hpass _ _ h
        split at h
        · exact hpass _ _ h
        split at h
        · rename_i hclose
          split at h
          · cases h
            rw [hclose]
            rfl
          · exact hpass _ _ h
        · exact hpass _ _ h
      | some q =>
        rw [matchingParen.go.eq_def] at h
        dsimp only at h
        split at h
        · cases s with
          | nil => cases h
          | cons d s =>
            obtain ⟨j, hj, rfl⟩ := Option.map_eq_some_iff.mp h
            rw [List.drop_succ_cons, List.drop_succ_cons, List.drop_succ_cons, List.drop_succ_cons]
            exact closes depth (some q) s j hj
        · exact hpass _ _ h
  termination_by s.length

/-! The parts of the arguments. -/

theorem splitTopLevel_wide {bs : List UInt8} (hbs : ∀ b ∈ bs, 128 ≤ b.toNat) {sep : Char} (hsep : sep.toNat < 128)
    (s : Text) (depth : Int) {quote : Option Char} (hquote : ∀ q, quote = some q → isQuote q = true) (start i : Nat)
    (rest : List UInt8) :
    Bytes.splitTopLevel.go sep s depth (quoteByte quote) start i (bs ++ rest) =
      Bytes.splitTopLevel.go sep s depth (quoteByte quote) start (i + bs.length) rest := by
  induction bs generalizing i with
  | nil => rfl
  | cons b bs ih =>
    have hb := hbs b List.mem_cons_self
    have ih := ih (fun b' hb' => hbs b' (List.mem_cons_of_mem b hb')) (i + 1)
    have hlen : i + 1 + bs.length = i + (b :: bs).length := by
      rw [List.length_cons]
      omega
    rw [hlen] at ih
    rw [List.cons_append, ← ih]
    cases quote with
    | none =>
      change Bytes.splitTopLevel.go sep s depth none start i _ = Bytes.splitTopLevel.go sep s depth none start _ _
      rw [Bytes.splitTopLevel.go.eq_def]
      dsimp only
      rw [isQuote_byte hb, if_neg Bool.false_ne_true, isOpener_byte hb, if_neg Bool.false_ne_true, isCloser_byte hb,
        if_neg Bool.false_ne_true, if_neg (fun h => wide_ne hb hsep h.1)]
    | some q =>
      change Bytes.splitTopLevel.go sep s depth (some q.toUInt8) start i _ =
        Bytes.splitTopLevel.go sep s depth (some q.toUInt8) start _ _
      rw [Bytes.splitTopLevel.go.eq_def]
      dsimp only
      rw [if_neg (wide_ne hb (by decide)), if_neg (wide_ne hb (quote_ascii (hquote q rfl)))]

theorem splitTopLevel_go {sep : Char} (hsep : sep.toNat < 128) (depth : Int) (quote : Option Char)
    (front segment t : Text) (hquote : ∀ q, quote = some q → isQuote q = true) :
    Bytes.splitTopLevel.go sep (front ++ (segment ++ t)) depth (quoteByte quote) (byteLen front)
        (byteLen (front ++ segment)) (bytes t) = some (splitTopLevel.go sep depth quote segment t) := by
  have hlast : ∀ w : Text, (sliceFrom (front ++ w) (byteLen front)).map (fun part => [part]) = some [w] := by
    intro w
    rw [sliceFrom_front]
    rfl
  match t with
  | [] =>
    rw [List.append_nil]
    cases quote with
    | none => exact hlast segment
    | some q => exact hlast segment
  | c :: t =>
    have hback : front ++ (segment ++ c :: t) = front ++ ((segment ++ [c]) ++ t) := by
      rw [List.append_assoc segment, List.singleton_append]
    have hnext : ∀ w, w = c.utf8Size → byteLen (front ++ segment) + w = byteLen (front ++ (segment ++ [c])) := by
      rintro w rfl
      rw [← List.append_assoc, byteLen_append (front ++ segment), byteLen_cons, byteLen_nil, Nat.add_zero]
    have hpass : ∀ (d : Int) (q : Option Char), (∀ x, q = some x → isQuote x = true) → ∀ w, w = c.utf8Size →
        Bytes.splitTopLevel.go sep (front ++ (segment ++ c :: t)) d (quoteByte q) (byteLen front)
          (byteLen (front ++ segment) + w) (bytes t) = some (splitTopLevel.go sep d q (segment ++ [c]) t) := by
      intro d q hq w hw
      rw [hnext w hw, hback]
      exact splitTopLevel_go hsep d q front (segment ++ [c]) t hq
    by_cases hc : c.toNat < 128
    · have hone := utf8Size_ascii hc
      rw [bytes_cons_ascii hc]
      cases quote with
      | none =>
        change Bytes.splitTopLevel.go sep _ depth none _ _ _ = _
        rw [Bytes.splitTopLevel.go.eq_def, splitTopLevel.go.eq_def]
        dsimp only
        rw [isQuote_ascii hc, isOpener_ascii hc, isCloser_ascii hc]
        by_cases hq : isQuote c = true
        · rw [if_pos hq, if_pos hq]
          exact hpass depth (some c) (fun x hx => by cases hx; exact hq) 1 hone.symm
        rw [if_neg hq, if_neg hq]
        by_cases hopen : isOpener c = true
        · rw [if_pos hopen, if_pos hopen]
          exact hpass (depth + 1) none nofun 1 hone.symm
        rw [if_neg hopen, if_neg hopen]
        by_cases hclose : isCloser c = true
        · rw [if_pos hclose, if_pos hclose]
          exact hpass (depth - 1) none nofun 1 hone.symm
        rw [if_neg hclose, if_neg hclose]
        simp only [toUInt8_eq hc hsep]
        by_cases hsplit : c = sep ∧ depth = 0
        · have hrest := splitTopLevel_go hsep depth none (front ++ (segment ++ [c])) [] t nofun
          rw [List.append_nil, List.nil_append, List.append_assoc, ← hback, ← hnext 1 hone.symm] at hrest
          rw [if_pos hsplit, if_pos hsplit, slice_append, Option.bind_some]
          change (Bytes.splitTopLevel.go sep _ depth (quoteByte none) _ _ _).map _ = _
          rw [hrest]
          rfl
        · rw [if_neg hsplit, if_neg hsplit]
          exact hpass depth none nofun 1 hone.symm
      | some q =>
        have hq := quote_ascii (hquote q rfl)
        change Bytes.splitTopLevel.go sep _ depth (some q.toUInt8) _ _ _ = _
        rw [Bytes.splitTopLevel.go.eq_def, splitTopLevel.go.eq_def]
        dsimp only
        simp only [toUInt8_eq hc (show ('\\' : Char).toNat < 128 by decide), toUInt8_eq hc hq]
        by_cases hesc : c = '\\'
        · rw [if_pos hesc, if_pos hesc]
          match t with
          | [] => exact hlast (segment ++ [c])
          | d :: t =>
            obtain ⟨b, bs, hb⟩ := List.exists_cons_of_ne_nil (String.utf8EncodeChar_ne_nil (c := d))
            have hlen : bs.length + 1 = d.utf8Size := by
              have hsize := String.length_utf8EncodeChar d
              rwa [hb, List.length_cons] at hsize
            have hwide : ∀ x ∈ bs, 128 ≤ x.toNat := by
              intro x hx
              by_cases hd : d.toNat < 128
              · rw [utf8EncodeChar_ascii hd] at hb
                cases hb
                cases hx
              · exact utf8EncodeChar_wide hd (by rw [hb]; exact List.mem_cons_of_mem b hx)
            have hboth : front ++ (segment ++ c :: d :: t) = front ++ ((segment ++ [c, d]) ++ t) := by
              rw [List.append_assoc segment]
              rfl
            have hat : byteLen (front ++ segment) + 2 + bs.length = byteLen (front ++ (segment ++ [c, d])) := by
              rw [← List.append_assoc, byteLen_append (front ++ segment), byteLen_cons, byteLen_cons, byteLen_nil]
              omega
            rw [bytes_cons, hb, List.cons_append]
            change Bytes.splitTopLevel.go sep _ depth (quoteByte (some q)) _ _ (bs ++ bytes t) = _
            rw [splitTopLevel_wide hwide hsep _ depth hquote, hat, hboth]
            exact splitTopLevel_go hsep depth (some q) front (segment ++ [c, d]) t hquote
        · rw [if_neg hesc, if_neg hesc]
          by_cases hend : c = q
          · rw [if_pos hend, if_pos hend]
            exact hpass depth none nofun 1 hone.symm
          · rw [if_neg hend, if_neg hend]
            exact hpass depth (some q) hquote 1 hone.symm
    · rw [bytes_cons, splitTopLevel_wide (fun b hb => utf8EncodeChar_wide hc hb) hsep _ depth hquote,
        String.length_utf8EncodeChar]
      have hskip : splitTopLevel.go sep depth quote segment (c :: t) = splitTopLevel.go sep depth quote (segment ++ [c]) t := by
        cases quote with
        | none =>
          rw [splitTopLevel.go.eq_def]
          dsimp only
          rw [isQuote_wide hc, if_neg Bool.false_ne_true, isOpener_wide hc, if_neg Bool.false_ne_true, isCloser_wide hc,
            if_neg Bool.false_ne_true, if_neg (fun h => char_ne hc hsep h.1)]
        | some q =>
          rw [splitTopLevel.go.eq_def]
          dsimp only
          rw [if_neg (char_ne hc (by decide)), if_neg (char_ne hc (quote_ascii (hquote q rfl)))]
      rw [hskip]
      exact hpass depth quote hquote _ rfl
termination_by t.length

theorem splitTopLevel_bytes {sep : Char} (hsep : sep.toNat < 128) (s : Text) :
    Bytes.splitTopLevel sep s = some (splitTopLevel sep s) := splitTopLevel_go hsep 0 none [] [] s nofun

/-- The first part ends at a separator or with the text. -/
theorem splitTopLevel_first (sep : Char) (s : Text) : ∃ k parts t, splitTopLevel sep s = k :: parts ∧ s = k ++ t ∧
    ∀ d u, t = d :: u → d = sep := go 0 none [] s
where
  go (depth : Int) (quote : Option Char) (segment s : Text) : ∃ k parts t,
      splitTopLevel.go sep depth quote segment s = k :: parts ∧ segment ++ s = k ++ t ∧ ∀ d u, t = d :: u → d = sep := by
    match s with
    | [] => cases quote <;> exact ⟨segment, [], [], rfl, rfl, nofun⟩
    | c :: s =>
      have hpass : ∀ (d : Int) (q : Option Char), ∃ k parts t, splitTopLevel.go sep d q (segment ++ [c]) s = k :: parts ∧
          segment ++ c :: s = k ++ t ∧ ∀ d u, t = d :: u → d = sep := by
        intro d q
        obtain ⟨k, parts, t, hgo, hsplit, hsep⟩ := go d q (segment ++ [c]) s
        exact ⟨k, parts, t, hgo, by rw [← hsplit, List.append_assoc, List.singleton_append], hsep⟩
      cases quote with
      | none =>
        rw [splitTopLevel.go.eq_def]
        dsimp only
        split
        · exact hpass _ _
        split
        · exact hpass _ _
        split
        · exact hpass _ _
        split
        · rename_i h
          refine ⟨segment, _, c :: s, rfl, rfl, ?_⟩
          intro d u heq
          cases heq
          exact h.1
        · exact hpass _ _
      | some q =>
        rw [splitTopLevel.go.eq_def]
        dsimp only
        split
        · match s with
          | [] => exact ⟨segment ++ [c], [], [], rfl, (List.append_nil _).symm, nofun⟩
          | d :: s =>
            obtain ⟨k, parts, t, hgo, hsplit, hsep⟩ := go depth (some q) (segment ++ [c, d]) s
            exact ⟨k, parts, t, hgo, by rw [← hsplit, List.append_assoc]; rfl, hsep⟩
        · exact hpass _ _
  termination_by s.length

/-- The quotes around a value. -/
def Quoted (s : Text) : Prop :=
  (s.head? = some '"' ∧ s.getLast? = some '"') ∨ (s.head? = some '\'' ∧ s.getLast? = some '\'')

theorem quoted_parts {s : Text} (h : Quoted s) : ∃ q : Char, q.utf8Size = 1 ∧ (s = [q] ∨ ∃ mid, s = [q] ++ (mid ++ [q])) := by
  obtain ⟨q, hq, hhead, hlast⟩ : ∃ q : Char, q.toNat < 128 ∧ s.head? = some q ∧ s.getLast? = some q := by
    rcases h with ⟨hh, hl⟩ | ⟨hh, hl⟩
    · exact ⟨'"', by decide, hh, hl⟩
    · exact ⟨'\'', by decide, hh, hl⟩
  obtain ⟨t, rfl⟩ := List.head?_eq_some_iff.mp hhead
  refine ⟨q, utf8Size_ascii hq, ?_⟩
  rcases List.eq_nil_or_concat t with rfl | ⟨mid, e, rfl⟩
  · exact .inl rfl
  · rw [List.concat_eq_append, ← List.cons_append, List.getLast?_concat] at hlast
    cases hlast
    exact .inr ⟨mid, by rw [List.concat_eq_append]; rfl⟩

theorem quoted_slice {s : Text} (h : Quoted s) : (2 ≤ byteLen s ↔ 2 ≤ s.length) ∧
    (2 ≤ s.length → slice s 1 (byteLen s - 1) = some ((s.drop 1).dropLast)) := by
  obtain ⟨q, hq, rfl | ⟨mid, rfl⟩⟩ := quoted_parts h
  · rw [byteLen_cons, byteLen_nil, List.length_singleton]
    refine ⟨by omega, fun hlong => ?_⟩
    omega
  · have hfront : byteLen [q] = 1 := by
      rw [byteLen_cons, byteLen_nil]
      omega
    have hslice := slice_append [q] mid [q]
    have hlen : byteLen ([q] ++ (mid ++ [q])) = byteLen ([q] ++ mid) + 1 := by
      rw [← List.append_assoc, byteLen_append ([q] ++ mid), hfront]
    rw [hfront] at hslice
    refine ⟨iff_of_true ?_ ?_, fun _ => ?_⟩
    · rw [hlen, byteLen_append, hfront]
      omega
    · rw [List.length_append, List.length_append, List.length_singleton]
      omega
    · rw [hlen, Nat.add_sub_cancel, hslice, List.singleton_append, List.drop_succ_cons, List.drop_zero, List.dropLast_concat]

theorem parsePyValue_bytes (serde : GemmaSerde) (s : Text) : Bytes.parsePyValue serde s = some (parsePyValue serde s) := by
  unfold Bytes.parsePyValue parsePyValue
  generalize trim s = s
  dsimp only
  by_cases hcut : 2 ≤ s.length ∧ Quoted s
  · obtain ⟨hlong, hquoted⟩ := hcut
    obtain ⟨hiff, hslice⟩ := quoted_slice hquoted
    have hbyte : 2 ≤ byteLen s ∧ ((s.head? = some '"' ∧ s.getLast? = some '"') ∨
        (s.head? = some '\'' ∧ s.getLast? = some '\'')) := ⟨hiff.mpr hlong, hquoted⟩
    have hchar : 2 ≤ s.length ∧ ((s.head? = some '"' ∧ s.getLast? = some '"') ∨
        (s.head? = some '\'' ∧ s.getLast? = some '\'')) := ⟨hlong, hquoted⟩
    rw [if_pos hbyte, if_pos hchar, hslice hlong]
    rfl
  · have hchar : ¬ (2 ≤ s.length ∧ ((s.head? = some '"' ∧ s.getLast? = some '"') ∨
        (s.head? = some '\'' ∧ s.getLast? = some '\''))) := hcut
    have hbyte : ¬ (2 ≤ byteLen s ∧ ((s.head? = some '"' ∧ s.getLast? = some '"') ∨
        (s.head? = some '\'' ∧ s.getLast? = some '\''))) := fun h => hcut ⟨(quoted_slice h.2).1.mp h.1, h.2⟩
    rw [if_neg hbyte, if_neg hchar]
    split
    · rfl
    split
    · rfl
    split <;> rfl

theorem pythonArg_bytes (serde : GemmaSerde) (obj : List (Name × Value)) (part : Text) :
    Bytes.pythonArg serde obj part = some (pythonArg serde obj part) := by
  unfold Bytes.pythonArg pythonArg
  generalize trim part = part
  dsimp only
  by_cases hempty : part.isEmpty = true
  · rw [if_pos hempty, if_pos hempty]
  rw [if_neg hempty, if_neg hempty, splitTopLevel_bytes (by decide), Option.bind_some]
  obtain ⟨k, parts, t, hsplit, hpart, hsep⟩ := splitTopLevel_first '=' part
  rw [hsplit]
  dsimp only
  cases t with
  | nil =>
    rw [List.append_nil] at hpart
    rw [hpart, if_pos (Nat.le_refl _), if_pos (Nat.le_refl _)]
  | cons d u =>
    cases hsep d u rfl
    have hlong : ¬ byteLen part ≤ byteLen k := by
      have hpos := byteLen_pos (List.cons_ne_nil '=' u)
      rw [hpart, byteLen_append]
      omega
    have hlong' : ¬ part.length ≤ k.length := by
      rw [hpart, List.length_append, List.length_cons]
      omega
    rw [if_neg hlong, if_neg hlong']
    have hfront : sliceTo part (byteLen k) = some (part.take k.length) := by
      rw [hpart, sliceTo_append, List.take_left]
    have hback : sliceFrom part (byteLen k + 1) = some (part.drop (k.length + 1)) := by
      have happ : part = (k ++ ['=']) ++ u := by rw [hpart, List.append_assoc]; rfl
      have hlen : byteLen k + 1 = byteLen (k ++ ['=']) := by rw [byteLen_append]; rfl
      have hchars : k.length + 1 = (k ++ ['=']).length := by rw [List.length_append]; rfl
      rw [hlen, hchars, happ, sliceFrom_front, List.drop_left]
    rw [hfront, Option.bind_some]
    split
    · rfl
    · rw [hback, Option.bind_some, parsePyValue_bytes]
      rfl

theorem parsePythonArgs_bytes (serde : GemmaSerde) (inner : Text) :
    Bytes.parsePythonArgs serde inner = some (parsePythonArgs serde inner) := by
  unfold Bytes.parsePythonArgs parsePythonArgs
  rw [splitTopLevel_bytes (by decide), Option.bind_some]
  generalize splitTopLevel ',' inner = parts
  generalize ([] : List (Name × Value)) = obj
  induction parts generalizing obj with
  | nil => rfl
  | cons part parts ih =>
    rw [List.foldlM_cons, pythonArg_bytes, List.foldl_cons]
    exact ih _

/-- What stands between the parenthesis at `o` and its partner. -/
theorem inner_slice {s : Text} (h : matchingParen (s.drop o) = some k) :
    slice s (byteAt s o + 1) (byteAt s o + byteAt (s.drop o) k) = some ((s.drop (o + 1)).take (k - 1)) ∧
      byteAt s o + byteAt (s.drop o) k + 1 = byteAt s (o + k + 1) := by
  obtain ⟨hpos, hopen, hclose⟩ := matchingParen_brace h
  rw [List.drop_drop, List.drop_drop] at hclose
  rw [List.drop_zero, List.drop_drop] at hopen
  have hone : byteAt s (o + 1) = byteAt s o + 1 := @byteAt_behind _ ['('] _ ⟨_, hopen.symm⟩
  have hlast : byteAt s (o + k + 1) = byteAt s (o + k) + 1 := @byteAt_behind _ [')'] _ ⟨_, hclose.symm⟩
  rw [← hone, ← byteAt_add, hlast]
  refine ⟨?_, rfl⟩
  rw [slice_at s (by omega), List.drop_take, show o + k - (o + 1) = k - 1 by omega]

theorem parsePythonCall_bytes (serde : GemmaSerde) (s : Text) :
    Bytes.parsePythonCall serde s = some (parsePythonCall serde s) := by
  unfold Bytes.parsePythonCall parsePythonCall
  generalize trim s = s
  dsimp only
  cases hf : find ['('] s with
  | none =>
    rw [findByte_none hf]
    rfl
  | some o =>
    rw [findByte_some hf, Option.bind_some]
    dsimp only
    rw [sliceTo_at, Option.bind_some]
    cases firstIdentifier (s.take o) with
    | none => rfl
    | some name =>
      dsimp only
      rw [Option.bind_some, sliceFrom_at, Option.bind_some, matchingParen_bytes]
      cases hclose : matchingParen (s.drop o) with
      | none => rfl
      | some k =>
        rw [Option.map_some, Option.bind_some]
        dsimp only
        rw [(inner_slice hclose).1, Option.bind_some, parsePythonArgs_bytes, Option.map_some]

theorem objectCall_bytes (serde : GemmaSerde) (s : Text) : Bytes.objectCall serde s = some (objectCall serde s) := by
  unfold Bytes.objectCall objectCall
  cases hf : find ['{'] s with
  | none =>
    rw [findByte_none hf]
    rfl
  | some o =>
    rw [findByte_some hf, Option.bind_some]
    dsimp only
    rw [sliceTo_at, Option.bind_some]
    cases firstIdentifier (s.take o) with
    | none => rfl
    | some name =>
      dsimp only
      rw [Option.bind_some, sliceFrom_at]
      cases hv : serde.firstValue (s.drop o) with
      | none => simp only [Option.map_some, hv]
      | some v => cases v <;> simp only [Option.map_some, hv]

theorem parseToolCodeBlock_bytes (serde : GemmaSerde) (block : Text) :
    Bytes.parseToolCodeBlock serde block = some (parseToolCodeBlock serde block) := by
  unfold Bytes.parseToolCodeBlock parseToolCodeBlock
  generalize trim (stripRepeats (trim block)) = s
  dsimp only
  rw [objectCall_bytes, Option.bind_some]
  cases objectCall serde s with
  | none => exact parsePythonCall_bytes serde s
  | some call => rfl

end Flambeau.Server.ToolCallParser.Gemma4
