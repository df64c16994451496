import Flambeau.Server.ToolCallParser.Gemma4Stream

namespace Flambeau.Server.ToolCallParser.Gemma4
open Flambeau.Stream Flambeau.Runtime.JsonSchema

theorem callClose_markers : Markers '<' [toolCallClose] := ⟨by decide, by decide⟩

/-! The header of a call. -/

theorem matchingParen_go_append (h : matchingParen.go depth quote s = some k) (x : Text) :
    matchingParen.go depth quote (s ++ x) = some k := by
  fun_induction matchingParen.go depth quote s generalizing k with
  | case1 => cases h
  | case2 depth q => cases h
  | case3 depth q d s ih =>
    obtain ⟨j, hj, rfl⟩ := Option.map_eq_some_iff.mp h
    simp only [List.cons_append, matchingParen.go, ih hj, if_true, Option.map_some]
  | case4 depth c s q hc ih =>
    obtain ⟨j, hj, rfl⟩ := Option.map_eq_some_iff.mp h
    rw [List.cons_append]
    unfold matchingParen.go
    simp only [hc, if_false, ih hj, Option.map_some]
  | case5 depth c s hq ih =>
    obtain ⟨j, hj, rfl⟩ := Option.map_eq_some_iff.mp h
    rw [List.cons_append, matchingParen.go]
    simp only [hq, if_true, ih hj, Option.map_some]
  | case6 depth s hq ih =>
    obtain ⟨j, hj, rfl⟩ := Option.map_eq_some_iff.mp h
    rw [List.cons_append, matchingParen.go, if_neg hq, if_pos rfl, ih hj]
    rfl
  | case7 depth s hzero hq hc =>
    cases h
    rw [List.cons_append, matchingParen.go, if_neg hq, if_neg hc, if_pos rfl, if_pos hzero]
  | case8 depth s hzero hq hc ih =>
    obtain ⟨j, hj, rfl⟩ := Option.map_eq_some_iff.mp h
    rw [List.cons_append, matchingParen.go, if_neg hq, if_neg hc, if_pos rfl, if_neg hzero, ih hj]
    rfl
  | case9 depth c s hq hc hc' ih =>
    obtain ⟨j, hj, rfl⟩ := Option.map_eq_some_iff.mp h
    rw [List.cons_append, matchingParen.go]
    simp only [hq, hc, hc', Bool.false_eq_true, if_false, ih hj, Option.map_some]

theorem matchingParen_append (h : matchingParen s = some k) (x : Text) :
    matchingParen (s ++ x) = some k := by
  unfold matchingParen at h ⊢
  split at h
  · rename_i hhead
    rw [List.head?_append, hhead]
    exact matchingParen_go_append h x
  · cases h

theorem matchingParen_go_lt (h : matchingParen.go depth quote s = some k) : k < s.length := by
  fun_induction matchingParen.go depth quote s generalizing k with
  | case1 => cases h
  | case2 => cases h
  | case3 _ _ _ _ ih =>
    obtain ⟨j, hj, rfl⟩ := Option.map_eq_some_iff.mp h
    have hlt := ih hj
    simp only [List.length_cons]
    omega
  | case7 =>
    cases h
    exact Nat.zero_lt_succ _
  | case4 _ _ _ _ _ ih | case5 _ _ _ _ ih | case6 _ _ _ ih | case8 _ _ _ _ _ ih
  | case9 _ _ _ _ _ _ ih =>
    obtain ⟨j, hj, rfl⟩ := Option.map_eq_some_iff.mp h
    have hlt := ih hj
    rw [List.length_cons]
    omega

theorem matchingParen_lt (h : matchingParen s = some k) : k < s.length := by
  unfold matchingParen at h
  split at h
  · exact matchingParen_go_lt h
  · cases h

theorem headerOpener_append (h : headerOpener s = some o) (x : Text) :
    headerOpener (s ++ x) = some o := by
  unfold headerOpener at h ⊢
  cases hb : find ['{'] s with
  | some b =>
    have hble := find_le hb
    rw [(letter_markers '{').find_append hb x]
    cases hp : find ['('] s with
    | some p =>
      rw [(letter_markers '(').find_append hp x]
      rw [hb, hp] at h
      exact h
    | none =>
      rw [hb, hp] at h
      cases hp' : find ['('] (s ++ x) with
      | none => exact h
      | some p =>
        have hle := find_letter_none hp hp'
        rw [List.length_singleton] at hble
        simp only
        rw [if_neg (by omega)]
        exact h
  | none =>
    cases hp : find ['('] s with
    | some p =>
      have hple := find_le hp
      rw [hb, hp] at h
      rw [(letter_markers '(').find_append hp x]
      cases hb' : find ['{'] (s ++ x) with
      | none => exact h
      | some b =>
        have hle := find_letter_none hb hb'
        rw [List.length_singleton] at hple
        simp only
        rw [if_pos (by omega)]
        exact h
    | none =>
      rw [hb, hp] at h
      cases h

/-- The opener stands where it says. -/
theorem headerOpener_at (h : headerOpener s = some (kind, o)) :
    (kind = '{' ∨ kind = '(') ∧ find [kind] s = some o := by
  unfold headerOpener at h
  split at h
  · rename_i hb hp
    split at h
    · cases h
      exact ⟨.inr rfl, hp⟩
    · cases h
      exact ⟨.inl rfl, hb⟩
  · rename_i hb _
    cases h
    exact ⟨.inl rfl, hb⟩
  · rename_i _ hp
    cases h
    exact ⟨.inr rfl, hp⟩
  · cases h

theorem headerOpener_none (h : headerOpener s = none) (hx : headerOpener (s ++ x) = some (kind, o)) :
    s.length ≤ o := by
  obtain ⟨hkind, hat⟩ := headerOpener_at hx
  have hnone : find ['{'] s = none ∧ find ['('] s = none := by
    unfold headerOpener at h
    cases hb : find ['{'] s <;> cases hp : find ['('] s
    · exact ⟨rfl, rfl⟩
    · rw [hb, hp] at h
      cases h
    · rw [hb, hp] at h
      cases h
    · rw [hb, hp] at h
      simp only at h
      split at h <;> cases h
  rcases hkind with rfl | rfl
  · exact find_letter_none hnone.1 hat
  · exact find_letter_none hnone.2 hat

theorem closesFirst_none (h : closesFirst s (some (kind, o)) = none) (hopen : headerOpener s = some (kind, o))
    (x : Text) : closesFirst (s ++ x) (some (kind, o)) = none := by
  obtain ⟨hkind, hat⟩ := headerOpener_at hopen
  unfold closesFirst at h ⊢
  cases hf : find toolCallClose s with
  | some n =>
    rw [hf] at h
    rw [callClose_markers.find_append hf x]
    exact h
  | none =>
    cases hx : find toolCallClose (s ++ x) with
    | none => rfl
    | some n =>
      have hle : o ≤ n := by
        apply find_before hf hx hat
        rcases hkind with rfl | rfl <;> decide
      simp only
      rw [if_neg (by omega)]

theorem closesFirst_append (h : closesFirst s (headerOpener s) = some n) (x : Text) :
    closesFirst (s ++ x) (headerOpener (s ++ x)) = some n := by
  unfold closesFirst at h ⊢
  cases hf : find toolCallClose s with
  | none =>
    rw [hf] at h
    cases h
  | some c =>
    have hle := find_le hf
    rw [hf] at h
    rw [callClose_markers.find_append hf x]
    cases hopen : headerOpener s with
    | some o =>
      rw [hopen] at h
      rw [headerOpener_append hopen x]
      exact h
    | none =>
      rw [hopen] at h
      cases hopen' : headerOpener (s ++ x) with
      | none => exact h
      | some r =>
        obtain ⟨kind, o⟩ := r
        have hlate := headerOpener_none hopen hopen'
        have hpos : 0 < toolCallClose.length := by decide
        simp only at h ⊢
        rw [if_pos (by omega)]
        exact h

theorem afterPrefix_append (h : afterPrefix s = some n) (x : Text) :
    afterPrefix (s ++ x) = some n ∧ n ≤ s.length := by
  unfold afterPrefix at h ⊢
  split at h
  · rename_i hp
    have hp := List.isPrefixOf_iff_prefix.mp hp
    rw [if_pos (List.isPrefixOf_iff_prefix.mpr (hp.trans (List.prefix_append s x)))]
    cases h
    exact ⟨rfl, hp.length_le⟩
  · rename_i hp
    split at h
    · cases h
    · rename_i hp'
      cases h
      refine ⟨?_, Nat.zero_le _⟩
      rw [if_neg, if_neg]
      · intro hle
        exact hp' (List.isPrefixOf_iff_prefix.mpr
          ((List.prefix_append s x).trans (List.isPrefixOf_iff_prefix.mp hle)))
      · intro hle
        rcases List.prefix_or_prefix_of_prefix (List.isPrefixOf_iff_prefix.mp hle)
          (List.prefix_append s x) with hle | hle
        · exact hp (List.isPrefixOf_iff_prefix.mpr hle)
        · exact hp' (List.isPrefixOf_iff_prefix.mpr hle)

/-- A header that is read is read in the same way, whatever follows. -/
theorem stepInCallHeader_append (serde : GemmaSerde)
    (h : stepInCallHeader serde p = (es, p', true)) (x : Text) :
    stepInCallHeader serde { p with buf := p.buf ++ x } =
      (es, { p' with buf := p'.buf ++ x }, true) := by
  unfold stepInCallHeader at h ⊢
  cases hafter : afterPrefix p.buf with
  | none =>
    rw [hafter] at h
    cases h
  | some after =>
    obtain ⟨hafter', hle⟩ := afterPrefix_append hafter x
    have hlen : (p.buf.drop after).length = p.buf.length - after := List.length_drop
    rw [hafter] at h
    simp only at h
    simp only [hafter', List.drop_append_of_le_length hle]
    cases hcloses : closesFirst (p.buf.drop after) (headerOpener (p.buf.drop after)) with
    | some c =>
      have hc : c ≤ (p.buf.drop after).length := by
        unfold closesFirst at hcloses
        split at hcloses
        · rename_i n hf
          have hfits := find_le hf
          have hsame : n = c := by
            split at hcloses
            · exact Option.some.inj hcloses
            · split at hcloses
              · exact Option.some.inj hcloses
              · cases hcloses
          omega
        · cases hcloses
      rw [hcloses] at h
      cases h
      simp only [closesFirst_append hcloses x]
      rw [List.take_append_of_le_length hc, List.drop_append_of_le_length (by omega)]
    | none =>
      cases hopen : headerOpener (p.buf.drop after) with
      | none =>
        rw [hcloses, hopen] at h
        cases h
      | some o =>
        obtain ⟨kind, opos⟩ := o
        have hfits := find_le (headerOpener_at hopen).2
        rw [List.length_singleton] at hfits
        rw [hopen] at hcloses
        rw [hopen, hcloses] at h
        simp only at h
        simp only [headerOpener_append hopen x, closesFirst_none hcloses hopen x,
          List.take_append_of_le_length (show opos ≤ (p.buf.drop after).length by omega)]
        split at h
        · rename_i hkind
          cases h
          rw [if_pos hkind, List.drop_append_of_le_length (by omega)]
        · rename_i hkind
          rw [if_neg hkind, List.drop_append_of_le_length (by omega)]
          split at h
          · cases h
          · rename_i close hparen
            have hlt := matchingParen_lt hparen
            rw [List.length_drop] at hlt
            cases h
            rw [matchingParen_append hparen x]
            simp only
            rw [List.drop_append_of_le_length (by omega), List.drop_append_of_le_length (by omega),
              List.take_append_of_le_length (by
                rw [List.length_drop]
                omega)]

theorem stepInCallHeader_frame (serde : GemmaSerde) (h : stepInCallHeader serde p = (es, p', b)) :
    p'.pendingThoughtEcho = p.pendingThoughtEcho ∧ ∃ n, p'.buf = p.buf.drop n := by
  have hsame : ∃ n, p.buf = p.buf.drop n := ⟨0, rfl⟩
  unfold stepInCallHeader at h
  split at h
  · cases h
    exact ⟨rfl, hsame⟩
  · simp only at h
    split at h
    · cases h
      exact ⟨rfl, _, rfl⟩
    · split at h
      · cases h
        exact ⟨rfl, hsame⟩
      · split at h
        · cases h
          exact ⟨rfl, _, rfl⟩
        · split at h
          · cases h
            exact ⟨rfl, hsame⟩
          · cases h
            exact ⟨rfl, _, rfl⟩

/-- A header that is not read is left as it is. -/
theorem stepInCallHeader_wait (serde : GemmaSerde)
    (h : stepInCallHeader serde p = (es, p', false)) : es = [] ∧ p' = p := by
  unfold stepInCallHeader at h
  split at h
  · cases h
    exact ⟨rfl, rfl⟩
  · simp only at h
    split at h
    · cases h
    · split at h
      · cases h
        exact ⟨rfl, rfl⟩
      · split at h
        · cases h
        · split at h
          · cases h
            exact ⟨rfl, rfl⟩
          · cases h

/-! The scan of the arguments. -/

/-- In ASCII text the quote is looked for at char boundaries only. -/
theorem lookaheadFaults_ascii (h : IsAscii s) : lookaheadFaults s = false := by
  cases s with
  | nil => rfl
  | cons c s =>
    obtain ⟨hc, _⟩ := isAscii_cons.mp h
    have hquote : byteLen stringQuote = 5 := by decide
    simp only [lookaheadFaults, utf8Size_ascii hc, hquote, byteLen_ascii h]
    by_cases hlen : 5 ≤ (c :: s).length
    · have hboundary : isCharBoundary (c :: s) 5 = true := by
        unfold isCharBoundary
        rw [splitByte_ascii h hlen]
        rfl
      simp [hboundary]
    · simp only [List.range_one, List.any_cons, List.any_nil, Bool.or_false, Nat.zero_add,
        Bool.and_eq_false_iff, decide_eq_false_iff_not]
      exact .inl hlen

/-- The quote stands here. -/
theorem quote_append (h : stringQuote.isPrefixOf s = true) (x : Text) :
    stringQuote.isPrefixOf (s ++ x) = true :=
  List.isPrefixOf_iff_prefix.mpr ((List.isPrefixOf_iff_prefix.mp h).trans (List.prefix_append s x))

/-- The text is neither the quote with something behind it nor a front of it, and
does not become so. -/
theorem quote_apart (h : stringQuote.isPrefixOf s = false) (h' : s.isPrefixOf stringQuote = false)
    (x : Text) :
    stringQuote.isPrefixOf (s ++ x) = false ∧ (s ++ x).isPrefixOf stringQuote = false := by
  constructor
  · apply eq_false_of_ne_true
    intro hp
    rcases List.prefix_or_prefix_of_prefix (List.isPrefixOf_iff_prefix.mp hp)
      (List.prefix_append s x) with hle | hle
    · rw [List.isPrefixOf_iff_prefix.mpr hle] at h
      cases h
    · rw [List.isPrefixOf_iff_prefix.mpr hle] at h'
      cases h'
  · apply eq_false_of_ne_true
    intro hp
    have hle := (List.prefix_append s x).trans (List.isPrefixOf_iff_prefix.mp hp)
    rw [List.isPrefixOf_iff_prefix.mpr hle] at h'
    cases h'

theorem argStep_quote (hfine : lookaheadFaults (c :: s) = false) (h : stringQuote.isPrefixOf (c :: s) = true) :
    argStep depth inString c s = .advance 4 depth (!inString) := by
  unfold argStep
  rw [hfine, h]
  rfl

/-- A proper front of the quote is held. -/
theorem argStep_hold (hascii : IsAscii (c :: s)) (h : stringQuote.isPrefixOf (c :: s) = false)
    (h' : (c :: s).isPrefixOf stringQuote = true) : argStep depth inString c s = .hold := by
  have hp := List.isPrefixOf_iff_prefix.mp h'
  have hhead : c = '<' := (List.cons_prefix_cons.mp hp).1
  have hlen : byteLen (c :: s) < byteLen stringQuote := by
    rw [byteLen_ascii hascii, byteLen_ascii (s := stringQuote) (by decide)]
    apply Nat.lt_of_le_of_ne hp.length_le
    intro heq
    have hsame := hp.eq_of_length heq
    rw [hsame, List.isPrefixOf_iff_prefix.mpr (List.prefix_refl _)] at h
    cases h
  subst hhead
  unfold argStep
  rw [lookaheadFaults_ascii hascii, h, h']
  cases inString with
  | true => simp [hlen]
  | false => simp

/-- Everywhere else a character decides by itself. -/
theorem argStep_letter (hfine : lookaheadFaults (c :: s) = false) (h : stringQuote.isPrefixOf (c :: s) = false)
    (h' : (c :: s).isPrefixOf stringQuote = false) :
    argStep depth inString c s =
      if inString then .advance 0 depth inString
      else if c = '{' || c = '[' then .advance 0 (depth + 1) inString
      else if c = ']' then .advance 0 (depth - 1) inString
      else if c = '}' then
        if depth = 0 then .advance 0 depth inString
        else if depth - 1 = 0 then .close
        else .advance 0 (depth - 1) inString
      else .advance 0 depth inString := by
  unfold argStep
  rw [hfine, h, h']
  simp

/-- A character that is not held is consumed in the same way, whatever follows. -/
theorem argStep_append (hascii : IsAscii (c :: s)) (hfine : lookaheadFaults (c :: (s ++ x)) = false)
    (h : argStep depth inString c s ≠ .hold) :
    argStep depth inString c (s ++ x) = argStep depth inString c s := by
  have hfront := lookaheadFaults_ascii hascii
  cases hq : stringQuote.isPrefixOf (c :: s) with
  | true => rw [argStep_quote hfront hq, argStep_quote hfine (quote_append hq x)]
  | false =>
    cases hp : (c :: s).isPrefixOf stringQuote with
    | true => exact absurd (argStep_hold hascii hq hp) h
    | false =>
      obtain ⟨hq', hp'⟩ := quote_apart hq hp x
      rw [argStep_letter hfront hq hp, argStep_letter hfine hq' hp']

theorem argStep_letters (hascii : IsAscii (c :: s)) :
    argStep depth inString c s ≠ .fault ∧
      ∀ more d i, argStep depth inString c s = .advance more d i → more ≤ s.length := by
  cases hq : stringQuote.isPrefixOf (c :: s) with
  | true =>
    have hlen := (List.isPrefixOf_iff_prefix.mp hq).length_le
    rw [argStep_quote (lookaheadFaults_ascii hascii) hq]
    refine ⟨by simp, ?_⟩
    intro more d i h
    cases h
    exact Nat.le_of_succ_le_succ hlen
  | false =>
    cases hp : (c :: s).isPrefixOf stringQuote with
    | true =>
      rw [argStep_hold hascii hq hp]
      exact ⟨by simp, fun more d i h => by cases h⟩
    | false =>
      rw [argStep_letter (lookaheadFaults_ascii hascii) hq hp]
      constructor
      · intro h
        repeat' split at h
        all_goals cases h
      · intro more d i h
        have hzero : more = 0 := by
          repeat' split at h
          all_goals cases h
          all_goals rfl
        rw [hzero]
        exact Nat.zero_le _

@[simp] theorem ArgScan.after_nil (r : ArgScan) : r.after [] = r := rfl

@[simp] theorem ArgScan.after_after (r : ArgScan) (u v : Text) :
    (r.after v).after u = r.after (u ++ v) := by
  simp [ArgScan.after]

/-- A scan stops somewhere, and goes on from there when more comes. -/
theorem scanArgs_append (depth : Nat) (inString : Bool) (hascii : IsAscii (s ++ x)) :
    ∃ r, scanArgs depth inString s = some r ∧
      scanArgs depth inString (s ++ x) =
        if r.closed then some { r with rest := r.rest ++ x }
        else (scanArgs r.depth r.inString (r.rest ++ x)).map (·.after r.consumed) := by
  match s with
  | [] =>
    refine ⟨_, by rw [scanArgs], ?_⟩
    simp
  | c :: s =>
    rw [List.cons_append] at hascii ⊢
    have hfront : IsAscii (c :: s) := (isAscii_append (s := c :: s)).mp hascii |>.1
    rw [scanArgs_cons]
    cases hstep : argStep depth inString c s with
    | fault => exact absurd hstep (argStep_letters hfront).1
    | hold =>
      refine ⟨_, rfl, ?_⟩
      simp
    | close =>
      have hwith : argStep depth inString c (s ++ x) = .close := by
        rw [argStep_append hfront (lookaheadFaults_ascii hascii) (by rw [hstep]; simp), hstep]
      refine ⟨_, rfl, ?_⟩
      rw [scanArgs_cons, hwith]
      rfl
    | advance more d i =>
      have hwith : argStep depth inString c (s ++ x) = .advance more d i := by
        rw [argStep_append hfront (lookaheadFaults_ascii hascii) (by rw [hstep]; simp), hstep]
      have hmore := (argStep_letters hfront).2 more d i hstep
      have hrest : IsAscii (s.drop more ++ x) := by
        apply hascii.sub
        intro e he
        rcases List.mem_append.mp he with he | he
        · exact List.mem_cons_of_mem c (List.mem_append_left x (List.mem_of_mem_drop he))
        · exact List.mem_cons_of_mem c (List.mem_append_right s he)
      obtain ⟨r, hr, happ⟩ := scanArgs_append d i hrest
      refine ⟨r.after (c :: s.take more), by simp only [hr, Option.map_some], ?_⟩
      rw [scanArgs_cons, hwith]
      simp only [List.drop_append_of_le_length hmore, List.take_append_of_le_length hmore, happ]
      cases hclosed : r.closed with
      | true =>
        simp only [ArgScan.after, hclosed, if_true, Option.map_some]
      | false =>
        simp only [ArgScan.after, hclosed, Bool.false_eq_true, if_false, Option.map_map]
        congr 1
        funext r'
        simp
termination_by s.length
decreasing_by
  rw [List.length_drop, List.length_cons]
  omega

/-- A scan that consumes nothing leaves everything as it is. -/
theorem scanArgs_still (h : scanArgs depth inString s = some r) (hopen : r.closed = false)
    (hnil : r.consumed = []) : r = ⟨[], depth, inString, false, s⟩ := by
  cases s with
  | nil =>
    rw [scanArgs] at h
    cases h
    rfl
  | cons c s =>
    rw [scanArgs_cons] at h
    cases hstep : argStep depth inString c s with
    | fault =>
      rw [hstep] at h
      cases h
    | hold =>
      rw [hstep] at h
      cases h
      rfl
    | close =>
      rw [hstep] at h
      cases h
      cases hopen
    | advance more d i =>
      rw [hstep] at h
      obtain ⟨r', _, rfl⟩ := Option.map_eq_some_iff.mp h
      cases hnil

end Flambeau.Server.ToolCallParser.Gemma4
