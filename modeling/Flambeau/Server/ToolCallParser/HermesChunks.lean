import Flambeau.Server.ToolCallParser.HermesMachine

namespace Flambeau.Server.ToolCallParser.Hermes
open Flambeau.Stream Flambeau.Stream.Machine Flambeau.Runtime.JsonSchema

/-! Where the cuts of the input show. -/

/-- What a mode passes on before the first of its tags. -/
def front (tags : List Text) (s : Text) : Text :=
  match earliest tags s with
  | some (pos, _) => s.take pos
  | none => s

/-- The rest of the input brings the parser to one of two places: a character
outside ASCII where it passes text on, or something before the close tag where it
waits for one. -/
inductive Trips : State → Text → Prop where
  | text : ¬ IsAscii (front textOpenTags s) → Trips .text s
  | textTag : earliest textOpenTags s = some (pos, tag) →
      Trips (if tag = thinkOpen then .inThink else .inTool) (s.drop (pos + tag.length)) →
      Trips .text s
  | think : ¬ IsAscii (front [thinkClose] s) → Trips .inThink s
  | thinkTag : find thinkClose s = some pos →
      Trips .text (s.drop (pos + thinkClose.length)) → Trips .inThink s
  | tool : jsonObjectSpan s = some (start, stop) → Trips .awaitingToolClose (s.drop (stop + 1)) →
      Trips .inTool s
  | junk : find toolClose (trimStart s) = some pos → 0 < pos → Trips .awaitingToolClose s
  | closed : find toolClose (trimStart s) = some 0 →
      Trips .text ((trimStart s).drop toolClose.length) → Trips .awaitingToolClose s
  | unclosed : find toolClose (trimStart s) = none → ¬ trimStart s <+: toolClose →
      Trips .text s → Trips .awaitingToolClose s

/-- From here on the cuts do not show. -/
def Clear (p : HermesJsonParser) (x : Text) : Prop := ¬ Trips p.state (p.buf ++ x)

theorem front_shift (h : earliest tags s = none) (x : Text) :
    front tags (s ++ x) = s.take (tailStart (opensTag tags) s) ++
      front tags (s.drop (tailStart (opensTag tags) s) ++ x) := by
  have hle := tailStart_le (opensTag tags) s
  unfold front
  rw [earliest_shift h x]
  cases earliest tags (s.drop (tailStart (opensTag tags) s) ++ x) with
  | none =>
    simp only [Option.map_none]
    rw [← List.append_assoc, List.take_append_drop]
  | some r =>
    simp only [Option.map_some]
    rw [List.take_add, List.take_append_of_le_length hle, List.drop_append_of_le_length hle]

/-- What is held holds no more than a mode's front and one of its tags. -/
theorem ascii_of_front (h : earliest tags s = none) (htags : ∀ t ∈ tags, IsAscii t)
    (hfront : IsAscii (front tags (s ++ x))) : IsAscii s := by
  unfold front at hfront
  split at hfront
  · rename_i pos tag he
    obtain ⟨u, r, hsplit, rfl, htag, _⟩ := earliest_some he
    have hwhole : IsAscii (u ++ tag) := by
      rw [hsplit, List.take_left] at hfront
      exact isAscii_append.mpr ⟨hfront, htags tag htag⟩
    rw [← List.append_assoc] at hsplit
    rcases List.append_eq_append_iff.mp hsplit with ⟨a, ha, _⟩ | ⟨a, ha, _⟩
    · rw [ha] at hwhole
      exact (isAscii_append.mp hwhole).1
    · have hhere : tagHere tags (tag ++ a) ≠ none := by
        intro hn
        exact tagHere_none.mp hn tag htag (List.prefix_append tag a)
      refine absurd (scan_none.mp (earliest_none.mp h) (tag ++ a) ?_) hhere
      rw [ha, List.append_assoc]
      exact List.suffix_append u (tag ++ a)
  · exact (isAscii_append.mp hfront).1

theorem textOpen_ascii : ∀ t ∈ textOpenTags, IsAscii t := by decide

theorem thinkClose_ascii : ∀ t ∈ [thinkClose], IsAscii t := by decide

theorem trips_text_shift (h : earliest textOpenTags s = none)
    (ht : Trips .text (s.drop (tailStart (opensTag textOpenTags) s) ++ x)) :
    Trips .text (s ++ x) := by
  have hle := tailStart_le (opensTag textOpenTags) s
  cases ht with
  | text hfront =>
    apply Trips.text
    rw [front_shift h x]
    intro hascii
    exact hfront (isAscii_append.mp hascii).2
  | textTag he hnext =>
    apply Trips.textTag
    · rw [earliest_shift h x, he]
      rfl
    · rw [Nat.add_assoc, ← List.drop_drop, List.drop_append_of_le_length hle]
      exact hnext

theorem trips_think_shift (h : earliest [thinkClose] s = none)
    (ht : Trips .inThink (s.drop (tailStart (opensTag [thinkClose]) s) ++ x)) :
    Trips .inThink (s ++ x) := by
  have hle := tailStart_le (opensTag [thinkClose]) s
  cases ht with
  | think hfront =>
    apply Trips.think
    rw [front_shift h x]
    intro hascii
    exact hfront (isAscii_append.mp hascii).2
  | thinkTag he hnext =>
    have hshift := earliest_shift h x
    rw [find_some he] at hshift
    apply Trips.thinkTag (find_of_earliest hshift)
    rw [Nat.add_assoc, ← List.drop_drop, List.drop_append_of_le_length hle]
    exact hnext

/-! The prose modes. -/

/-- The parser in text with `s` held. -/
def textOn (index : Nat) (s : Text) : HermesJsonParser := ⟨s, .text, index⟩

def thinkOn (index : Nat) (s : Text) : HermesJsonParser := ⟨s, .inThink, index⟩

def afterOpen (index : Nat) (tag rest : Text) : HermesJsonParser :=
  ⟨rest, if tag = thinkOpen then .inThink else .inTool, index⟩

def afterThink (index : Nat) (_tag rest : Text) : HermesJsonParser := ⟨rest, .text, index⟩

theorem emitText_nil : emitText [] = [] := rfl

theorem emitThink_nil : emitThink [] = [] := rfl

theorem stepText_none (index : Nat) (h : earliest textOpenTags s = none) (fin : Bool) :
    stepText (textOn index s) fin = emitBuffered emitText textOpenTags (textOn index s) fin := by
  unfold stepText
  simp only [textOn, h]

theorem stepInThink_none (index : Nat) (h : earliest [thinkClose] s = none) (fin : Bool) :
    stepInThink (thinkOn index s) fin = emitBuffered emitThink [thinkClose] (thinkOn index s) fin := by
  unfold stepInThink
  simp only [thinkOn, find_none.mpr h]

theorem text_prose (serde : SerdeJson) (index : Nat) :
    Prose (machine serde) ParserEvent.coalesce (textOn index) emitText
      (tagEntry textOpenTags (afterOpen index)) (tailStart (opensTag textOpenTags)) IsAscii where
  empty := emitText_nil
  joins := emitText_append _ _ _
  found := by
    intro s u es q h
    obtain ⟨⟨pos, tag⟩, he, heq⟩ := Option.map_eq_some_iff.mp h
    cases heq
    simp only [machine, step, textOn, stepText, he, List.append_nil]
    rfl
  held := by
    intro s hnone hcalm
    have he := tagEntry_none.mp hnone
    have hscan := earliest_none.mp he
    exact (stepText_none index he false).trans
      (emitBuffered_ascii (p := textOn index s) emitText_nil hcalm hscan (by decide))
  rest := fun hnone _ => tagEntry_none.mpr (earliest_drop (tagEntry_none.mp hnone) _)
  last := by
    intro s hnone
    have hstep := (stepText_none index (tagEntry_none.mp hnone) true).trans
      (emitBuffered_finish (p := textOn index s) emitText_nil)
    exact finish_last (m := machine serde) hstep rfl rfl
  calm := fun h => (isAscii_append.mp h).2

theorem think_prose (serde : SerdeJson) (index : Nat) :
    Prose (machine serde) ParserEvent.coalesce (thinkOn index) emitThink
      (tagEntry [thinkClose] (afterThink index)) (tailStart (opensTag [thinkClose])) IsAscii where
  empty := emitThink_nil
  joins := emitThink_append _ _ _
  found := by
    intro s u es q h
    obtain ⟨⟨pos, tag⟩, he, heq⟩ := Option.map_eq_some_iff.mp h
    obtain ⟨_, _, _, _, htag, _⟩ := earliest_some he
    have hmem := List.mem_singleton.mp htag
    subst hmem
    cases heq
    simp only [machine, step, thinkOn, stepInThink, find_of_earliest he, List.append_nil]
    rfl
  held := by
    intro s hnone hcalm
    have he := tagEntry_none.mp hnone
    have hscan := earliest_none.mp he
    exact (stepInThink_none index he false).trans
      (emitBuffered_ascii (p := thinkOn index s) emitThink_nil hcalm hscan (by decide))
  rest := fun hnone _ => tagEntry_none.mpr (earliest_drop (tagEntry_none.mp hnone) _)
  last := by
    intro s hnone
    have hstep := (stepInThink_none index (tagEntry_none.mp hnone) true).trans
      (emitBuffered_finish (p := thinkOn index s) emitThink_nil)
    exact finish_last (m := machine serde) hstep rfl rfl
  calm := fun h => (isAscii_append.mp h).2

/-! One step before the rest of the input, or with it. -/

variable (serde : SerdeJson)

theorem text_moves (hclear : Clear (textOn index s) x) :
    (machine serde).Moves ParserEvent.coalesce Clear (textOn index s) x := by
  cases he : earliest textOpenTags s with
  | some r =>
    obtain ⟨pos, tag⟩ := r
    have hle := earliest_le he
    have hwith := textOpen_markers.earliest_append he x
    have hdrop : (s ++ x).drop (pos + tag.length) = s.drop (pos + tag.length) ++ x :=
      List.drop_append_of_le_length hle
    have hstep : step serde false (textOn index s) =
        some (emitText (s.take pos), afterOpen index tag (s.drop (pos + tag.length)), true) := by
      simp only [step, textOn, stepText, he]
      rfl
    apply moves_step hstep
    · intro htrips
      apply hclear
      apply Trips.textTag hwith
      rw [hdrop]
      exact htrips
    · simp only [machine, step, textOn, stepText, hwith]
      rw [hdrop, List.take_append_of_le_length (by omega)]
      rfl
  | none =>
    have hfront : IsAscii (front textOpenTags (s ++ x)) := by
      apply Decidable.byContradiction
      intro hnot
      exact hclear (.text hnot)
    have hascii := ascii_of_front he textOpen_ascii hfront
    refine ⟨_, _, _, (text_prose serde index).held (tagEntry_none.mpr he) hascii, ?_, ?_⟩
    · intro htrips
      exact hclear (trips_text_shift he htrips)
    · apply (text_prose serde index).moves ParserEvent.congruent (tagEntry_shift he x)
      intro hnone
      have hwhole := tagEntry_none.mp hnone
      unfold front at hfront
      rw [hwhole] at hfront
      exact hfront

theorem think_moves (hclear : Clear (thinkOn index s) x) :
    (machine serde).Moves ParserEvent.coalesce Clear (thinkOn index s) x := by
  cases hf : find thinkClose s with
  | some pos =>
    have hle := find_le hf
    have hwith := thinkClose_markers.find_append hf x
    have hdrop : (s ++ x).drop (pos + thinkClose.length) = s.drop (pos + thinkClose.length) ++ x :=
      List.drop_append_of_le_length hle
    have hstep : step serde false (thinkOn index s) =
        some (emitThink (s.take pos), textOn index (s.drop (pos + thinkClose.length)), true) := by
      simp only [step, thinkOn, stepInThink, hf]
      rfl
    apply moves_step hstep
    · intro htrips
      apply hclear
      apply Trips.thinkTag hwith
      rw [hdrop]
      exact htrips
    · simp only [machine, step, thinkOn, stepInThink, hwith]
      rw [hdrop, List.take_append_of_le_length (by omega)]
      rfl
  | none =>
    have he := find_none.mp hf
    have hfront : IsAscii (front [thinkClose] (s ++ x)) := by
      apply Decidable.byContradiction
      intro hnot
      exact hclear (.think hnot)
    have hascii := ascii_of_front he thinkClose_ascii hfront
    refine ⟨_, _, _, (think_prose serde index).held (tagEntry_none.mpr he) hascii, ?_, ?_⟩
    · intro htrips
      exact hclear (trips_think_shift he htrips)
    · apply (think_prose serde index).moves ParserEvent.congruent (tagEntry_shift he x)
      intro hnone
      have hwhole := tagEntry_none.mp hnone
      unfold front at hfront
      rw [hwhole] at hfront
      exact hfront

theorem objectEnd_append (h : objectEnd depth inStr escaped s = some stop) (x : Text) :
    objectEnd depth inStr escaped (s ++ x) = some stop := by
  induction s generalizing depth inStr escaped stop with
  | nil => cases h
  | cons c s ih =>
    rw [List.cons_append]
    unfold objectEnd at h ⊢
    split at h
    · exact h
    · obtain ⟨k, hk, rfl⟩ := Option.map_eq_some_iff.mp h
      rw [ih hk]
      rfl

theorem brace_markers : Markers '{' [['{']] := ⟨by decide, by decide⟩

theorem jsonObjectSpan_append (h : jsonObjectSpan s = some span) (x : Text) :
    jsonObjectSpan (s ++ x) = some span := by
  unfold jsonObjectSpan at h ⊢
  obtain ⟨start, hstart, h⟩ := Option.bind_eq_some_iff.mp h
  obtain ⟨stop, hstop, heq⟩ := Option.map_eq_some_iff.mp h
  have hle := find_le hstart
  rw [brace_markers.find_append hstart x, Option.bind_some,
    List.drop_append_of_le_length (by omega), objectEnd_append hstop x, Option.map_some, heq]

theorem tool_moves (hclear : Clear ⟨s, .inTool, index⟩ x) :
    (machine serde).Moves ParserEvent.coalesce Clear ⟨s, .inTool, index⟩ x := by
  cases hspan : jsonObjectSpan s with
  | some span =>
    obtain ⟨start, stop⟩ := span
    have hlt := jsonObjectSpan_lt hspan
    have hwith := jsonObjectSpan_append hspan x
    have hdrop : (s ++ x).drop (stop + 1) = s.drop (stop + 1) ++ x :=
      List.drop_append_of_le_length (by omega)
    have hstep : step serde false ⟨s, .inTool, index⟩ =
        some ([.toolCallOpen index (callOf serde ((s.take (stop + 1)).drop start)).1,
            .toolCallArgumentsDelta index (callOf serde ((s.take (stop + 1)).drop start)).2,
            .toolCallClose index],
          ⟨s.drop (stop + 1), .awaitingToolClose, index + 1⟩, true) := by
      simp only [step, stepInTool, hspan]
    apply moves_step hstep
    · intro htrips
      apply hclear
      apply Trips.tool hwith
      rw [hdrop]
      exact htrips
    · simp only [machine, step, stepInTool, hwith]
      rw [hdrop, List.take_append_of_le_length (by omega)]
  | none =>
    have hstep : step serde false ⟨s, .inTool, index⟩ = some ([], ⟨s, .inTool, index⟩, false) := by
      simp [step, stepInTool, hspan]
    exact moves_wait hstep hclear

/-- White space in front is the same, whatever follows a text that is not blank. -/
theorem trimStart_append (h : trimStart s ≠ []) (x : Text) :
    trimStart (s ++ x) = trimStart s ++ x := by
  unfold trimStart at h ⊢
  rw [List.dropWhile_append]
  cases hd : s.dropWhile isWhitespace with
  | nil => exact absurd hd h
  | cons c r => rfl

/-- The close tag is not in the text, nor is the text a front of it: it does not
come to stand at the start. -/
theorem close_here (hf : find toolClose s = none) (hwait : ¬ s <+: toolClose) :
    find toolClose (s ++ x) ≠ some 0 := by
  intro hf'
  obtain ⟨u, r, hsplit, hlen, _, _⟩ := earliest_some (find_some hf')
  rw [List.eq_nil_of_length_eq_zero hlen, List.nil_append] at hsplit
  rcases List.append_eq_append_iff.mp hsplit with ⟨a, ha, _⟩ | ⟨a, ha, _⟩
  · exact hwait ⟨a, ha.symm⟩
  · have hscan := earliest_none.mp (find_none.mp hf)
    have hhere := scan_none.mp hscan s (List.suffix_refl s)
    exact tagHere_none.mp hhere toolClose List.mem_cons_self ⟨a, ha.symm⟩

/-- With the close tag out of reach, the parser goes back to text. -/
theorem awaiting_text (index : Nat) (hf : find toolClose (trimStart s) = none)
    (hwait : ¬ trimStart s <+: toolClose) :
    step serde false ⟨s, .awaitingToolClose, index⟩ = some ([], textOn index s, true) := by
  have hne : (trimStart s).isEmpty = false := by
    rw [List.isEmpty_eq_false_iff]
    intro hnil
    rw [hnil] at hwait
    exact hwait List.nil_prefix
  have hnot : (trimStart s).isPrefixOf toolClose = false := by
    apply eq_false_of_ne_true
    intro h
    exact hwait (List.isPrefixOf_iff_prefix.mp h)
  simp only [step, stepAwaitingClose, hf, hne, hnot, Bool.or_false, Bool.and_false,
    Bool.false_eq_true, if_false]
  rfl

theorem awaiting_moves (hclear : Clear ⟨s, .awaitingToolClose, index⟩ x) :
    (machine serde).Moves ParserEvent.coalesce Clear ⟨s, .awaitingToolClose, index⟩ x := by
  have hlen := trimStart_length s
  cases hf : find toolClose (trimStart s) with
  | some rel =>
    have hle := find_le hf
    have hne : trimStart s ≠ [] := by
      intro hnil
      rw [hnil] at hle
      simp [toolClose] at hle
    have htrim := trimStart_append hne x
    have hwith : find toolClose (trimStart (s ++ x)) = some rel := by
      rw [htrim]
      exact toolClose_markers.find_append hf x
    have hzero : rel = 0 := by
      apply Nat.eq_zero_of_not_pos
      intro hpos
      exact hclear (.junk hwith hpos)
    subst hzero
    have hback : s.drop (s.length - (trimStart s).length) = trimStart s :=
      List.suffix_iff_eq_drop.mp (List.dropWhile_suffix isWhitespace) |>.symm
    have hstep : step serde false ⟨s, .awaitingToolClose, index⟩ =
        some ([], textOn index ((trimStart s).drop toolClose.length), true) := by
      simp only [step, stepAwaitingClose, hf, Nat.add_zero, ← List.drop_drop, hback]
      rfl
    apply moves_step hstep
    · intro htrips
      apply hclear
      apply Trips.closed hwith
      rw [htrim, List.drop_append_of_le_length (by omega)]
      exact htrips
    · have hback' : (s ++ x).drop ((s ++ x).length - (trimStart s ++ x).length) =
          trimStart s ++ x := by
        rw [List.length_append, List.length_append, Nat.add_sub_add_right,
          List.drop_append_of_le_length (by omega), hback]
      simp only [machine, step, stepAwaitingClose, hwith]
      rw [htrim, Nat.add_zero, ← List.drop_drop, hback',
        List.drop_append_of_le_length (by omega)]
      rfl
  | none =>
    by_cases hwait : trimStart s <+: toolClose
    · have hcond : ((trimStart s).isEmpty || (trimStart s).isPrefixOf toolClose) = true := by
        rw [List.isPrefixOf_iff_prefix.mpr hwait, Bool.or_true]
      have hstep : step serde false ⟨s, .awaitingToolClose, index⟩ =
          some ([], ⟨s, .awaitingToolClose, index⟩, false) := by
        simp only [step, stepAwaitingClose, hf, hcond, Bool.not_false, Bool.and_true, if_true]
      exact moves_wait hstep hclear
    · have hne : trimStart s ≠ [] := by
        intro hnil
        rw [hnil] at hwait
        exact hwait List.nil_prefix
      have htrim := trimStart_append hne x
      have hwait' : ¬ trimStart (s ++ x) <+: toolClose := by
        rw [htrim]
        intro hp
        exact hwait ((List.prefix_append _ x).trans hp)
      have hwith : find toolClose (trimStart (s ++ x)) = none := by
        cases hf' : find toolClose (trimStart (s ++ x)) with
        | none => rfl
        | some pos =>
          have hzero : pos = 0 := by
            apply Nat.eq_zero_of_not_pos
            intro hpos
            exact hclear (.junk hf' hpos)
          subst hzero
          rw [htrim] at hf'
          exact absurd hf' (close_here hf hwait)
      have hstep := awaiting_text serde index hf hwait
      apply moves_step hstep
      · intro htrips
        exact hclear (.unclosed hwith hwait' htrips)
      · exact awaiting_text serde index hwith hwait'

theorem clear_moves (p : HermesJsonParser) (h : Clear p x) :
    (machine serde).Moves ParserEvent.coalesce Clear p x := by
  obtain ⟨buf, state, index⟩ := p
  cases state with
  | text => exact text_moves serde h
  | inThink => exact think_moves serde h
  | inTool => exact tool_moves serde h
  | awaitingToolClose => exact awaiting_moves serde h

theorem hermes_steady (serde : SerdeJson) : Steady (machine serde) ParserEvent.coalesce Clear where
  fed := by
    intro p x y h
    simp only [Clear, machine, List.append_assoc] at h ⊢
    exact h
  moves := fun h _ => clear_moves serde _ h

/-- Once the input has ended no step panics. -/
theorem finish_some (serde : SerdeJson) (p : HermesJsonParser) :
    ∃ es q, (machine serde).finish p = some (es, q) := by
  have hstep : ∀ p, True → ∃ es p' b, step serde true p = some (es, p', b) ∧ True := by
    intro p _
    obtain ⟨buf, state, index⟩ := p
    cases state with
    | text =>
      cases he : earliest textOpenTags buf with
      | some r => exact ⟨_, _, _, by simp only [step, stepText, he]; rfl, trivial⟩
      | none =>
        have hnone := (stepText_none index he true).trans (emitBuffered_finish emitText_nil)
        exact ⟨_, _, _, hnone, trivial⟩
    | inThink =>
      cases hf : find thinkClose buf with
      | some pos => exact ⟨_, _, _, by simp only [step, stepInThink, hf]; rfl, trivial⟩
      | none =>
        have hnone := (stepInThink_none index (find_none.mp hf) true).trans
          (emitBuffered_finish emitThink_nil)
        exact ⟨_, _, _, hnone, trivial⟩
    | inTool =>
      simp only [step, stepInTool]
      split
      · exact ⟨_, _, _, rfl, trivial⟩
      · split
        · exact ⟨_, _, _, rfl, trivial⟩
        · exact ⟨_, _, _, rfl, trivial⟩
    | awaitingToolClose => exact ⟨_, _, _, rfl, trivial⟩
  obtain ⟨es, q, hdrain, _⟩ := drain_safe (m := machine serde) hstep p trivial
  unfold finish
  rw [hdrain]
  exact ⟨_, _, rfl⟩

theorem clear_ends (serde : SerdeJson) (h : Clear p []) :
    ∃ es, (machine serde).ending p = some es := by
  have hstep : ∀ p, Clear p [] → ∃ es p' b, step serde false p = some (es, p', b) ∧ Clear p' [] := by
    intro p hp
    obtain ⟨es, p', b, hs, hp', _⟩ := clear_moves serde p hp
    exact ⟨es, p', b, hs, hp'⟩
  obtain ⟨es, q, hdrain, _⟩ := drain_safe (m := machine serde) hstep p h
  obtain ⟨fs, r, hfinish⟩ := finish_some serde q
  unfold ending
  rw [hdrain, Option.bind_some, hfinish]
  exact ⟨_, rfl⟩

/-- Where the input trips the parser nowhere, it gives out the same coalesced
events for all chunks of the input, and never panics. -/
theorem chunks_agree (serde : SerdeJson) (p : HermesJsonParser)
    (hp : p = .new ∨ p = .newInThink) (chunks : List Text) (hchunks : ∀ c ∈ chunks, c ≠ [])
    (htrips : ¬ Trips p.state chunks.flatten) :
    ∃ es fs, (machine serde).stream p chunks = some es ∧
      (machine serde).stream p [chunks.flatten] = some fs ∧
      ParserEvent.coalesce es = ParserEvent.coalesce fs := by
  have hbuf : p.buf = [] := by
    rcases hp with rfl | rfl <;> rfl
  have hclear : Clear p chunks.flatten := by
    unfold Clear
    rw [hbuf]
    exact htrips
  have hchunked := (hermes_steady serde).chunks ParserEvent.congruent hchunks hclear
  have hwhole : ∃ fs, (machine serde).stream p [chunks.flatten] = some fs := by
    by_cases hnil : chunks.flatten = []
    · obtain ⟨es, q, hfinish⟩ := finish_some serde p
      rw [hnil]
      simp [stream, push, hfinish]
    · have hfed : Clear ((machine serde).feed p chunks.flatten) [] := by
        apply (hermes_steady serde).fed
        rw [List.append_nil]
        exact hclear
      rw [stream_one hnil]
      exact clear_ends serde hfed
  obtain ⟨fs, hfs⟩ := hwhole
  rw [hfs, Option.map_some, Option.map_eq_some_iff] at hchunked
  obtain ⟨es, hes, heq⟩ := hchunked
  exact ⟨es, fs, hes, hfs, heq⟩

/-- `serde_json` on the empty object. -/
def objectSerde : SerdeJson where
  fromStr s := if s = emptyObject then some (.object []) else none
  toString
    | .object [] => some emptyObject
    | _ => none

/-- A call with nothing but its object between the tags, cut inside the object. -/
def emptyCall : List Text := [toolOpen ++ ['{'], '}' :: toolClose]

theorem emptyCall_clear : ¬ Trips .text emptyCall.flatten := by
  intro h
  cases h with
  | text hfront => exact hfront (by decide)
  | textTag he h =>
    have hopen : earliest textOpenTags emptyCall.flatten = some (0, toolOpen) := by decide
    rw [hopen] at he
    cases he
    cases h with
    | tool hspan h =>
      have hobject : jsonObjectSpan (emptyObject ++ toolClose) = some (0, 1) := by decide
      have hsame := hobject.symm.trans hspan
      cases hsame
      cases h with
      | junk hf hpos =>
        have hclose : find toolClose (trimStart toolClose) = some 0 := by decide
        have hat := hclose.symm.trans hf
        cases hat
        omega
      | closed hf h =>
        cases h with
        | text hfront => exact hfront (by decide)
        | textTag he h => cases he
      | unclosed hf _ _ => cases hf

theorem empty_call_agrees :
    ∃ es fs, (machine objectSerde).stream .new emptyCall = some es ∧
      (machine objectSerde).stream .new [emptyCall.flatten] = some fs ∧
      ParserEvent.coalesce es = ParserEvent.coalesce fs :=
  chunks_agree objectSerde .new (.inl rfl) emptyCall (by decide) emptyCall_clear

/-- The same call with a letter after the object, cut before the close tag. -/
def junkCall : List Text := [toolOpen ++ ['{', '}', 'x'], toolClose]

theorem junkCall_chunked :
    (machine objectSerde).stream .new junkCall =
      some [.toolCallOpen 0 [], .toolCallArgumentsDelta 0 emptyObject, .toolCallClose 0,
        .textDelta ['x'], .textDelta toolClose] := by
  have hfirst : (machine objectSerde).push .new (toolOpen ++ ['{', '}', 'x']) =
      some ([.toolCallOpen 0 [], .toolCallArgumentsDelta 0 emptyObject, .toolCallClose 0,
        .textDelta ['x']], ⟨[], .text, 1⟩) := by
    unfold push
    rw [if_neg (by decide), drain_step rfl, drain_step rfl, drain_step rfl, drain_step rfl,
      drain_stop rfl]
    rfl
  have hsecond : (machine objectSerde).push ⟨[], .text, 1⟩ toolClose =
      some ([.textDelta toolClose], ⟨[], .text, 1⟩) := by
    unfold push
    rw [if_neg (by decide), drain_step rfl, drain_stop rfl]
    rfl
  have hfinish : (machine objectSerde).finish ⟨[], .text, 1⟩ = some ([], ⟨[], .text, 1⟩) := by
    unfold finish
    rw [drain_stop rfl]
    rfl
  simp only [junkCall, stream, hfirst, hsecond, hfinish, Option.bind_some, Option.map_some]
  rfl

theorem junkCall_whole :
    (machine objectSerde).stream .new [junkCall.flatten] =
      some [.toolCallOpen 0 [], .toolCallArgumentsDelta 0 emptyObject, .toolCallClose 0] := by
  have hpush : (machine objectSerde).push .new junkCall.flatten =
      some ([.toolCallOpen 0 [], .toolCallArgumentsDelta 0 emptyObject, .toolCallClose 0],
        ⟨[], .text, 1⟩) := by
    unfold push
    rw [if_neg (by decide), drain_step rfl, drain_step rfl, drain_step rfl, drain_stop rfl]
    rfl
  have hfinish : (machine objectSerde).finish ⟨[], .text, 1⟩ = some ([], ⟨[], .text, 1⟩) := by
    unfold finish
    rw [drain_stop rfl]
    rfl
  simp only [stream, hpush, hfinish, Option.bind_some, Option.map_some]
  rfl

/-- The letter and the close tag are text in two chunks, and dropped in one. -/
theorem junk_before_close_shows :
    (∀ c ∈ junkCall, c ≠ []) ∧
      ((machine objectSerde).stream .new junkCall).map ParserEvent.coalesce ≠
        ((machine objectSerde).stream .new [junkCall.flatten]).map ParserEvent.coalesce := by
  refine ⟨by decide, ?_⟩
  rw [junkCall_chunked, junkCall_whole]
  decide

end Flambeau.Server.ToolCallParser.Hermes
