import Flambeau.Stream.Verbatim
import Flambeau.Server.ToolCallParser.Gemma4Chunks
import Flambeau.Server.ToolCallParser.HermesChunks
import Flambeau.Server.ToolCallParser.QwenMachine

namespace Flambeau.Server.ToolCallParser
open Flambeau.Stream

/-- Nothing but the text is given out, and all of it. -/
def GivesOut (events : Option (List ParserEvent)) (s : Text) : Prop :=
  ∃ texts : List Text, events = some (texts.map .textDelta) ∧ texts.flatten = s

theorem emitText_pieces (pieces : List Text) :
    ∃ texts : List Text, pieces.flatMap emitText = texts.map .textDelta ∧ texts.flatten = pieces.flatten := by
  induction pieces with
  | nil => exact ⟨[], rfl, rfl⟩
  | cons s pieces ih =>
    obtain ⟨texts, hes, hflat⟩ := ih
    cases s with
    | nil => exact ⟨texts, hes, hflat⟩
    | cons c s =>
      refine ⟨(c :: s) :: texts, ?_, ?_⟩
      · rw [List.flatMap_cons, hes]
        rfl
      · rw [List.flatten_cons, List.flatten_cons, hflat]

/-- A parser whose text state passes plain text on. -/
theorem givesOut_stream {m : Machine Char ParserEvent P} {on : Text → P} {Plain : Text → Prop}
    (h : m.Verbatim on emitText Plain) (chunks : List Text) (hplain : Plain chunks.flatten) :
    GivesOut (m.stream (on []) chunks) chunks.flatten := by
  obtain ⟨es, hstream, pieces, rfl, hflat⟩ := h.stream (s := []) chunks hplain
  obtain ⟨texts, hes, htexts⟩ := emitText_pieces pieces
  refine ⟨texts, ?_, ?_⟩
  · rw [hstream, hes]
  · rw [List.append_nil, List.nil_append] at hflat
    rw [htexts, hflat]

/-! The text state of each parser. -/

theorem Hermes.verbatim (serde : SerdeJson) : (machine serde).Verbatim (textOn 0) emitText
    fun s => IsAscii s ∧ Free textOpenTags s where
  fed := rfl
  front h := ⟨(isAscii_append.mp h.1).1, h.2.sub (List.prefix_append _ _).isInfix⟩
  back h := ⟨(isAscii_append.mp h.1).2, h.2.sub (List.suffix_append _ _).isInfix⟩
  passes := by
    rintro s ⟨hascii, hfree⟩
    have hnone := earliest_free.mpr hfree
    exact ⟨_, _, (stepText_none 0 hnone false).trans
      (emitBuffered_ascii (p := textOn 0 s) emitText_nil hascii (earliest_none.mp hnone) (by decide))⟩
  ends := by
    rintro s ⟨-, hfree⟩
    exact ⟨_, (stepText_none 0 (earliest_free.mpr hfree) true).trans
      (emitBuffered_finish (p := textOn 0 s) emitText_nil)⟩
  spent := rfl

theorem Gemma4.verbatim (serde : GemmaSerde) : (machine serde).Verbatim (holding .new) emitText (Free textOpenTags) where
  fed := rfl
  front h := h.sub (List.prefix_append _ _).isInfix
  back h := h.sub (List.suffix_append _ _).isInfix
  passes := by
    intro s hfree
    exact ⟨_, _, (stepText_none serde rfl (earliest_free.mpr hfree) false).trans
      (congrArg some (emitBuffered_held rfl (by decide) (by decide) .new s))⟩
  ends := by
    intro s hfree
    exact ⟨_, (stepText_none serde rfl (earliest_free.mpr hfree) true).trans
      (congrArg some (emitBuffered_finish rfl .new s))⟩
  spent := rfl

namespace QwenCoder

/-- No marker of the text state: no tag, no `<function=` that is closed, no bare `<NAME>` in front of
a parameter or the end of a function. -/
structure Plain (s : Text) : Prop where
  tags : Free textStateOpenTags s
  functions : s = front ++ (functionOpen ++ rest) → '>' ∉ rest
  bare : s = front ++ ('<' :: (name ++ '>' :: (space ++ rest))) → isFunctionName name = true →
    space.all isWhitespace = true → ¬ parameterOpen <+: rest ∧ ¬ functionClose <+: rest

theorem Plain.front (h : Plain (a ++ b)) : Plain a where
  tags := h.tags.sub (List.prefix_append a b).isInfix
  functions := by
    rintro front rest rfl hmem
    refine @Plain.functions _ h front (rest ++ b) (by simp) ?_
    exact List.mem_append_left b hmem
  bare := by
    rintro front name space rest rfl hname hspace
    obtain ⟨hparam, hclose⟩ := @Plain.bare _ h front _ _ (rest ++ b) (by simp) hname hspace
    exact ⟨fun hp => hparam (hp.trans (List.prefix_append rest b)),
      fun hp => hclose (hp.trans (List.prefix_append rest b))⟩

theorem Plain.back (h : Plain (a ++ b)) : Plain b where
  tags := h.tags.sub (List.suffix_append a b).isInfix
  functions := by
    rintro front rest rfl
    exact @Plain.functions _ h (a ++ front) _ (by simp)
  bare := by
    rintro front name space rest rfl
    exact @Plain.bare _ h (a ++ front) _ _ _ (by simp)

theorem Plain.drop (h : Plain s) (n : Nat) : Plain (s.drop n) := by
  rw [← List.take_append_drop n s] at h
  exact h.back

theorem Plain.canonicalOpen (h : Plain s) : canonicalOpen s = none := by
  unfold QwenCoder.canonicalOpen
  rw [Option.bind_eq_none_iff]
  intro p hp
  dsimp only
  rw [Option.map_eq_none_iff, find_none, earliest_free]
  intro t ht hin
  rw [List.mem_singleton.mp ht] at hin
  exact h.functions (find_parts hp).symm (hin.subset (List.mem_singleton_self '>'))

/-- The name of a bare tag, and what stands around it. -/
theorem bare_parts {s : Text} (hlt : find ['<'] s = some lt) (hgt : find ['>'] (s.drop lt) = some gt) :
    s = s.take lt ++ ('<' :: ((s.drop (lt + 1)).take (gt - 1) ++ '>' :: s.drop (lt + gt + 1))) := by
  have hopen : s.drop lt = '<' :: s.drop (lt + 1) := find_drop hlt
  have hclose : (s.drop lt).drop gt = '>' :: (s.drop lt).drop (gt + 1) := find_drop hgt
  obtain ⟨n, rfl⟩ : ∃ n, gt = n + 1 := by
    cases gt with
    | zero =>
      rw [List.drop_zero, hopen] at hclose
      cases hclose
    | succ n => exact ⟨n, rfl⟩
  rw [Nat.add_sub_cancel]
  calc s = s.take lt ++ s.drop lt := (List.take_append_drop lt s).symm
    _ = s.take lt ++ ((s.drop lt).take (n + 1) ++ (s.drop lt).drop (n + 1)) := by
      rw [List.take_append_drop (n + 1)]
    _ = _ := by rw [hclose, hopen, List.take_succ_cons, ← hopen, List.drop_drop, Nat.add_assoc lt (n + 1), List.cons_append]

theorem Plain.bareOpen {s : Text} (h : Plain s) : bareOpen s = none := by
  cases hlt : find ['<'] s with
  | none => exact bareOpen_prose hlt
  | some lt =>
    cases hgt : find ['>'] (s.drop lt) with
    | none => exact bareOpen_unclosed hlt hgt
    | some gt =>
      have hshort : (s.drop (lt + gt + 1)).length < s.length := bareOpen_descends hlt
      have ih := (h.drop (lt + gt + 1)).bareOpen
      rw [bareOpen_tag hlt hgt, ih, Option.map_none, if_neg]
      intro hboth
      obtain ⟨hname, hanchor⟩ := Bool.and_eq_true_iff.mp hboth
      have hsplit := bare_parts hlt hgt
      rw [← List.takeWhile_append_dropWhile (p := isWhitespace) (l := s.drop (lt + gt + 1))] at hsplit
      obtain ⟨hparam, hclose⟩ := h.bare hsplit hname List.all_takeWhile
      unfold anchored trimStart at hanchor
      rw [Bool.or_eq_true, List.isPrefixOf_iff_prefix, List.isPrefixOf_iff_prefix] at hanchor
      exact hanchor.elim hparam hclose
termination_by s.length

theorem Plain.functionFirst (h : Plain s) : functionFirst s = none := by
  have hfind : findFunctionOpen s = none := by
    unfold findFunctionOpen
    rw [h.canonicalOpen, h.bareOpen]
  unfold QwenCoder.functionFirst
  rw [earliest_free.mpr h.tags]
  exact hfind

/-- The parser in text with `s` held. -/
def textOn (s : Text) : QwenCoderXmlParser := { QwenCoderXmlParser.new with buf := s }

theorem step_plain (serde : SerdeJson) (h : Plain s) (fin : Bool) :
    step serde fin (textOn s) = emitUpTo emitText (textOn s) (if fin then s.length else pendingToolTailStart s) := by
  unfold step stepText
  simp only [textOn, QwenCoderXmlParser.new, h.functionFirst, earliest_free.mpr h.tags]

theorem emitUpTo_pieces (s : Text) (upto : Nat) :
    ∃ b, emitUpTo emitText (textOn s) upto = (emitText (s.take upto), textOn (s.drop upto), b) := by
  unfold emitUpTo
  by_cases hpos : 0 < upto
  · rw [if_pos hpos]
    exact ⟨true, rfl⟩
  · rw [if_neg hpos, Nat.eq_zero_of_not_pos hpos]
    exact ⟨false, rfl⟩

theorem verbatim (serde : SerdeJson) : (machine serde).Verbatim textOn emitText Plain where
  fed := rfl
  front := Plain.front
  back := Plain.back
  passes := by
    intro s h
    obtain ⟨b, hstep⟩ := emitUpTo_pieces s (pendingToolTailStart s)
    exact ⟨_, b, congrArg some ((step_plain serde h false).trans hstep)⟩
  ends := by
    intro s h
    obtain ⟨b, hstep⟩ := emitUpTo_pieces s s.length
    rw [List.take_length, List.drop_length] at hstep
    exact ⟨b, congrArg some ((step_plain serde h true).trans hstep)⟩
  spent := rfl

end QwenCoder

/-- Text in which no marker of the text state stands is given out as it is, however it is cut. -/
theorem plain_text_verbatim (serde : Gemma4.GemmaSerde) (chunks : List Text) (hascii : IsAscii chunks.flatten) :
    (Free Hermes.textOpenTags chunks.flatten →
      GivesOut ((Hermes.machine serde.toSerdeJson).stream .new chunks) chunks.flatten) ∧
    (QwenCoder.Plain chunks.flatten →
      GivesOut ((QwenCoder.machine serde.toSerdeJson).stream .new chunks) chunks.flatten) ∧
    (Free Gemma4.textOpenTags chunks.flatten → GivesOut (Gemma4.stream serde .new chunks) chunks.flatten) := by
  refine ⟨?_, ?_, ?_⟩
  · intro h
    exact givesOut_stream (Hermes.verbatim serde.toSerdeJson) chunks ⟨hascii, h⟩
  · intro h
    exact givesOut_stream (QwenCoder.verbatim serde.toSerdeJson) chunks h
  · intro h
    rw [Gemma4.stream_machine serde rfl]
    exact givesOut_stream (Gemma4.verbatim serde) chunks h

/-- The front of a tag that comes to nothing, in two chunks. -/
theorem cut_tag_verbatim :
    GivesOut ((Hermes.machine Gemma4.emptySerde.toSerdeJson).stream .new [['a', '<'], ['t', ' ']]) ['a', '<', 't', ' '] ∧
    GivesOut ((QwenCoder.machine Gemma4.emptySerde.toSerdeJson).stream .new [['a', '<'], ['t', ' ']]) ['a', '<', 't', ' '] ∧
    GivesOut (Gemma4.stream Gemma4.emptySerde .new [['a', '<'], ['t', ' ']]) ['a', '<', 't', ' '] := by
  obtain ⟨hermes, qwen, gemma⟩ := plain_text_verbatim Gemma4.emptySerde [['a', '<'], ['t', ' ']] (by decide)
  refine ⟨hermes (by decide), qwen ⟨by decide, ?_, ?_⟩, gemma (by decide)⟩
  · rintro front rest heq hmem
    have hmem' : '>' ∈ ['a', '<', 't', ' '] := by
      rw [show ['a', '<', 't', ' '] = front ++ (QwenCoder.functionOpen ++ rest) from heq]
      simp [hmem]
    simp at hmem'
  · rintro front name space rest heq
    have hmem : '>' ∈ ['a', '<', 't', ' '] := by
      rw [show ['a', '<', 't', ' '] = front ++ ('<' :: (name ++ '>' :: (space ++ rest))) from heq]
      simp
    simp at hmem

end Flambeau.Server.ToolCallParser
