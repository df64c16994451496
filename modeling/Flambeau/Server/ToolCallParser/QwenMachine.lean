import Flambeau.Server.ToolCallParser.QwenCoder

namespace Flambeau.Server.ToolCallParser.QwenCoder
open Flambeau.Stream Flambeau.Runtime.JsonSchema

/-! Progress. -/

/-- Behind a call, the parser may change its state and keep its buffer. -/
def rank (p : QwenCoderXmlParser) : Nat :=
  2 * p.buf.length + if p.state = .awaitingToolCallClose then 1 else 0

theorem rank_shorter {p p' : QwenCoderXmlParser} (h : p'.buf.length < p.buf.length) : rank p' < rank p := by
  unfold rank
  split <;> split <;> omega

/-- An opening tag stands within the buffer. -/
def FunctionOpen.Within (o : FunctionOpen) (buf : Text) : Prop :=
  0 < o.tagLen ∧ o.start + o.tagLen ≤ buf.length

theorem canonicalOpen_within (h : canonicalOpen buf = some o) : o.Within buf := by
  obtain ⟨p, hp, h⟩ := Option.bind_eq_some_iff.mp h
  obtain ⟨gt, hgt, rfl⟩ := Option.map_eq_some_iff.mp h
  have hfront := find_le hp
  have hclose := find_le hgt
  rw [List.length_drop, List.length_singleton] at hclose
  exact ⟨Nat.succ_pos _, by dsimp only; omega⟩

theorem bareOpen_prose (h : find ['<'] buf = none) : bareOpen buf = none := by
  rw [bareOpen]
  split
  · rfl
  · rename_i hlt
    rw [h] at hlt
    cases hlt

theorem bareOpen_unclosed (hlt : find ['<'] buf = some lt) (hgt : find ['>'] (buf.drop lt) = none) :
    bareOpen buf = none := by
  rw [bareOpen]
  split
  · rfl
  · rename_i hsome
    rw [hlt] at hsome
    cases hsome
    rw [hgt]

/-- The scan at a tag: the bare name, or on behind it. -/
theorem bareOpen_tag (hlt : find ['<'] buf = some lt) (hgt : find ['>'] (buf.drop lt) = some gt) :
    bareOpen buf =
      if isFunctionName ((buf.drop (lt + 1)).take (gt - 1)) && anchored (buf.drop (lt + gt + 1)) then
        some ⟨lt, gt + 1, (buf.drop (lt + 1)).take (gt - 1)⟩
      else (bareOpen (buf.drop (lt + gt + 1))).map fun o => { o with start := lt + gt + 1 + o.start } := by
  rw [bareOpen]
  split
  · rename_i hnone
    rw [hlt] at hnone
    cases hnone
  · rename_i hsome
    rw [hlt] at hsome
    cases hsome
    rw [hgt]

theorem bareOpen_within (h : bareOpen buf = some o) : o.Within buf := by
  cases hlt : find ['<'] buf with
  | none =>
    rw [bareOpen_prose hlt] at h
    cases h
  | some lt =>
    cases hgt : find ['>'] (buf.drop lt) with
    | none =>
      rw [bareOpen_unclosed hlt hgt] at h
      cases h
    | some gt =>
      have hshort : (buf.drop (lt + gt + 1)).length < buf.length := bareOpen_descends hlt
      have hopen := find_le hlt
      have hclose := find_le hgt
      rw [List.length_drop] at hclose
      rw [List.length_singleton] at hopen hclose
      rw [bareOpen_tag hlt hgt] at h
      split at h
      · cases h
        exact ⟨Nat.succ_pos _, by dsimp only; omega⟩
      · obtain ⟨o', ho', rfl⟩ := Option.map_eq_some_iff.mp h
        obtain ⟨hpos, hfits⟩ := bareOpen_within ho'
        rw [List.length_drop] at hfits
        exact ⟨hpos, by dsimp only; omega⟩
termination_by buf.length

theorem findFunctionOpen_within (h : findFunctionOpen buf = some o) : o.Within buf := by
  unfold findFunctionOpen at h
  split at h
  · rename_i hf hb
    split at h
    · cases h
      exact bareOpen_within hb
    · cases h
      exact canonicalOpen_within hf
  · rename_i hf _
    cases h
    exact canonicalOpen_within hf
  · exact bareOpen_within h

/-- A function that opens first is one that opens. -/
theorem functionFirst_open (h : functionFirst buf = some o) : findFunctionOpen buf = some o := by
  unfold functionFirst at h
  split at h
  · exact (Option.filter_eq_some_iff.mp h).1
  · exact h

theorem openFunction_descends {p : QwenCoderXmlParser} (h : o.Within p.buf) :
    rank (openFunction p o).2 < rank p := by
  obtain ⟨hpos, hfits⟩ := h
  apply rank_shorter
  rw [openFunction, List.length_drop]
  omega

theorem drop_descends {p p' : QwenCoderXmlParser} (hle : n ≤ p.buf.length) (hpos : 0 < n)
    (h : p'.buf = p.buf.drop n) : rank p' < rank p := by
  apply rank_shorter
  rw [h, List.length_drop]
  omega

theorem emitUpTo_descends {p : QwenCoderXmlParser} (hle : upto ≤ p.buf.length)
    (h : emitUpTo emit p upto = (es, p', true)) : rank p' < rank p := by
  unfold emitUpTo at h
  split at h
  · rename_i hpos
    cases h
    exact drop_descends hle hpos rfl
  · cases h

theorem ambiguousTailStart_le (s : Text) (tags : List Text) : ambiguousTailStart s tags ≤ s.length :=
  tailStart_le _ s

theorem pendingToolTailStart_le (buf : Text) : pendingToolTailStart buf ≤ buf.length :=
  Nat.le_trans (Nat.min_le_left _ _) (ambiguousTailStart_le buf _)

theorem earliest_pos {tags : List Text} (hne : ∀ t ∈ tags, t ≠ []) (h : earliest tags s = some (pos, tag)) :
    0 < tag.length := by
  obtain ⟨_, _, _, _, htag, _⟩ := earliest_some h
  exact List.length_pos_iff.mpr (hne tag htag)

theorem stepText_descends (h : stepText p fin = (es, p', true)) : rank p' < rank p := by
  unfold stepText at h
  split at h
  · rename_i o ho
    cases h
    exact openFunction_descends (findFunctionOpen_within (functionFirst_open ho))
  split at h
  · rename_i pos tag he
    have hpos := earliest_pos (by decide) he
    cases h
    exact drop_descends (earliest_le he) (by omega) rfl
  · apply emitUpTo_descends _ h
    split
    · exact Nat.le_refl _
    · exact pendingToolTailStart_le _

theorem stepInThink_descends (h : stepInThink p fin = (es, p', true)) : rank p' < rank p := by
  unfold stepInThink at h
  split at h
  · rename_i pos hf
    cases h
    exact drop_descends (find_le hf) (Nat.add_pos_right _ (by decide)) rfl
  · apply emitUpTo_descends _ h
    split
    · exact Nat.le_refl _
    · exact ambiguousTailStart_le _ _

theorem stepInToolCall_descends (h : stepInToolCall p = (es, p', true)) : rank p' < rank p := by
  unfold stepInToolCall at h
  split at h
  · rename_i o ho
    cases h
    exact openFunction_descends (findFunctionOpen_within ho)
  · cases h

theorem parameterTag_shorter (hfront : parameterOpen.length ≤ buf.length) (h : parameterTag buf = some (key, rest)) :
    rest.length < buf.length := by
  obtain ⟨gt, _, heq⟩ := Option.map_eq_some_iff.mp h
  cases heq
  rw [List.length_drop, List.length_drop]
  have hlen : 0 < parameterOpen.length := by decide
  omega

theorem stepInFunctionBody_descends (h : stepInFunctionBody serde p = (es, p', true)) : rank p' < rank p := by
  unfold stepInFunctionBody at h
  split at h
  · cases h
  rename_i pos tag he
  have hle := earliest_le he
  obtain ⟨_, _, _, _, htag, _⟩ := earliest_some he
  dsimp only at h
  split at h
  · rename_i hparam
    rw [hparam] at hle
    split at h
    · cases h
    · rename_i key rest htag
      cases h
      have hlt := parameterTag_shorter (by rw [List.length_drop]; omega) htag
      rw [List.length_drop] at hlt
      exact rank_shorter (by dsimp only; omega)
  · rename_i hne
    simp only [List.mem_cons, List.not_mem_nil, or_false] at htag
    have hclose := htag.resolve_right hne
    cases h
    rw [hclose] at hle
    exact drop_descends hle (Nat.add_pos_right _ (by decide)) (List.drop_drop ..)

theorem stepInParameterBody_descends (h : stepInParameterBody p = (es, p', true)) : rank p' < rank p := by
  unfold stepInParameterBody at h
  split at h
  · cases h
  · rename_i pos hf
    cases h
    exact drop_descends (find_le hf) (Nat.add_pos_right _ (by decide)) rfl

theorem stepAwaitingClose_descends (hs : p.state = .awaitingToolCallClose)
    (h : stepAwaitingClose p = (es, p', true)) : rank p' < rank p := by
  unfold stepAwaitingClose at h
  split at h
  · cases h
  rename_i pos tag he
  have hle := earliest_le he
  have hpos := earliest_pos (by decide) he
  dsimp only at h
  split at h
  · rename_i hclose
    rw [hclose] at hle
    cases h
    exact drop_descends hle (Nat.add_pos_right _ (by decide)) rfl
  split at h
  · cases h
    simp only [rank, hs, List.length_drop, reduceCtorEq, if_false, if_true]
    omega
  split at h
  · cases h
  · cases h
    simp only [rank, hs, List.length_drop, reduceCtorEq, if_false, if_true]
    omega

theorem step_descends (serde : SerdeJson) (h : step serde fin p = (es, p', true)) : rank p' < rank p := by
  unfold step at h
  split at h
  · exact stepText_descends h
  · exact stepInThink_descends h
  · exact stepInToolCall_descends h
  · exact stepInFunctionBody_descends h
  · exact stepInParameterBody_descends h
  · rename_i hs
    exact stepAwaitingClose_descends hs h

/-- `QwenCoderXmlParser` as a push parser. No step of it panics. -/
def machine (serde : SerdeJson) : Machine Char ParserEvent QwenCoderXmlParser where
  feed p chunk := { p with buf := p.buf ++ chunk }
  step fin p := some (step serde fin p)
  flush := flush
  rank := rank
  descends h := step_descends serde (Option.some.inj h)
  feed_feed := by simp

end Flambeau.Server.ToolCallParser.QwenCoder
