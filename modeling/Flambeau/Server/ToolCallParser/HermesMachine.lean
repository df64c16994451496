import Flambeau.Stream.Prose
import Flambeau.Server.ToolCallParser.Hermes

namespace Flambeau.Server.ToolCallParser.Hermes
open Flambeau.Stream

theorem textOpen_markers : Markers '<' textOpenTags := ⟨by decide, by decide⟩

theorem thinkClose_markers : Markers '<' [thinkClose] := ⟨by decide, by decide⟩

theorem toolClose_markers : Markers '<' [toolClose] := ⟨by decide, by decide⟩

/-! Progress. -/

/-- Awaiting the close tag, the parser may fall back to text once and keep its
buffer. -/
def rank (p : HermesJsonParser) : Nat :=
  2 * p.buf.length + if p.state = .awaitingToolClose then 1 else 0

theorem rank_shorter {p p' : HermesJsonParser} (h : p'.buf.length < p.buf.length) :
    rank p' < rank p := by
  unfold rank
  split <;> split <;> omega

theorem emitBuffered_descends (h : emitBuffered emit tags p fin = some (es, p', true)) :
    rank p' < rank p := by
  unfold emitBuffered at h
  obtain ⟨n, _, h⟩ := Option.bind_eq_some_iff.mp h
  simp only at h
  split at h
  · rename_i hpos
    obtain ⟨⟨a, b⟩, hr, heq⟩ := Option.map_eq_some_iff.mp h
    cases heq
    exact rank_shorter (splitByte_length hr hpos)
  · cases h

theorem tag_descends {p p' : HermesJsonParser} {tag : Text} (hle : pos + tag.length ≤ p.buf.length)
    (hne : 0 < tag.length) (h : p'.buf = p.buf.drop (pos + tag.length)) : rank p' < rank p := by
  apply rank_shorter
  rw [h, List.length_drop]
  omega

theorem textOpen_length (h : tag ∈ textOpenTags) : 0 < tag.length := by
  simp only [textOpenTags, List.mem_cons, List.not_mem_nil, or_false] at h
  rcases h with rfl | rfl <;> decide

theorem stepText_descends (h : stepText p fin = some (es, p', true)) : rank p' < rank p := by
  unfold stepText at h
  split at h
  · rename_i pos tag he
    obtain ⟨_, _, _, _, htag, _⟩ := earliest_some he
    cases h
    exact tag_descends (earliest_le he) (textOpen_length htag) rfl
  · exact emitBuffered_descends h

theorem stepInThink_descends (h : stepInThink p fin = some (es, p', true)) : rank p' < rank p := by
  unfold stepInThink at h
  split at h
  · rename_i pos hf
    cases h
    exact tag_descends (find_le hf) (by decide) rfl
  · exact emitBuffered_descends h

theorem objectEnd_lt (h : objectEnd depth inStr escaped s = some stop) : stop < s.length := by
  induction s generalizing depth inStr escaped stop with
  | nil => cases h
  | cons c s ih =>
    unfold objectEnd at h
    split at h
    · cases h
      simp
    · obtain ⟨k, hk, rfl⟩ := Option.map_eq_some_iff.mp h
      have hlt := ih hk
      rw [List.length_cons]
      omega

theorem jsonObjectSpan_lt (h : jsonObjectSpan s = some (start, stop)) : stop < s.length := by
  unfold jsonObjectSpan at h
  obtain ⟨k, hk, h⟩ := Option.bind_eq_some_iff.mp h
  obtain ⟨e, he, heq⟩ := Option.map_eq_some_iff.mp h
  cases heq
  have hlt := objectEnd_lt he
  have hle := find_le hk
  rw [List.length_drop] at hlt
  omega

theorem trim_nil : trim [] = [] := rfl

theorem stepInTool_descends (h : stepInTool serde p fin = some (es, p', true)) :
    rank p' < rank p := by
  unfold stepInTool at h
  split at h
  · rename_i start stop hspan
    have hlt := jsonObjectSpan_lt hspan
    cases h
    apply rank_shorter
    rw [List.length_drop]
    omega
  · split at h
    · rename_i hleak
      cases h
      apply rank_shorter
      rw [List.length_nil]
      apply List.length_pos_iff.mpr
      intro hnil
      rw [hnil, trim_nil] at hleak
      simp at hleak
    · cases h

theorem trimStart_length (s : Text) : (trimStart s).length ≤ s.length :=
  (List.dropWhile_suffix isWhitespace).length_le

theorem stepAwaitingClose_descends (hs : p.state = .awaitingToolClose)
    (h : stepAwaitingClose p fin = (es, p', true)) : rank p' < rank p := by
  unfold stepAwaitingClose at h
  simp only at h
  split at h
  · rename_i rel hf
    have hle := find_le hf
    have htrim := trimStart_length p.buf
    cases h
    have hfits : p.buf.length - (trimStart p.buf).length + rel + toolClose.length ≤ p.buf.length := by
      omega
    exact tag_descends hfits (by decide) rfl
  · split at h
    · cases h
    · split at h
      · cases h
      · cases h
        simp [rank, hs]

theorem step_descends (serde : SerdeJson) (h : step serde fin p = some (es, p', true)) :
    rank p' < rank p := by
  unfold step at h
  split at h
  · exact stepText_descends h
  · exact stepInThink_descends h
  · exact stepInTool_descends h
  · rename_i hs
    exact stepAwaitingClose_descends hs (Option.some.inj h)

/-- `HermesJsonParser` as a push parser. -/
def machine (serde : SerdeJson) : Machine Char ParserEvent HermesJsonParser where
  feed p chunk := { p with buf := p.buf ++ chunk }
  step := step serde
  flush := flush
  rank := rank
  descends := step_descends serde
  feed_feed := by simp

/-! What is given out of ASCII text. -/

theorem any_opensTag {tags : List Text} (hnone : tagHere tags tail = none) :
    (tags.any fun t => tail.isPrefixOf t) = opensTag tags tail := by
  have hneq := tagHere_none.mp hnone
  rw [Bool.eq_iff_iff, opensTag_iff]
  simp only [List.any_eq_true, List.isPrefixOf_iff_prefix]
  constructor
  · intro h
    obtain ⟨t, ht, hp⟩ := h
    refine ⟨t, ht, ?_, hp⟩
    apply Nat.lt_of_le_of_ne hp.length_le
    intro hlen
    have heq := hp.eq_of_length hlen
    subst heq
    exact hneq tail ht (List.prefix_refl tail)
  · intro h
    obtain ⟨t, ht, _, hp⟩ := h
    exact ⟨t, ht, hp⟩

theorem firstCut_ascii (hbuf : IsAscii buf) (hnone : scan (tagHere tags) buf = none)
    (hlo : lo + k = buf.length) :
    ambiguousTailStart.firstCut buf tags (List.range' lo k) =
      some (lo + tailStart (opensTag tags) (buf.drop lo)) := by
  induction k generalizing lo with
  | zero =>
    have hdrop : buf.drop lo = [] := List.drop_eq_nil_of_le (by omega)
    rw [List.range'_zero, ambiguousTailStart.firstCut, byteLen_ascii hbuf, hdrop]
    simp only [tailStart, Nat.add_zero, Option.some.injEq]
    omega
  | succ k ih =>
    have hlt : lo < buf.length := by omega
    have hcons := List.drop_eq_getElem_cons hlt
    have hhere : tagHere tags (buf.drop lo) = none :=
      scan_none.mp hnone _ (List.drop_suffix lo buf)
    rw [List.range'_succ, ambiguousTailStart.firstCut, splitByte_ascii hbuf (by omega),
      Option.bind_some]
    simp only [any_opensTag hhere]
    rw [hcons, tailStart]
    split
    · simp
    · have hnext := @ih (lo + 1) (by omega)
      rw [hnext]
      simp only [Option.some.injEq]
      omega

theorem ambiguousTailStart_ascii (hbuf : IsAscii buf) (hnone : scan (tagHere tags) buf = none)
    (htags : ∀ t ∈ tags, t.length ≤ (tags.map byteLen).foldl max 0) :
    ambiguousTailStart buf tags = some (tailStart (opensTag tags) buf) := by
  unfold ambiguousTailStart
  simp only [byteLen_ascii hbuf]
  generalize hlo : buf.length - ((tags.map byteLen).foldl max 0 - 1) = lo
  have hsum : lo + (buf.length - lo) = buf.length := by omega
  rw [firstCut_ascii hbuf hnone hsum]
  have hshort : ∀ w, w <:+ buf.take lo → w ≠ [] → opensTag tags (w ++ buf.drop lo) = false := by
    intro w hw hne
    cases hopen : opensTag tags (w ++ buf.drop lo) with
    | false => rfl
    | true =>
      obtain ⟨t, ht, hlen, _⟩ := opensTag_iff.mp hopen
      have hmax := htags t ht
      have hpos := List.length_pos_iff.mpr hne
      have hwle := hw.length_le
      rw [List.length_append, List.length_drop] at hlen
      rw [List.length_take] at hwle
      omega
  have hskip := tailStart_skip _ _ hshort
  rw [List.take_append_drop, List.length_take] at hskip
  rw [hskip, Nat.min_eq_left (by omega)]

/-- What `emit_upto` comes to in ASCII text. -/
theorem emitBuffered_ascii {p : HermesJsonParser} (hempty : emit [] = []) (hbuf : IsAscii p.buf)
    (hnone : scan (tagHere tags) p.buf = none)
    (htags : ∀ t ∈ tags, t.length ≤ (tags.map byteLen).foldl max 0) :
    emitBuffered emit tags p false =
      some (emit (p.buf.take (tailStart (opensTag tags) p.buf)),
        { p with buf := p.buf.drop (tailStart (opensTag tags) p.buf) },
        decide (0 < tailStart (opensTag tags) p.buf)) := by
  have hle := tailStart_le (opensTag tags) p.buf
  unfold emitBuffered
  rw [ambiguousTailStart_ascii hbuf hnone htags]
  simp only [Bool.false_eq_true, if_false, Option.bind_some, floorCharBoundary_ascii hbuf hle]
  by_cases hpos : 0 < tailStart (opensTag tags) p.buf
  · rw [if_pos hpos, splitByte_ascii hbuf hle, decide_eq_true hpos]
    rfl
  · have hzero : tailStart (opensTag tags) p.buf = 0 := by omega
    rw [if_neg hpos, decide_eq_false hpos, hzero, List.take_zero, List.drop_zero, hempty]

/-- At the end of the input everything is given out. -/
theorem emitBuffered_finish {p : HermesJsonParser} (hempty : emit [] = []) :
    emitBuffered emit tags p true =
      some (emit p.buf, { p with buf := [] }, decide (p.buf ≠ [])) := by
  unfold emitBuffered
  simp only [if_true, Option.bind_some]
  rw [floorCharBoundary, if_pos (Nat.le_refl _)]
  by_cases hbuf : p.buf = []
  · rw [hbuf, if_neg (by simp [byteLen]), hempty]
    simp [← hbuf]
  · rw [if_pos (byteLen_pos hbuf), splitByte_all, decide_eq_true hbuf]
    rfl

end Flambeau.Server.ToolCallParser.Hermes
