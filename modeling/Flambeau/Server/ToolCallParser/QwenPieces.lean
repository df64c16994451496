import Flambeau.Server.ToolCallParser.QwenUnclosed
import Flambeau.Server.ToolCallParser.Pieces

namespace Flambeau.Server.ToolCallParser.QwenCoder
open Flambeau.Stream Flambeau.Stream.Machine

/-- What the steps take off the buffer. -/
def pieces (p p' : QwenCoderXmlParser) : List Piece :=
  match p.state with
  | .text =>
    match functionFirst p.buf with
    | some o => [⟨.text, p.buf.take o.start⟩, ⟨.callHeader, (p.buf.drop o.start).take o.tagLen⟩]
    | none =>
      match earliest textStateOpenTags p.buf with
      | some (pos, tag) => [⟨.text, p.buf.take pos⟩, ⟨.marker, tag⟩]
      | none => [⟨.text, taken p.buf p'.buf⟩]
  | .inThink =>
    match find thinkClose p.buf with
    | some pos => [⟨.think, p.buf.take pos⟩, ⟨.marker, thinkClose⟩]
    | none => [⟨.think, taken p.buf p'.buf⟩]
  | .inToolCall =>
    match findFunctionOpen p.buf with
    | some o => [gap (p.buf.take o.start), ⟨.callHeader, (p.buf.drop o.start).take o.tagLen⟩]
    | none => []
  | .inFunctionBody =>
    match earliest [functionClose, parameterOpen] p.buf with
    | some (pos, _) => [gap (p.buf.take pos), ⟨.marker, taken (p.buf.drop pos) p'.buf⟩]
    | none => []
  | .inParameterBody =>
    match find parameterClose p.buf with
    | some pos => [⟨.callBody, p.buf.take pos⟩, ⟨.marker, parameterClose⟩]
    | none => []
  | .awaitingToolCallClose =>
    match earliest [toolClose, functionOpen, parameterOpen] p.buf with
    | some (pos, _) => [gap (p.buf.take pos), ⟨.marker, taken (p.buf.drop pos) p'.buf⟩]
    | none => []

/-- The newline in front of what is flushed is the template's. -/
def flushed (p : QwenCoderXmlParser) : List Piece :=
  if p.buf.head? = some '\n' then [gap ['\n'], ⟨.text, p.buf.tail⟩] else [⟨.text, p.buf⟩]

def account : Account QwenCoderXmlParser Piece := ⟨pieces, flushed⟩

/-- Only white space stands between the tags of a call. -/
def Tidy (p : QwenCoderXmlParser) : Prop :=
  match p.state with
  | .text | .inThink | .inParameterBody => True
  | .inToolCall => ∀ o, findFunctionOpen p.buf = some o → (p.buf.take o.start).all isWhitespace = true
  | .inFunctionBody => ∀ pos tag, earliest [functionClose, parameterOpen] p.buf = some (pos, tag) →
      (p.buf.take pos).all isWhitespace = true
  | .awaitingToolCallClose =>
    ∀ pos tag, earliest [toolClose, functionOpen, parameterOpen] p.buf = some (pos, tag) →
      (p.buf.take pos).all isWhitespace = true

/-- What a step takes is in its pieces, and what they owe is given out if the step is tidy. -/
def Accounted (p : QwenCoderXmlParser) (es : List ParserEvent) (p' : QwenCoderXmlParser) : Prop :=
  p.buf = (pieces p p').flatMap Piece.part ++ p'.buf ∧ (Given ⟨es, pieces p p'⟩ ↔ Tidy p)

theorem emitUpTo_takes {p : QwenCoderXmlParser} (hempty : emit [] = []) (h : emitUpTo emit p upto = (es, p', b)) :
    ∃ a, p.buf = a ++ p'.buf ∧ es = emit a := by
  unfold emitUpTo at h
  split at h
  · cases h
    exact ⟨_, (List.take_append_drop ..).symm, rfl⟩
  · cases h
    exact ⟨[], rfl, hempty.symm⟩

/-- In front of an opening tag, the tag and behind it. -/
theorem open_parts (o : FunctionOpen) (buf : Text) :
    buf.take o.start ++ ((buf.drop o.start).take o.tagLen ++ buf.drop (o.start + o.tagLen)) = buf := by
  rw [← List.drop_drop, List.take_append_drop, List.take_append_drop]

/-- In front of a tag, and what is taken and left from there. -/
theorem gap_parts (s : Text) (pos n : Nat) :
    s.take pos ++ (taken (s.drop pos) ((s.drop pos).drop n) ++ (s.drop pos).drop n) = s := by
  rw [taken_drop, List.take_append_drop]

theorem stepText_accounted (hs : p.state = .text) (h : stepText p fin = (es, p', b)) : Accounted p es p' := by
  have htidy : Tidy p := by
    unfold Tidy
    rw [hs]
    trivial
  unfold Accounted pieces
  rw [hs, iff_true_right htidy]
  unfold stepText at h
  cases ho : functionFirst p.buf with
  | some o =>
    rw [ho] at h
    cases h
    refine ⟨?_, ?_⟩
    · simp only [List.flatMap_cons, List.flatMap_nil, List.append_nil, List.append_assoc]
      exact (open_parts o p.buf).symm
    · simp [Given, Piece.owed, openFunction, shown]
  | none =>
    rw [ho] at h
    dsimp only at h ⊢
    cases he : earliest textStateOpenTags p.buf with
    | some r =>
      rw [he] at h
      cases h
      refine ⟨?_, ?_⟩
      · simp only [List.flatMap_cons, List.flatMap_nil, List.append_nil, List.append_assoc]
        exact (earliest_parts he).symm
      · simp [Given, Piece.owed]
    | none =>
      rw [he] at h
      obtain ⟨a, hbuf, rfl⟩ := emitUpTo_takes rfl h
      rw [hbuf, taken_append]
      exact ⟨by simp, by simp [Given, Piece.owed]⟩

theorem stepInThink_accounted (hs : p.state = .inThink) (h : stepInThink p fin = (es, p', b)) :
    Accounted p es p' := by
  have htidy : Tidy p := by
    unfold Tidy
    rw [hs]
    trivial
  unfold Accounted pieces
  rw [hs, iff_true_right htidy]
  unfold stepInThink at h
  cases he : find thinkClose p.buf with
  | some pos =>
    rw [he] at h
    cases h
    refine ⟨?_, ?_⟩
    · simp only [List.flatMap_cons, List.flatMap_nil, List.append_nil, List.append_assoc]
      exact (find_parts he).symm
    · simp [Given, Piece.owed]
  | none =>
    rw [he] at h
    obtain ⟨a, hbuf, rfl⟩ := emitUpTo_takes rfl h
    rw [hbuf, taken_append]
    exact ⟨by simp, by simp [Given, Piece.owed]⟩

theorem stepInToolCall_accounted (hs : p.state = .inToolCall) (h : stepInToolCall p = (es, p', b)) :
    Accounted p es p' := by
  unfold Accounted pieces Tidy
  rw [hs]
  dsimp only
  unfold stepInToolCall at h
  cases ho : findFunctionOpen p.buf with
  | some o =>
    rw [ho] at h
    cases h
    refine ⟨?_, ?_⟩
    · simp only [List.flatMap_cons, List.flatMap_nil, List.append_nil, List.append_assoc]
      exact (open_parts o p.buf).symm
    · rw [given_gap rfl rfl]
      simp
  | none =>
    rw [ho] at h
    cases h
    exact ⟨rfl, iff_of_true (List.Sublist.refl _) nofun⟩

theorem stepInFunctionBody_accounted (hs : p.state = .inFunctionBody)
    (h : stepInFunctionBody serde p = (es, p', b)) : Accounted p es p' := by
  unfold Accounted pieces Tidy
  rw [hs]
  dsimp only
  unfold stepInFunctionBody at h
  cases he : earliest [functionClose, parameterOpen] p.buf with
  | none =>
    rw [he] at h
    cases h
    exact ⟨rfl, iff_of_true (List.Sublist.refl _) nofun⟩
  | some r =>
    obtain ⟨pos, tag⟩ := r
    rw [he] at h
    dsimp only at h ⊢
    have hdrop : (∃ n, p'.buf = (p.buf.drop pos).drop n) ∧ es.flatMap shown = [] := by
      split at h
      · split at h
        · cases h
          exact ⟨⟨0, rfl⟩, rfl⟩
        · rename_i key rest htag
          obtain ⟨gt, -, heq⟩ := Option.map_eq_some_iff.mp htag
          cases heq
          cases h
          exact ⟨⟨_, List.drop_drop ..⟩, rfl⟩
      · cases h
        exact ⟨⟨_, rfl⟩, rfl⟩
    obtain ⟨⟨n, hn⟩, hshown⟩ := hdrop
    refine ⟨?_, ?_⟩
    · rw [hn]
      simp only [List.flatMap_cons, List.flatMap_nil, List.append_nil, List.append_assoc]
      exact (gap_parts p.buf pos n).symm
    · rw [given_gap hshown rfl]
      simp

theorem stepInParameterBody_accounted (hs : p.state = .inParameterBody)
    (h : stepInParameterBody p = (es, p', b)) : Accounted p es p' := by
  have htidy : Tidy p := by
    unfold Tidy
    rw [hs]
    trivial
  unfold Accounted pieces
  rw [hs, iff_true_right htidy]
  unfold stepInParameterBody at h
  cases he : find parameterClose p.buf with
  | none =>
    rw [he] at h
    cases h
    exact ⟨rfl, List.Sublist.refl _⟩
  | some pos =>
    rw [he] at h
    cases h
    refine ⟨?_, List.Sublist.refl _⟩
    simp only [List.flatMap_cons, List.flatMap_nil, List.append_nil, List.append_assoc]
    exact (find_parts he).symm

theorem stepAwaitingClose_accounted (hs : p.state = .awaitingToolCallClose)
    (h : stepAwaitingClose p = (es, p', b)) : Accounted p es p' := by
  unfold Accounted pieces Tidy
  rw [hs]
  dsimp only
  unfold stepAwaitingClose at h
  cases he : earliest [toolClose, functionOpen, parameterOpen] p.buf with
  | none =>
    rw [he] at h
    cases h
    exact ⟨rfl, iff_of_true (List.Sublist.refl _) nofun⟩
  | some r =>
    obtain ⟨pos, tag⟩ := r
    rw [he] at h
    dsimp only at h ⊢
    have hdrop : (∃ n, p'.buf = (p.buf.drop pos).drop n) ∧ es.flatMap shown = [] := by
      split at h
      · cases h
        exact ⟨⟨_, (List.drop_drop ..).symm⟩, rfl⟩
      split at h
      · cases h
        exact ⟨⟨0, rfl⟩, rfl⟩
      split at h
      · cases h
        exact ⟨⟨0, rfl⟩, rfl⟩
      · cases h
        exact ⟨⟨0, rfl⟩, rfl⟩
    obtain ⟨⟨n, hn⟩, hshown⟩ := hdrop
    refine ⟨?_, ?_⟩
    · rw [hn]
      simp only [List.flatMap_cons, List.flatMap_nil, List.append_nil, List.append_assoc]
      exact (gap_parts p.buf pos n).symm
    · rw [given_gap hshown rfl]
      simp

theorem step_accounted (h : step serde fin p = (es, p', b)) : Accounted p es p' := by
  unfold step at h
  split at h
  · rename_i hs
    exact stepText_accounted hs h
  · rename_i hs
    exact stepInThink_accounted hs h
  · rename_i hs
    exact stepInToolCall_accounted hs h
  · rename_i hs
    exact stepInFunctionBody_accounted hs h
  · rename_i hs
    exact stepInParameterBody_accounted hs h
  · rename_i hs
    exact stepAwaitingClose_accounted hs h

/-- Text again, with nothing held. -/
def Clean (p : QwenCoderXmlParser) : Prop := p.state = .text ∧ p.buf = []

/-- The flush keeps the state. -/
def EndsClean (p : QwenCoderXmlParser) : Prop := p.state = .text

theorem flush_accounted (p : QwenCoderXmlParser) :
    p.buf = (account.flush p).flatMap Piece.part ++ (flush p).2.buf ∧
      (Given ⟨(flush p).1, account.flush p⟩ ∧ Clean (flush p).2 ↔ EndsClean p) := by
  unfold flush account flushed Clean EndsClean
  split
  · rename_i hempty
    rw [List.isEmpty_iff] at hempty
    simp [hempty, Given, Piece.owed]
  · by_cases hline : p.buf.head? = some '\n'
    · obtain ⟨rest, hrest⟩ := List.head?_eq_some_iff.mp hline
      have howed : ([gap ['\n'], ⟨.text, rest⟩] : List Piece).flatMap Piece.owed = rest := by
        rw [List.flatMap_cons, (gap_owed _).mpr (by decide)]
        exact List.append_nil rest
      dsimp only
      rw [if_pos hline, if_pos hline, hrest]
      refine ⟨by simp [gap], ?_⟩
      unfold Given
      dsimp only [List.tail_cons]
      rw [howed, shown_emitText]
      simp
    · dsimp only
      rw [if_neg hline, if_neg hline]
      refine ⟨by simp, ?_⟩
      simp [Given, Piece.owed]

theorem conserves (serde : SerdeJson) : Conserves (machine serde) account QwenCoderXmlParser.buf Piece.part where
  feed := rfl
  step h := (step_accounted (Option.some.inj h)).1
  flush p := (flush_accounted p).1

theorem finish_silent (serde : SerdeJson) {q : QwenCoderXmlParser} (h : Clean q) :
    (machine serde).finish q = some ([], q) := by
  obtain ⟨hs, hbuf⟩ := h
  have hstep : (machine serde).step true q = some ([], q, false) := by
    change some (step serde true q) = _
    unfold step stepText
    rw [hs, hbuf, functionFirst_nil]
    rfl
  unfold finish
  rw [drain_stop hstep, Option.map_some]
  simp [machine, flush, hbuf]

theorem settled {serde : SerdeJson} (h : ((machine serde).logged account).run p chunks = some (log, q)) :
    Settled (machine serde) Clean log q ↔ Throughout (machine serde) Tidy EndsClean p chunks := by
  rw [settled_iff (fun q => finish_silent serde)]
  exact run_given (fun _ _ _ _ _ hs => (step_accounted (Option.some.inj hs)).2)
    (fun p => (flush_accounted p).2) h

end Flambeau.Server.ToolCallParser.QwenCoder
