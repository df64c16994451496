import Flambeau.Server.ToolCallParser.HermesMachine
import Flambeau.Server.ToolCallParser.Pieces

namespace Flambeau.Server.ToolCallParser.Hermes
open Flambeau.Stream Flambeau.Stream.Machine

/-- What the steps take off the buffer. -/
def pieces (p p' : HermesJsonParser) : List Piece :=
  match p.state with
  | .text =>
    match earliest textOpenTags p.buf with
    | some (pos, tag) => [⟨.text, p.buf.take pos⟩, ⟨.marker, tag⟩]
    | none => [⟨.text, taken p.buf p'.buf⟩]
  | .inThink =>
    match find thinkClose p.buf with
    | some pos => [⟨.think, p.buf.take pos⟩, ⟨.marker, thinkClose⟩]
    | none => [⟨.think, taken p.buf p'.buf⟩]
  | .inTool =>
    match jsonObjectSpan p.buf with
    | some (start, stop) => [gap (p.buf.take start), ⟨.callBody, (p.buf.take (stop + 1)).drop start⟩]
    | none => [⟨.text, taken p.buf p'.buf⟩]
  | .awaitingToolClose =>
    match find toolClose (trimStart p.buf) with
    | some rel => [gap (p.buf.take (p.buf.length - (trimStart p.buf).length + rel)), ⟨.marker, toolClose⟩]
    | none => [gap (taken p.buf p'.buf)]

def account : Account HermesJsonParser Piece := ⟨pieces, fun p => [⟨.text, p.buf⟩]⟩

/-- Only white space stands in front of a call's object, and between it and the close tag. -/
def Tidy (p : HermesJsonParser) : Prop :=
  match p.state with
  | .text | .inThink => True
  | .inTool => ∀ start stop, jsonObjectSpan p.buf = some (start, stop) → (p.buf.take start).all isWhitespace = true
  | .awaitingToolClose => ∀ rel, find toolClose (trimStart p.buf) = some rel →
      (p.buf.take (p.buf.length - (trimStart p.buf).length + rel)).all isWhitespace = true

/-- What a step takes is in its pieces, and what they owe is given out if the step is tidy. -/
def Accounted (p : HermesJsonParser) (es : List ParserEvent) (p' : HermesJsonParser) : Prop :=
  p.buf = (pieces p p').flatMap Piece.part ++ p'.buf ∧ (Given ⟨es, pieces p p'⟩ ↔ Tidy p)

theorem emitBuffered_takes {p : HermesJsonParser} (hempty : emit [] = [])
    (h : emitBuffered emit tags p fin = some (es, p', b)) : ∃ a, p.buf = a ++ p'.buf ∧ es = emit a := by
  unfold emitBuffered at h
  obtain ⟨n, -, h⟩ := Option.bind_eq_some_iff.mp h
  dsimp only at h
  split at h
  · obtain ⟨r, hr, heq⟩ := Option.map_eq_some_iff.mp h
    cases heq
    exact ⟨r.1, (splitByte_append hr).1.symm, rfl⟩
  · cases h
    exact ⟨[], rfl, hempty.symm⟩

theorem stepText_accounted (hs : p.state = .text) (h : stepText p fin = some (es, p', b)) : Accounted p es p' := by
  have htidy : Tidy p := by
    unfold Tidy
    rw [hs]
    trivial
  unfold Accounted pieces
  rw [hs, iff_true_right htidy]
  unfold stepText at h
  cases he : earliest textOpenTags p.buf with
  | some r =>
    rw [he] at h
    cases h
    refine ⟨?_, ?_⟩
    · simp only [List.flatMap_cons, List.flatMap_nil, List.append_nil, List.append_assoc]
      exact (earliest_parts he).symm
    · simp [Given, Piece.owed]
  | none =>
    rw [he] at h
    obtain ⟨a, hbuf, rfl⟩ := emitBuffered_takes rfl h
    rw [hbuf, taken_append]
    exact ⟨by simp, by simp [Given, Piece.owed]⟩

theorem stepInThink_accounted (hs : p.state = .inThink) (h : stepInThink p fin = some (es, p', b)) :
    Accounted p es p' := by
  have htidy : Tidy p := by
    unfold Tidy
    rw [hs]
    trivial
  unfold Accounted pieces
  rw [hs, iff_true_right htidy]
  unfold stepInThink at h
  cases he : find thinkClose p.buf with
  | some pos =>
    rw [he] at h
    cases h
    refine ⟨?_, ?_⟩
    · simp only [List.flatMap_cons, List.flatMap_nil, List.append_nil, List.append_assoc]
      exact (find_parts he).symm
    · simp [Given, Piece.owed]
  | none =>
    rw [he] at h
    obtain ⟨a, hbuf, rfl⟩ := emitBuffered_takes rfl h
    rw [hbuf, taken_append]
    exact ⟨by simp, by simp [Given, Piece.owed]⟩

theorem stepInTool_accounted (hs : p.state = .inTool) (h : stepInTool serde p fin = some (es, p', b)) :
    Accounted p es p' := by
  unfold Accounted pieces Tidy
  rw [hs]
  dsimp only
  unfold stepInTool at h
  cases he : jsonObjectSpan p.buf with
  | some r =>
    obtain ⟨start, stop⟩ := r
    rw [he] at h
    cases h
    have hle : start ≤ stop + 1 := by
      obtain ⟨k, -, hk⟩ := Option.bind_eq_some_iff.mp he
      obtain ⟨e, -, heq⟩ := Option.map_eq_some_iff.mp hk
      cases heq
      omega
    refine ⟨?_, ?_⟩
    · have hfront : p.buf.take start = (p.buf.take (stop + 1)).take start := by
        rw [List.take_take, Nat.min_eq_left hle]
      simp only [List.flatMap_cons, List.flatMap_nil, List.append_nil]
      rw [show (gap (p.buf.take start)).part = p.buf.take start from rfl, hfront, List.take_append_drop,
        List.take_append_drop]
    · rw [given_gap rfl rfl]
      simp
  | none =>
    rw [he] at h
    dsimp only at h
    split at h
    · cases h
      have htaken : taken p.buf [] = p.buf := by simp [taken]
      rw [htaken]
      refine ⟨by simp, iff_of_true ?_ nofun⟩
      simp [Given, Piece.owed]
    · cases h
      refine ⟨by simp [taken], iff_of_true ?_ nofun⟩
      simp [Given, Piece.owed, taken]

/-- The white space in front, and the text behind it. -/
theorem trimStart_parts (s : Text) : ∃ w, s = w ++ trimStart s ∧ w.all isWhitespace = true :=
  ⟨s.takeWhile isWhitespace, List.takeWhile_append_dropWhile.symm, List.all_takeWhile⟩

theorem trimStart_blank (h : (trimStart s).isEmpty = true) : s.all isWhitespace = true := by
  obtain ⟨w, hs, hw⟩ := trimStart_parts s
  rw [List.isEmpty_iff.mp h, List.append_nil] at hs
  rw [hs]
  exact hw

theorem trimmed_parts (h : find pat (trimStart s) = some rel) :
    s.take (s.length - (trimStart s).length + rel) ++
      (pat ++ s.drop (s.length - (trimStart s).length + rel + pat.length)) = s := by
  obtain ⟨w, hs, -⟩ := trimStart_parts s
  have hlen : s.length - (trimStart s).length = w.length := by
    have hsum := congrArg List.length hs
    rw [List.length_append] at hsum
    omega
  rw [hlen]
  generalize trimStart s = t at h hs
  rw [hs, Nat.add_assoc, List.take_length_add_append, List.drop_length_add_append, List.append_assoc, find_parts h]

theorem stepAwaitingClose_accounted (hs : p.state = .awaitingToolClose)
    (h : stepAwaitingClose p fin = (es, p', b)) : Accounted p es p' := by
  unfold Accounted pieces Tidy
  rw [hs]
  dsimp only
  unfold stepAwaitingClose at h
  dsimp only at h
  cases he : find toolClose (trimStart p.buf) with
  | some rel =>
    rw [he] at h
    cases h
    refine ⟨?_, ?_⟩
    · simp only [List.flatMap_cons, List.flatMap_nil, List.append_nil, List.append_assoc]
      exact (trimmed_parts he).symm
    · rw [given_gap rfl rfl]
      simp
  | none =>
    rw [he] at h
    dsimp only at h
    split at h
    · cases h
      refine ⟨by simp [taken, gap], iff_of_true ?_ (fun _ h => by cases h)⟩
      rw [given_gap rfl rfl]
      simp [taken]
    split at h
    · rename_i hblank
      cases h
      have htaken : taken p.buf [] = p.buf := by simp [taken]
      rw [htaken]
      refine ⟨by simp [gap], iff_of_true ?_ (fun _ h => by cases h)⟩
      rw [given_gap rfl rfl]
      exact trimStart_blank hblank
    · cases h
      refine ⟨by simp [taken, gap], iff_of_true ?_ (fun _ h => by cases h)⟩
      rw [given_gap rfl rfl]
      simp [taken]

theorem step_accounted (h : step serde fin p = some (es, p', b)) : Accounted p es p' := by
  unfold step at h
  split at h
  · rename_i hs
    exact stepText_accounted hs h
  · rename_i hs
    exact stepInThink_accounted hs h
  · rename_i hs
    exact stepInTool_accounted hs h
  · rename_i hs
    exact stepAwaitingClose_accounted hs (Option.some.inj h)

/-- Text again, with nothing held. -/
def Clean (p : HermesJsonParser) : Prop := p.state = .text ∧ p.buf = []

/-- The flush goes back to text only where something is left to give out. -/
def EndsClean (p : HermesJsonParser) : Prop := p.state = .text ∨ p.buf ≠ []

theorem flush_accounted (p : HermesJsonParser) :
    p.buf = (account.flush p).flatMap Piece.part ++ (flush p).2.buf ∧
      (Given ⟨(flush p).1, account.flush p⟩ ∧ Clean (flush p).2 ↔ EndsClean p) := by
  unfold flush account Clean EndsClean
  split
  · rename_i hempty
    rw [List.isEmpty_iff] at hempty
    simp [hempty, Given, Piece.owed]
  · rename_i hne
    have hbuf : p.buf ≠ [] := fun hnil => hne (List.isEmpty_iff.mpr hnil)
    refine ⟨by simp, iff_of_true ⟨?_, rfl, rfl⟩ (.inr hbuf)⟩
    unfold Given
    dsimp only
    split <;> simp [Piece.owed, shown]

theorem conserves (serde : SerdeJson) : Conserves (machine serde) account HermesJsonParser.buf Piece.part where
  feed := rfl
  step h := (step_accounted h).1
  flush p := (flush_accounted p).1

theorem finish_silent (serde : SerdeJson) {q : HermesJsonParser} (h : Clean q) :
    (machine serde).finish q = some ([], q) := by
  obtain ⟨buf, state, index⟩ := q
  obtain ⟨rfl, rfl⟩ := h
  unfold finish
  rw [drain_stop rfl]
  rfl

theorem settled {serde : SerdeJson} (h : ((machine serde).logged account).run p chunks = some (log, q)) :
    Settled (machine serde) Clean log q ↔ Throughout (machine serde) Tidy EndsClean p chunks := by
  rw [settled_iff (fun q => finish_silent serde)]
  exact run_given (fun _ _ _ _ _ hs => (step_accounted hs).2) (fun p => (flush_accounted p).2) h

end Flambeau.Server.ToolCallParser.Hermes
