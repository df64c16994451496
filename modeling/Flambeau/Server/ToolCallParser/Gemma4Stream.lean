import Flambeau.Stream.Prose
import Flambeau.Server.ToolCallParser.Gemma4

namespace Flambeau.Server.ToolCallParser.Gemma4
open Flambeau.Stream

/-! The echo guard. -/

def isMarkerChar (c : Char) : Bool := c == '<' || c == '>' || c == '|' || c == '*' || c == '/'

/-- `is_scaffold_char`. -/
def isScaffoldChar (c : Char) : Bool := c.isLower || isMarkerChar c || isWhitespace c

def thoughtWord : Text := ['t', 'h', 'o', 'u', 'g', 'h', 't']

/-- `SCAFFOLD_WORDS`. -/
def scaffoldWords : List Text :=
  [['t', 'u', 'r', 'n'], ['c', 'h', 'a', 'n', 'n', 'e', 'l'], thoughtWord,
    ['m', 'o', 'd', 'e', 'l'], ['s', 'y', 's', 't', 'e', 'm'], ['u', 's', 'e', 'r'],
    ['a', 's', 's', 'i', 's', 't', 'a', 'n', 't']]

def hasMarker (s : Text) : Bool := s.any fun c => c == '<' || c == '>' || c == '|'

/-- `is_scaffolding_line`. -/
def isScaffoldingLine (line : Text) : Bool :=
  let s := trim line
  if s.isEmpty || 40 < byteLen s then false
  else if !s.all isScaffoldChar then false
  else
    let hasWord := scaffoldWords.any fun w => (find w s).isSome
    let bareThought := thoughtWord.isPrefixOf s &&
      (s.drop thoughtWord.length).all fun c => isMarkerChar c || isWhitespace c
    (hasMarker s && hasWord) || bareThought

/-- `could_extend_to_scaffolding_line`. -/
def couldExtendToScaffoldingLine (part : Text) : Bool :=
  let s := trimStart part
  if s.isEmpty then true
  else if 40 < byteLen s || !s.all isScaffoldChar then false
  else hasMarker s || s.isPrefixOf thoughtWord || thoughtWord.isPrefixOf s

/-- The loop of `try_consume_echo_prefix`: the buffer after it, and whether the
guard is still pending. -/
def consumeEcho (isFinish : Bool) (buf : Text) : Text × Bool :=
  match _h : find ['\n'] buf with
  | some nl =>
    if isScaffoldingLine (buf.take nl) then consumeEcho isFinish (buf.drop (nl + 1))
    else (buf, false)
  | none =>
    if !isFinish && couldExtendToScaffoldingLine buf then (buf, true)
    else if isFinish && isScaffoldingLine buf then ([], false)
    else (buf, false)
termination_by buf.length
decreasing_by
  have hle := find_le _h
  rw [List.length_drop]
  simp only [List.length_cons, List.length_nil] at hle
  omega

/-- `try_consume_echo_prefix`. -/
def tryConsumeEchoPrefix (p : Gemma4ToolCallParser) (isFinish : Bool) : Gemma4ToolCallParser :=
  if p.pendingThoughtEcho then
    { p with
      buf := (consumeEcho isFinish p.buf).1
      pendingThoughtEcho := (consumeEcho isFinish p.buf).2 }
  else p

/-! Progress. -/

/-- A header and a code block may end without a character being consumed. -/
def rank (p : Gemma4ToolCallParser) : Nat :=
  2 * p.buf.length + if p.state = .inCallHeader ∨ p.state = .inToolCode then 1 else 0

theorem rank_shorter {p p' : Gemma4ToolCallParser} (h : p'.buf.length < p.buf.length) :
    rank p' < rank p := by
  unfold rank
  split <;> split <;> omega

theorem rank_settles {p p' : Gemma4ToolCallParser}
    (hs : p.state = .inCallHeader ∨ p.state = .inToolCode)
    (hs' : ¬ (p'.state = .inCallHeader ∨ p'.state = .inToolCode))
    (h : p'.buf.length ≤ p.buf.length) : rank p' < rank p := by
  unfold rank
  rw [if_pos hs, if_neg hs']
  omega

theorem emitBuffered_descends (h : emitBuffered emit tags p fin = (es, p', true)) :
    rank p' < rank p := by
  unfold emitBuffered at h
  have hle : (if fin then p.buf.length else ambiguousTailStart p.buf tags) ≤ p.buf.length := by
    split
    · exact Nat.le_refl _
    · exact tailStart_le _ _
  generalize (if fin then p.buf.length else ambiguousTailStart p.buf tags) = n at h hle
  simp only at h
  split at h
  · rename_i hpos
    cases h
    apply rank_shorter
    rw [List.length_drop]
    omega
  · cases h

/-- The text behind a tag is shorter. -/
theorem earliest_shorter {s : Text} (hne : ∀ t ∈ tags, 0 < t.length)
    (h : earliest tags s = some (pos, tag)) : (s.drop (pos + tag.length)).length < s.length := by
  obtain ⟨_, _, _, _, htag, _⟩ := earliest_some h
  have hle := earliest_le h
  have hpos := hne tag htag
  rw [List.length_drop]
  omega

theorem find_shorter {s pat : Text} (hne : 0 < pat.length) (h : find pat s = some pos) :
    (s.drop (pos + pat.length)).length < s.length := by
  have hle := find_le h
  rw [List.length_drop]
  omega

theorem stepText_descends (h : stepText p fin = (es, p', true)) : rank p' < rank p := by
  unfold stepText at h
  split at h
  · rename_i pos tag he
    cases h
    exact rank_shorter (earliest_shorter (by decide) he)
  · exact emitBuffered_descends h

theorem stepInChannel_descends (h : stepInChannel p fin = (es, p', true)) : rank p' < rank p := by
  unfold stepInChannel at h
  split at h
  · rename_i pos tag he
    cases h
    exact rank_shorter (earliest_shorter (by decide) he)
  · exact emitBuffered_descends h

theorem stepInToolResponse_descends (h : stepInToolResponse p fin = (es, p', true)) :
    rank p' < rank p := by
  unfold stepInToolResponse at h
  split at h
  · rename_i pos hf
    cases h
    exact rank_shorter (find_shorter (by decide) hf)
  · split at h <;> cases h

theorem stepInTurnHeader_descends (h : stepInTurnHeader p fin = (es, p', true)) :
    rank p' < rank p := by
  unfold stepInTurnHeader at h
  split at h
  · rename_i pos hf
    have hpos : 0 < ['\n'].length := by decide
    cases h
    exact rank_shorter (find_shorter hpos hf)
  · split at h <;> cases h

theorem stepAwaitingClose_descends (h : stepAwaitingClose p = (es, p', true)) :
    rank p' < rank p := by
  unfold stepAwaitingClose at h
  split at h
  · rename_i pos tag he
    cases h
    exact rank_shorter (earliest_shorter (by decide) he)
  · cases h

theorem stepInToolCode_descends (serde : GemmaSerde) (hs : p.state = .inToolCode)
    (h : stepInToolCode serde p fin = (es, p', true)) : rank p' < rank p := by
  unfold stepInToolCode at h
  split at h
  · rename_i pos tag he
    cases h
    exact rank_shorter (earliest_shorter (by decide) he)
  · split at h
    · cases h
      exact rank_settles (.inr hs) (by simp) (Nat.zero_le _)
    · cases h

theorem stepInCallHeader_descends (serde : GemmaSerde) (hs : p.state = .inCallHeader)
    (h : stepInCallHeader serde p = (es, p', true)) : rank p' < rank p := by
  have hshort : ∀ n, (p.buf.drop n).length ≤ p.buf.length := fun n => (List.drop_suffix n _).length_le
  unfold stepInCallHeader at h
  split at h
  · cases h
  · simp only at h
    split at h
    · cases h
      exact rank_settles (.inl hs) (by simp) (hshort _)
    · split at h
      · cases h
      · split at h
        · cases h
          exact rank_settles (.inl hs) (by simp) (hshort _)
        · split at h
          · cases h
          · cases h
            exact rank_settles (.inl hs) (by simp) (hshort _)

theorem scanArgs_cons (depth : Nat) (inString : Bool) (c : Char) (s : Text) :
    scanArgs depth inString (c :: s) =
      match argStep depth inString c s with
      | .fault => none
      | .hold => some ⟨[], depth, inString, false, c :: s⟩
      | .close => some ⟨[], 0, inString, true, s⟩
      | .advance more depth inString =>
        (scanArgs depth inString (s.drop more)).map (·.after (c :: s.take more)) := by
  cases hstep : argStep depth inString c s <;> simp only [scanArgs, hstep]

/-- A scan of the arguments splits the text. -/
theorem scanArgs_split (h : scanArgs depth inString s = some r) :
    s = r.consumed ++ (if r.closed then '}' :: r.rest else r.rest) := by
  match s with
  | [] =>
    rw [scanArgs] at h
    cases h
    rfl
  | c :: s =>
    rw [scanArgs_cons] at h
    cases hstep : argStep depth inString c s with
    | fault =>
      rw [hstep] at h
      cases h
    | hold =>
      rw [hstep] at h
      cases h
      rfl
    | close =>
      have hbrace : c = '}' := by
        unfold argStep at hstep
        repeat' split at hstep
        all_goals first
          | assumption
          | cases hstep
      rw [hstep] at h
      cases h
      rw [hbrace]
      rfl
    | advance more d i =>
      rw [hstep] at h
      obtain ⟨r', hr', rfl⟩ := Option.map_eq_some_iff.mp h
      have ih := scanArgs_split hr'
      show c :: s = (c :: s.take more ++ r'.consumed) ++ (if r'.closed then '}' :: r'.rest else r'.rest)
      rw [List.append_assoc, ← ih, List.cons_append, List.take_append_drop]
termination_by s.length
decreasing_by
  rw [List.length_drop, List.length_cons]
  omega

theorem stepInArgs_descends (serde : GemmaSerde) (h : stepInArgs serde p = some (es, p', true)) :
    rank p' < rank p := by
  unfold stepInArgs at h
  obtain ⟨r, hr, h⟩ := Option.map_eq_some_iff.mp h
  have hsplit := congrArg List.length (scanArgs_split hr)
  simp only at h
  split at h
  · rename_i hclosed
    cases h
    apply rank_shorter
    rw [hclosed] at hsplit
    simp only [if_true, List.length_append, List.length_cons] at hsplit
    simp only
    omega
  · rename_i hopen
    have hheld : r.closed = false := eq_false_of_ne_true hopen
    simp only [Prod.mk.injEq, Bool.not_eq_true', List.isEmpty_eq_false_iff] at h
    obtain ⟨_, rfl, hne⟩ := h
    have hpos := List.length_pos_iff.mpr hne
    apply rank_shorter
    rw [hheld] at hsplit
    simp only [Bool.false_eq_true, if_false, List.length_append] at hsplit
    simp only
    omega

theorem step_descends (serde : GemmaSerde) (h : step serde fin p = some (es, p', true)) :
    rank p' < rank p := by
  unfold step at h
  split at h
  · exact stepText_descends (Option.some.inj h)
  · exact stepInChannel_descends (Option.some.inj h)
  · rename_i hs
    exact stepInCallHeader_descends serde hs (Option.some.inj h)
  · exact stepInArgs_descends serde h
  · exact stepAwaitingClose_descends (Option.some.inj h)
  · rename_i hs
    exact stepInToolCode_descends serde hs (Option.some.inj h)
  · exact stepInToolResponse_descends (Option.some.inj h)
  · exact stepInTurnHeader_descends (Option.some.inj h)

/-- `Gemma4ToolCallParser` with its guard down, as a push parser. -/
def machine (serde : GemmaSerde) : Machine Char ParserEvent Gemma4ToolCallParser where
  feed p chunk := { p with buf := p.buf ++ chunk }
  step := step serde
  flush := flush
  rank := rank
  descends := step_descends serde
  feed_feed := by simp

/-- `push`. -/
def push (serde : GemmaSerde) (p : Gemma4ToolCallParser) (chunk : Text) :
    Option (List ParserEvent × Gemma4ToolCallParser) :=
  if chunk.isEmpty then some ([], p)
  else
    let p := tryConsumeEchoPrefix ((machine serde).feed p chunk) false
    if p.pendingThoughtEcho then some ([], p) else (machine serde).drain false p

/-- `finish`. -/
def finish (serde : GemmaSerde) (p : Gemma4ToolCallParser) :
    Option (List ParserEvent × Gemma4ToolCallParser) :=
  (machine serde).finish (tryConsumeEchoPrefix p true)

/-- The events of a `push` for each chunk and the `finish`. -/
def stream (serde : GemmaSerde) (p : Gemma4ToolCallParser) : List Text → Option (List ParserEvent)
  | [] => (finish serde p).map (·.1)
  | c :: cs => (push serde p c).bind fun r => (stream serde r.2 cs).map (r.1 ++ ·)

end Flambeau.Server.ToolCallParser.Gemma4
