import Flambeau.Server.ToolCallParser.CallEvents
import Flambeau.Server.ToolCallParser.Gemma4Chunks

namespace Flambeau.Server.ToolCallParser.Gemma4
open Flambeau.Stream Flambeau.Stream.Machine Flambeau.Runtime.JsonSchema

/-- Where the events stand in a state. -/
def phase (p : Gemma4ToolCallParser) : Phase :=
  match p.state with
  | .inArgs => .opened p.nextIndex
  | .awaitingClose => .answered p.nextIndex
  | _ => .outside p.nextIndex

/-- Any name, and arguments that are an object text. -/
abbrev Calls : Phase → List ParserEvent → Phase → Prop := Leads (fun _ => True) IsObjectText

theorem phase_outside {p : Gemma4ToolCallParser} (ha : p.state ≠ .inArgs) (hc : p.state ≠ .awaitingClose) :
    phase p = .outside p.nextIndex := by
  unfold phase
  split
  · rename_i hs
    exact absurd hs ha
  · rename_i hs
    exact absurd hs hc
  · rfl

/-- A marker of the text leads to no state inside a call. -/
theorem afterTag_outside (tag : Text) : afterTag tag ≠ .inArgs ∧ afterTag tag ≠ .awaitingClose := by
  unfold afterTag
  split
  · exact ⟨nofun, nofun⟩
  split
  · exact ⟨nofun, nofun⟩
  split
  · exact ⟨nofun, nofun⟩
  split
  · exact ⟨nofun, nofun⟩
  split <;> exact ⟨nofun, nofun⟩

/-- What is parsed from a body of arguments is an object. -/
theorem parseObjectBody_object (serde : GemmaSerde) (obj : List (Name × Value)) (s : Text) {v : Value} {r : Rest s}
    (h : parseObjectBody serde obj s = some (v, r)) : ∃ fields, v = .object fields := by
  rw [parseObjectBody] at h
  split at h
  · cases h
    exact ⟨_, rfl⟩
  split at h
  · cases h
    exact ⟨_, rfl⟩
  split at h
  · cases h
  dsimp only at h
  split at h
  · cases h
  split at h
  · rename_i c t hs _ d u hkey _ v' r' _ w hsep
    obtain ⟨x, hx, heq⟩ := Option.map_eq_some_iff.mp h
    cases heq
    have hlt : w.length < s.length := by
      have hrest := skipWs_cons hsep
      have hvalue := r'.property
      have hcolon := (List.dropWhile_suffix (l := c :: t) (· != ':')).length_le
      have hfirst := skipWs_cons hs
      rw [hkey, List.length_cons, List.length_cons] at hcolon
      exact Nat.lt_of_lt_of_le hrest (by omega)
    exact parseObjectBody_object serde _ _ hx
  · cases h
    exact ⟨_, rfl⟩
termination_by s.length
decreasing_by exact hlt

section Steps
variable {serde : GemmaSerde} (hserde : serde.Objects)

include hserde in
theorem parsedArgs_object (body : Text) :
    IsObjectText (serde.toStringOr ((parseArgsBody serde body).getD (.object []))) := by
  unfold parseArgsBody
  split
  · exact hserde.toStringOr []
  · cases hparse : parseObjectBody serde [] body with
    | none => exact hserde.toStringOr []
    | some x =>
      obtain ⟨v, r⟩ := x
      obtain ⟨fields, rfl⟩ := parseObjectBody_object serde [] body hparse
      exact hserde.toStringOr fields

include hserde in
/-- A block of code that is a call has an object for its arguments. -/
theorem parseToolCodeBlock_object {block : Text} (h : parseToolCodeBlock serde block = some (name, args)) :
    IsObjectText args := by
  unfold parseToolCodeBlock at h
  dsimp only at h
  split at h
  · rename_i json hobject
    obtain ⟨text, htext, heq⟩ := Option.map_eq_some_iff.mp h
    cases heq
    subst htext
    unfold objectCall at hobject
    obtain ⟨brace, -, hobject⟩ := Option.bind_eq_some_iff.mp hobject
    obtain ⟨ident, -, hobject⟩ := Option.bind_eq_some_iff.mp hobject
    split at hobject
    · rename_i fields _
      injection hobject with hpair
      exact hserde fields args (Prod.mk.inj hpair).2
    · cases hobject
  · unfold parsePythonCall at h
    obtain ⟨opened, -, h⟩ := Option.bind_eq_some_iff.mp h
    obtain ⟨ident, -, h⟩ := Option.bind_eq_some_iff.mp h
    obtain ⟨closed, -, h⟩ := Option.bind_eq_some_iff.mp h
    dsimp only at h
    split at h
    · cases h
    · obtain ⟨json, hjson, heq⟩ := Option.map_eq_some_iff.mp h
      cases heq
      exact hserde _ _ hjson

include hserde in
theorem toolCodeBlock_calls (index : Nat) (block : Text) :
    Calls (.outside index) (toolCodeBlock serde index block).1 (.outside (toolCodeBlock serde index block).2) := by
  unfold toolCodeBlock
  split
  · rename_i name args hparse
    exact leads_call trivial (parseToolCodeBlock_object hserde hparse)
  · dsimp only
    exact leads_emitText _

/-- Buffered text is given out where text may be. -/
theorem emitBuffered_calls {emit : Text → List ParserEvent} (hemit : ∀ n s, Calls (.outside n) (emit s) (.outside n))
    {p : Gemma4ToolCallParser} (ha : p.state ≠ .inArgs) (hc : p.state ≠ .awaitingClose)
    (h : emitBuffered emit tags p fin = (es, p', b)) : Calls (phase p) es (phase p') := by
  unfold emitBuffered at h
  generalize (if fin then p.buf.length else ambiguousTailStart p.buf tags) = n at h
  dsimp only at h
  split at h
  · cases h
    rw [phase_outside ha hc, phase_outside (p := { p with buf := p.buf.drop n }) ha hc]
    exact hemit _ _
  · cases h
    exact .nil

theorem stepText_calls {p : Gemma4ToolCallParser} (hs : p.state = .text) (h : stepText p fin = (es, p', b)) :
    Calls (phase p) es (phase p') := by
  have ha : p.state ≠ .inArgs := by rw [hs]; nofun
  have hc : p.state ≠ .awaitingClose := by rw [hs]; nofun
  unfold stepText at h
  split at h
  · rename_i tag _
    cases h
    rw [phase_outside ha hc, phase_outside (afterTag_outside tag).1 (afterTag_outside tag).2]
    exact leads_emitText _
  · exact emitBuffered_calls (fun _ => leads_emitText) ha hc h

theorem stepInChannel_calls {p : Gemma4ToolCallParser} (hs : p.state = .inChannel)
    (h : stepInChannel p fin = (es, p', b)) : Calls (phase p) es (phase p') := by
  have ha : p.state ≠ .inArgs := by rw [hs]; nofun
  have hc : p.state ≠ .awaitingClose := by rw [hs]; nofun
  unfold stepInChannel at h
  split at h
  · cases h
    rw [phase_outside ha hc]
    exact leads_emitThink _
  · exact emitBuffered_calls (fun _ => leads_emitThink) ha hc h

include hserde in
theorem stepInCallHeader_calls {p : Gemma4ToolCallParser} (hs : p.state = .inCallHeader)
    (h : stepInCallHeader serde p = (es, p', b)) : Calls (phase p) es (phase p') := by
  have hphase : phase p = .outside p.nextIndex := by
    unfold phase
    rw [hs]
  unfold stepInCallHeader at h
  split at h
  · cases h
    exact .nil
  dsimp only at h
  split at h
  · cases h
    rw [hphase]
    exact .opens trivial (.arguments emptyObject_isObjectText .nil)
  split at h
  · cases h
    exact .nil
  split at h
  · cases h
    rw [hphase]
    exact .opens trivial .nil
  split at h
  · cases h
    exact .nil
  · cases h
    rw [hphase]
    exact .opens trivial (.arguments (hserde.toStringOr _) .nil)

include hserde in
theorem stepInArgs_calls {p : Gemma4ToolCallParser} (hs : p.state = .inArgs)
    (h : stepInArgs serde p = some (es, p', b)) : Calls (phase p) es (phase p') := by
  obtain ⟨r, -, heq⟩ := Option.map_eq_some_iff.mp h
  dsimp only at heq
  unfold phase
  rw [hs]
  split at heq
  · cases heq
    exact .arguments (parsedArgs_object hserde _) .nil
  · cases heq
    rw [hs]
    exact .nil

theorem stepAwaitingClose_calls {p : Gemma4ToolCallParser} (hs : p.state = .awaitingClose)
    (h : stepAwaitingClose p = (es, p', b)) : Calls (phase p) es (phase p') := by
  unfold stepAwaitingClose at h
  split at h
  · cases h
    unfold phase
    rw [hs]
    exact .closes .nil
  · cases h
    exact .nil

include hserde in
theorem stepInToolCode_calls {p : Gemma4ToolCallParser} (hs : p.state = .inToolCode)
    (h : stepInToolCode serde p fin = (es, p', b)) : Calls (phase p) es (phase p') := by
  have hphase : phase p = .outside p.nextIndex := by
    unfold phase
    rw [hs]
  unfold stepInToolCode at h
  split at h
  · cases h
    rw [hphase]
    exact toolCodeBlock_calls hserde _ _
  split at h
  · cases h
    rw [hphase]
    exact toolCodeBlock_calls hserde _ _
  · cases h
    exact .nil

/-- Echoed results and turn headers are dropped. -/
theorem dropped_calls {p : Gemma4ToolCallParser} (hs : p.state = .inToolResponse ∨ p.state = .inTurnHeader)
    (h : step serde fin p = some (es, p', b)) : Calls (phase p) es (phase p') := by
  have hphase : phase p = .outside p.nextIndex := by
    unfold phase
    rcases hs with hs | hs <;> rw [hs]
  unfold step at h
  rcases hs with hs | hs
  · rw [hs] at h
    simp only [stepInToolResponse, Option.some.injEq] at h
    split at h
    · cases h
      rw [hphase]
      exact .nil
    split at h
    · cases h
      rw [hphase]
      exact .nil
    · cases h
      exact .nil
  · rw [hs] at h
    simp only [stepInTurnHeader, Option.some.injEq] at h
    split at h
    · cases h
      rw [hphase]
      exact .nil
    split at h
    · cases h
      rw [hphase]
      exact .nil
    · cases h
      exact .nil

include hserde in
theorem step_calls {p : Gemma4ToolCallParser} (h : step serde fin p = some (es, p', b)) :
    Calls (phase p) es (phase p') := by
  have hall := h
  unfold step at h
  cases hs : p.state with
  | text =>
    rw [hs] at h
    exact stepText_calls hs (Option.some.inj h)
  | inChannel =>
    rw [hs] at h
    exact stepInChannel_calls hs (Option.some.inj h)
  | inCallHeader =>
    rw [hs] at h
    exact stepInCallHeader_calls hserde hs (Option.some.inj h)
  | inArgs =>
    rw [hs] at h
    exact stepInArgs_calls hserde hs h
  | awaitingClose =>
    rw [hs] at h
    exact stepAwaitingClose_calls hs (Option.some.inj h)
  | inToolCode =>
    rw [hs] at h
    exact stepInToolCode_calls hserde hs (Option.some.inj h)
  | inToolResponse => exact dropped_calls (.inl hs) hall
  | inTurnHeader => exact dropped_calls (.inr hs) hall

/-- The end of the input closes an open call. -/
theorem flush_calls (p : Gemma4ToolCallParser) :
    Calls (phase p) (flush p).1 (phase (flush p).2) ∧ phase (flush p).2 = .outside (flush p).2.nextIndex := by
  cases hs : p.state <;> simp only [phase, flush, hs]
  case inCallHeader => exact ⟨leads_emitText _, trivial⟩
  case inArgs => exact ⟨.arguments emptyObject_isObjectText (.closes .nil), trivial⟩
  case awaitingClose => exact ⟨.closes .nil, trivial⟩
  all_goals exact ⟨.nil, trivial⟩

include hserde in
theorem calls_traced : Traced (machine serde) fun p es q => Calls (phase p) es (phase q) where
  nil := .nil
  append := Leads.append
  feed := id
  step := step_calls hserde
  flush := (flush_calls _).1

theorem phase_echo (p : Gemma4ToolCallParser) (fin : Bool) : phase (tryConsumeEchoPrefix p fin) = phase p := by
  unfold tryConsumeEchoPrefix
  split <;> rfl

include hserde in
theorem stream_calls {p : Gemma4ToolCallParser} {chunks : List Text} (h : stream serde p chunks = some es) :
    ∃ n, Calls (phase p) es (.outside n) := by
  induction chunks generalizing p es with
  | nil =>
    obtain ⟨r, hr, rfl⟩ := Option.map_eq_some_iff.mp h
    obtain ⟨d, hd, rfl⟩ := Option.map_eq_some_iff.mp hr
    have hdrained := (calls_traced hserde).drain hd
    obtain ⟨hflush, hend⟩ := flush_calls d.2
    rw [hend] at hflush
    rw [phase_echo] at hdrained
    exact ⟨_, hdrained.append hflush⟩
  | cons c cs ih =>
    obtain ⟨r, hr, hrest⟩ := Option.bind_eq_some_iff.mp h
    obtain ⟨fs, hfs, rfl⟩ := Option.map_eq_some_iff.mp hrest
    obtain ⟨n, hn⟩ := ih hfs
    refine ⟨n, Leads.append ?_ hn⟩
    unfold push at hr
    split at hr
    · cases hr
      exact .nil
    dsimp only at hr
    have hfed : phase (tryConsumeEchoPrefix ((machine serde).feed p c) false) = phase p := phase_echo _ _
    split at hr
    · cases hr
      rw [hfed]
      exact .nil
    · have hdrained := (calls_traced hserde).drain hr
      rwa [hfed] at hdrained

end Steps

/-- Both constructors give out well-formed calls, for any chunks. -/
theorem gemma4_wellFormed (serde : GemmaSerde) (hserde : serde.Objects) (guarded : Bool) (chunks : List Text)
    (es : List ParserEvent) (h : stream serde (withThoughtEchoGuard guarded) chunks = some es) :
    WellFormed (fun _ => True) IsObjectText es :=
  stream_calls hserde h

theorem emptySerde_objects : emptySerde.Objects := by
  intro fields s h
  cases fields with
  | nil =>
    cases h
    exact emptyObject_isObjectText
  | cons f fields => cases h

theorem cut_call_wellFormed : ∃ es, stream emptySerde .new cutCall = some es ∧
    WellFormed (fun _ => True) IsObjectText es := by
  obtain ⟨es, hes⟩ := ascii_safe emptySerde (show IsAscii cutCall.flatten by decide)
  exact ⟨es, hes, gemma4_wellFormed emptySerde emptySerde_objects false cutCall es hes⟩

end Flambeau.Server.ToolCallParser.Gemma4
