import Flambeau.Server.ToolCallParser.Gemma4Stable

namespace Flambeau.Server.ToolCallParser.Gemma4
open Flambeau.Stream Flambeau.Stream.Machine Flambeau.Runtime.JsonSchema

theorem textOpen_markers : Markers '<' textOpenTags := ⟨by decide, by decide⟩

theorem channel_markers : Markers '<' channelClosers := ⟨by decide, by decide⟩

theorem call_markers : Markers '<' callClosers := ⟨by decide, by decide⟩

theorem code_markers : Markers '<' codeClosers := ⟨by decide, by decide⟩

theorem response_markers : Markers '<' [toolResponseClose] := ⟨by decide, by decide⟩

/-! The prose modes. -/

/-- A parser with `s` held. -/
def holding (p : Gemma4ToolCallParser) (s : Text) : Gemma4ToolCallParser := { p with buf := s }

def enter (p : Gemma4ToolCallParser) (state : State) (s : Text) : Gemma4ToolCallParser :=
  { p with buf := s, state := state }

/-- The tails that are held are the fronts of the tags. -/
theorem ambiguousTailStart_opens (htags : ∀ t ∈ tags, IsAscii t)
    (hmax : ∀ t ∈ tags, byteLen t - 1 ≤ (tags.map fun t => byteLen t - 1).foldl max 0) (s : Text) :
    ambiguousTailStart s tags = tailStart (opensTag tags) s := by
  unfold ambiguousTailStart
  simp only
  congr 1
  funext tail
  rw [Bool.eq_iff_iff, opensTag_iff]
  simp only [Bool.and_eq_true, decide_eq_true_eq, List.any_eq_true, List.isPrefixOf_iff_prefix]
  have hlengths : ∀ t ∈ tags, tail <+: t → byteLen tail = tail.length ∧ byteLen t = t.length := by
    intro t ht hp
    refine ⟨byteLen_ascii ?_, byteLen_ascii (htags t ht)⟩
    exact (htags t ht).sub fun c hc => hp.subset hc
  constructor
  · intro h
    obtain ⟨_, t, ht, hlen, hp⟩ := h
    obtain ⟨htail, htag⟩ := hlengths t ht hp
    exact ⟨t, ht, by omega, hp⟩
  · intro h
    obtain ⟨t, ht, hlen, hp⟩ := h
    obtain ⟨htail, htag⟩ := hlengths t ht hp
    have hle := hmax t ht
    exact ⟨by omega, t, ht, by omega, hp⟩

theorem emitBuffered_held (hempty : emit [] = []) (htags : ∀ t ∈ tags, IsAscii t)
    (hmax : ∀ t ∈ tags, byteLen t - 1 ≤ (tags.map fun t => byteLen t - 1).foldl max 0)
    (p : Gemma4ToolCallParser) (s : Text) :
    emitBuffered emit tags (holding p s) false =
      (emit (s.take (tailStart (opensTag tags) s)),
        holding p (s.drop (tailStart (opensTag tags) s)),
        decide (0 < tailStart (opensTag tags) s)) := by
  unfold emitBuffered
  simp only [holding, Bool.false_eq_true, if_false, ambiguousTailStart_opens htags hmax]
  by_cases hpos : 0 < tailStart (opensTag tags) s
  · rw [if_pos hpos, decide_eq_true hpos]
  · have hzero : tailStart (opensTag tags) s = 0 := by omega
    rw [if_neg hpos, decide_eq_false hpos, hzero, List.take_zero, List.drop_zero, hempty]

theorem emitBuffered_finish (hempty : emit [] = []) (p : Gemma4ToolCallParser) (s : Text) :
    emitBuffered emit tags (holding p s) true = (emit s, holding p [], decide (s ≠ [])) := by
  unfold emitBuffered
  simp only [holding, if_true]
  by_cases hnil : s = []
  · rw [hnil, if_neg (by simp), hempty]
    simp
  · rw [if_pos (List.length_pos_iff.mpr hnil), List.take_length, List.drop_length,
      decide_eq_true hnil]

theorem stepText_none (serde : GemmaSerde) (hs : p.state = .text) (h : earliest textOpenTags s = none) (fin : Bool) :
    step serde fin (holding p s) = some (emitBuffered emitText textOpenTags (holding p s) fin) := by
  have hstate : (holding p s).state = .text := hs
  unfold step stepText
  rw [hstate]
  simp only [holding, h]

theorem stepInChannel_none (serde : GemmaSerde) (hs : p.state = .inChannel) (h : earliest channelClosers s = none)
    (fin : Bool) :
    step serde fin (holding p s) = some (emitBuffered emitThink channelClosers (holding p s) fin) := by
  have hstate : (holding p s).state = .inChannel := hs
  unfold step stepInChannel
  rw [hstate]
  simp only [holding, h]

theorem emitText_nil : emitText [] = [] := rfl

theorem emitThink_nil : emitThink [] = [] := rfl

theorem text_prose (serde : GemmaSerde) (hs : p.state = .text) :
    Prose (machine serde) ParserEvent.coalesce (holding p) emitText
      (tagEntry textOpenTags fun tag rest => enter p (afterTag tag) rest)
      (tailStart (opensTag textOpenTags)) (fun _ => True) where
  empty := emitText_nil
  joins := emitText_append _ _ _
  found := by
    intro s u es q h
    obtain ⟨⟨pos, tag⟩, he, heq⟩ := Option.map_eq_some_iff.mp h
    cases heq
    have hstate : (holding p s).state = .text := hs
    simp only [machine, step, hstate, stepText]
    simp only [holding, he, List.append_nil]
    rfl
  held := by
    intro s hnone _
    have hstep := stepText_none serde hs (tagEntry_none.mp hnone) false
    rw [emitBuffered_held emitText_nil (by decide) (by decide)] at hstep
    exact hstep
  rest := fun hnone _ => tagEntry_none.mpr (earliest_drop (tagEntry_none.mp hnone) _)
  last := by
    intro s hnone
    have hstep := stepText_none serde hs (tagEntry_none.mp hnone) true
    have hstop := stepText_none (s := []) serde hs rfl true
    rw [emitBuffered_finish emitText_nil] at hstep hstop
    have hflush : flush (holding p []) = ([], holding p []) := by
      unfold flush holding
      rw [hs]
    exact finish_last (m := machine serde) hstep hstop hflush
  calm := fun _ => trivial

theorem channel_prose (serde : GemmaSerde) (hs : p.state = .inChannel) :
    Prose (machine serde) ParserEvent.coalesce (holding p) emitThink
      (tagEntry channelClosers fun _ rest => enter p .text rest)
      (tailStart (opensTag channelClosers)) (fun _ => True) where
  empty := emitThink_nil
  joins := emitThink_append _ _ _
  found := by
    intro s u es q h
    obtain ⟨⟨pos, tag⟩, he, heq⟩ := Option.map_eq_some_iff.mp h
    cases heq
    have hstate : (holding p s).state = .inChannel := hs
    simp only [machine, step, hstate, stepInChannel]
    simp only [holding, he, List.append_nil]
    rfl
  held := by
    intro s hnone _
    have hstep := stepInChannel_none serde hs (tagEntry_none.mp hnone) false
    rw [emitBuffered_held emitThink_nil (by decide) (by decide)] at hstep
    exact hstep
  rest := fun hnone _ => tagEntry_none.mpr (earliest_drop (tagEntry_none.mp hnone) _)
  last := by
    intro s hnone
    have hstep := stepInChannel_none serde hs (tagEntry_none.mp hnone) true
    have hstop := stepInChannel_none (s := []) serde hs rfl true
    rw [emitBuffered_finish emitThink_nil] at hstep hstop
    have hflush : flush (holding p []) = ([], holding p []) := by
      unfold flush holding
      rw [hs]
    exact finish_last (m := machine serde) hstep hstop hflush
  calm := fun _ => trivial

/-! One step before the rest of the input, or with it. -/

/-- The whole of the input is ASCII. -/
def Good (p : Gemma4ToolCallParser) (x : Text) : Prop := IsAscii (p.buf ++ x)

theorem Good.drop (h : Good p x) (hbuf : p'.buf = p.buf.drop n) : Good p' x := by
  unfold Good at h ⊢
  rw [hbuf]
  apply h.sub
  intro c hc
  rcases List.mem_append.mp hc with hc | hc
  · exact List.mem_append_left x (List.mem_of_mem_drop hc)
  · exact List.mem_append_right p.buf hc

variable (serde : GemmaSerde)

theorem text_moves (hs : p.state = .text) (hgood : Good p x) :
    (machine serde).Moves ParserEvent.coalesce Good p x := by
  cases he : earliest textOpenTags p.buf with
  | some r =>
    obtain ⟨pos, tag⟩ := r
    have hle := earliest_le he
    have hwith := textOpen_markers.earliest_append he x
    have hstep : step serde false p = some (emitText (p.buf.take pos),
        { p with buf := p.buf.drop (pos + tag.length), state := afterTag tag }, true) := by
      simp only [step, hs, stepText, he]
    apply moves_step hstep
    · exact hgood.drop rfl
    · simp only [machine, step, hs, stepText, hwith]
      rw [List.drop_append_of_le_length hle, List.take_append_of_le_length (by omega)]
  | none =>
    have hheld := (text_prose serde hs).held (s := p.buf) (tagEntry_none.mpr he) trivial
    refine ⟨_, _, _, hheld, hgood.drop rfl, ?_⟩
    apply (text_prose serde hs).moves ParserEvent.congruent (tagEntry_shift he x)
    exact fun _ => trivial

theorem channel_moves (hs : p.state = .inChannel) (hgood : Good p x) :
    (machine serde).Moves ParserEvent.coalesce Good p x := by
  cases he : earliest channelClosers p.buf with
  | some r =>
    obtain ⟨pos, tag⟩ := r
    have hle := earliest_le he
    have hwith := channel_markers.earliest_append he x
    have hstep : step serde false p = some (emitThink (p.buf.take pos),
        { p with buf := p.buf.drop (pos + tag.length), state := .text }, true) := by
      simp only [step, hs, stepInChannel, he]
    apply moves_step hstep
    · exact hgood.drop rfl
    · simp only [machine, step, hs, stepInChannel, hwith]
      rw [List.drop_append_of_le_length hle, List.take_append_of_le_length (by omega)]
  | none =>
    have hheld := (channel_prose serde hs).held (s := p.buf) (tagEntry_none.mpr he) trivial
    refine ⟨_, _, _, hheld, hgood.drop rfl, ?_⟩
    apply (channel_prose serde hs).moves ParserEvent.congruent (tagEntry_shift he x)
    exact fun _ => trivial

theorem step_callHeader {p : Gemma4ToolCallParser} (hs : p.state = .inCallHeader) :
    step serde fin p = some (stepInCallHeader serde p) := by
  unfold step
  rw [hs]

theorem step_args {p : Gemma4ToolCallParser} (hs : p.state = .inArgs) :
    step serde fin p = stepInArgs serde p := by
  unfold step
  rw [hs]

theorem callHeader_moves (hs : p.state = .inCallHeader) (hgood : Good p x) :
    (machine serde).Moves ParserEvent.coalesce Good p x := by
  generalize hr : stepInCallHeader serde p = r
  obtain ⟨es, p', b⟩ := r
  have hstep : step serde false p = some (es, p', b) := by
    rw [step_callHeader serde hs, hr]
  cases b with
  | false =>
    obtain ⟨rfl, rfl⟩ := stepInCallHeader_wait serde hr
    exact moves_wait hstep hgood
  | true =>
    apply moves_step hstep
    · obtain ⟨_, n, hn⟩ := stepInCallHeader_frame serde hr
      exact hgood.drop hn
    · have hwith := stepInCallHeader_append serde hr x
      have hsame : step serde false _ = _ := step_callHeader serde (p := (machine serde).feed p x) hs
      exact hsame.trans (congrArg some hwith)

/-- The parser behind what a scan of the arguments consumed. -/
def scanned (p : Gemma4ToolCallParser) (r : ArgScan) : Gemma4ToolCallParser :=
  { p with
    buf := r.rest
    argsBody := p.argsBody ++ r.consumed
    argsDepth := r.depth
    argsInString := r.inString }

theorem args_open (hs : p.state = .inArgs)
    (hscan : scanArgs p.argsDepth p.argsInString p.buf = some r) (hopen : r.closed = false) :
    step serde false p = some ([], scanned p r, !r.consumed.isEmpty) := by
  rw [step_args serde hs, stepInArgs, hscan]
  simp only [Option.map_some, hopen, Bool.false_eq_true, if_false]
  rfl

theorem args_close (hs : p.state = .inArgs)
    (hscan : scanArgs p.argsDepth p.argsInString p.buf = some r) (hclosed : r.closed = true) :
    step serde false p = some
      ([.toolCallArgumentsDelta p.nextIndex
        (serde.toStringOr ((parseArgsBody serde (p.argsBody ++ r.consumed)).getD (.object [])))],
      { p with
        buf := r.rest
        argsBody := []
        argsDepth := 0
        argsInString := false
        state := .awaitingClose }, true) := by
  rw [step_args serde hs, stepInArgs, hscan]
  simp only [Option.map_some, hclosed, if_true]

/-- An open scan may be made or not. -/
theorem args_ending (hs : p.state = .inArgs)
    (hscan : scanArgs p.argsDepth p.argsInString p.buf = some r) (hopen : r.closed = false) :
    (machine serde).ending p = (machine serde).ending (scanned p r) := by
  have hstep := args_open serde hs hscan hopen
  by_cases hnil : r.consumed = []
  · have hsame : scanned p r = p := by
      rw [scanArgs_still hscan hopen hnil]
      simp [scanned]
    rw [hsame]
  · rw [List.isEmpty_eq_false_iff.mpr hnil] at hstep
    rw [ending_step (m := machine serde) hstep]
    simp

theorem args_moves (hs : p.state = .inArgs) (hgood : Good p x) :
    (machine serde).Moves ParserEvent.coalesce Good p x := by
  obtain ⟨r, hr, happ⟩ := scanArgs_append p.argsDepth p.argsInString hgood
  have hsplit := scanArgs_split hr
  cases hclosed : r.closed with
  | true =>
    rw [hclosed, if_pos rfl] at happ hsplit
    have hrest : r.rest = p.buf.drop (r.consumed.length + 1) := by
      rw [hsplit, ← List.drop_drop, List.drop_left]
      rfl
    apply moves_step (args_close serde hs hr hclosed)
    · exact hgood.drop hrest
    · exact args_close serde (p := (machine serde).feed p x) hs happ rfl
  | false =>
    rw [hclosed, if_neg Bool.false_ne_true] at happ hsplit
    have hrest : r.rest = p.buf.drop r.consumed.length := by
      rw [hsplit, List.drop_left]
    have hgood' : Good (scanned p r) x := hgood.drop hrest
    refine ⟨_, _, _, args_open serde hs hr hclosed, hgood', ?_⟩
    have hall : IsAscii ((r.rest ++ x) ++ []) := by
      rw [List.append_nil]
      exact hgood'
    obtain ⟨q, hq, _⟩ := scanArgs_append r.depth r.inString hall
    rw [hq, Option.map_some] at happ
    simp only [List.nil_append, Option.map_id_fun', id]
    congr 1
    have hwith : scanned ((machine serde).feed p x) (q.after r.consumed) =
        scanned ((machine serde).feed (scanned p r) x) q := by
      simp [scanned, machine, ArgScan.after]
    cases hdone : q.closed with
    | true =>
      have hfirst := args_close serde (p := (machine serde).feed p x) hs happ hdone
      have hsecond := args_close serde (p := (machine serde).feed (scanned p r) x) hs hq hdone
      rw [ending_step (m := machine serde) hfirst, ending_step (m := machine serde) hsecond]
      simp [scanned, machine, ArgScan.after]
    | false =>
      rw [args_ending serde (p := (machine serde).feed p x) hs happ hdone,
        args_ending serde (p := (machine serde).feed (scanned p r) x) hs hq hdone, hwith]

theorem awaiting_moves (hs : p.state = .awaitingClose) (hgood : Good p x) :
    (machine serde).Moves ParserEvent.coalesce Good p x := by
  cases he : earliest callClosers p.buf with
  | some r =>
    obtain ⟨pos, tag⟩ := r
    have hwith := call_markers.earliest_append he x
    have hstep : step serde false p = some ([.toolCallClose p.nextIndex],
        { p with
          buf := p.buf.drop (pos + tag.length)
          nextIndex := p.nextIndex + 1
          state := .text }, true) := by
      simp only [step, hs, stepAwaitingClose, he]
    apply moves_step hstep
    · exact hgood.drop rfl
    · simp only [machine, step, hs, stepAwaitingClose, hwith]
      rw [List.drop_append_of_le_length (earliest_le he)]
  | none =>
    have hstep : step serde false p = some ([], p, false) := by
      simp only [step, hs, stepAwaitingClose, he]
    exact moves_wait hstep hgood

theorem toolCode_moves (hs : p.state = .inToolCode) (hgood : Good p x) :
    (machine serde).Moves ParserEvent.coalesce Good p x := by
  cases he : earliest codeClosers p.buf with
  | some r =>
    obtain ⟨pos, tag⟩ := r
    have hle := earliest_le he
    have hwith := code_markers.earliest_append he x
    have hstep : step serde false p = some ((toolCodeBlock serde p.nextIndex (p.buf.take pos)).1,
        { p with
          buf := p.buf.drop (pos + tag.length)
          nextIndex := (toolCodeBlock serde p.nextIndex (p.buf.take pos)).2
          state := .text }, true) := by
      simp only [step, hs, stepInToolCode, he]
    apply moves_step hstep
    · exact hgood.drop rfl
    · simp only [machine, step, hs, stepInToolCode, hwith]
      rw [List.drop_append_of_le_length hle, List.take_append_of_le_length (by omega)]
  | none =>
    have hstep : step serde false p = some ([], p, false) := by
      simp only [step, hs, stepInToolCode, he, Bool.false_eq_true, if_false]
    exact moves_wait hstep hgood

theorem toolResponse_moves (hs : p.state = .inToolResponse) (hgood : Good p x) :
    (machine serde).Moves ParserEvent.coalesce Good p x := by
  cases hf : find toolResponseClose p.buf with
  | some pos =>
    have hwith := response_markers.find_append hf x
    have hstep : step serde false p = some ([],
        { p with buf := p.buf.drop (pos + toolResponseClose.length), state := .text }, true) := by
      simp only [step, hs, stepInToolResponse, hf]
    apply moves_step hstep
    · exact hgood.drop rfl
    · simp only [machine, step, hs, stepInToolResponse, hwith]
      rw [List.drop_append_of_le_length (find_le hf)]
  | none =>
    have hstep : step serde false p = some ([], p, false) := by
      simp only [step, hs, stepInToolResponse, hf, Bool.false_eq_true, if_false]
    exact moves_wait hstep hgood

theorem turnHeader_moves (hs : p.state = .inTurnHeader) (hgood : Good p x) :
    (machine serde).Moves ParserEvent.coalesce Good p x := by
  cases hf : find ['\n'] p.buf with
  | some nl =>
    have hle := find_le hf
    have hwith := (letter_markers '\n').find_append hf x
    have hstep : step serde false p =
        some ([], { p with buf := p.buf.drop (nl + 1), state := .text }, true) := by
      simp only [step, hs, stepInTurnHeader, hf]
    rw [List.length_singleton] at hle
    apply moves_step hstep
    · exact hgood.drop rfl
    · simp only [machine, step, hs, stepInTurnHeader, hwith]
      rw [List.drop_append_of_le_length hle]
  | none =>
    have hstep : step serde false p = some ([], p, false) := by
      simp only [step, hs, stepInTurnHeader, hf, Bool.false_eq_true, if_false]
    exact moves_wait hstep hgood

theorem good_moves (hgood : Good p x) :
    (machine serde).Moves ParserEvent.coalesce Good p x := by
  cases hs : p.state with
  | text => exact text_moves serde hs hgood
  | inChannel => exact channel_moves serde hs hgood
  | inCallHeader => exact callHeader_moves serde hs hgood
  | inArgs => exact args_moves serde hs hgood
  | awaitingClose => exact awaiting_moves serde hs hgood
  | inToolCode => exact toolCode_moves serde hs hgood
  | inToolResponse => exact toolResponse_moves serde hs hgood
  | inTurnHeader => exact turnHeader_moves serde hs hgood

theorem gemma4_steady : Steady (machine serde) ParserEvent.coalesce Good where
  fed := by
    intro p x y h
    simp only [Good, machine, List.append_assoc] at h ⊢
    exact h
  moves := fun h _ => good_moves serde h

/-! Whole streams. -/

/-- A step gives out from the front of the buffer and leaves the echo guard as it
is. -/
theorem step_frame (h : step serde fin p = some (es, p', b)) :
    p'.pendingThoughtEcho = p.pendingThoughtEcho ∧ ∃ n, p'.buf = p.buf.drop n := by
  have hall : ∃ n, ([] : Text) = p.buf.drop n := ⟨p.buf.length, (List.drop_length).symm⟩
  have hsame : ∃ n, p.buf = p.buf.drop n := ⟨0, rfl⟩
  have hbuffered : ∀ emit tags es p' b, emitBuffered emit tags p fin = (es, p', b) →
      p'.pendingThoughtEcho = p.pendingThoughtEcho ∧ ∃ n, p'.buf = p.buf.drop n := by
    intro emit tags es p' b h
    unfold emitBuffered at h
    generalize (if fin then p.buf.length else ambiguousTailStart p.buf tags) = n at h
    simp only at h
    split at h <;> cases h
    · exact ⟨rfl, _, rfl⟩
    · exact ⟨rfl, hsame⟩
  cases hs : p.state with
  | text =>
    simp only [step, hs, stepText, Option.some.injEq] at h
    split at h
    · cases h
      exact ⟨rfl, _, rfl⟩
    · exact hbuffered _ _ _ _ _ h
  | inChannel =>
    simp only [step, hs, stepInChannel, Option.some.injEq] at h
    split at h
    · cases h
      exact ⟨rfl, _, rfl⟩
    · exact hbuffered _ _ _ _ _ h
  | inCallHeader =>
    rw [step_callHeader serde hs, Option.some.injEq] at h
    exact stepInCallHeader_frame serde h
  | inArgs =>
    rw [step_args serde hs] at h
    obtain ⟨r, hr, h⟩ := Option.map_eq_some_iff.mp h
    have hsplit := scanArgs_split hr
    simp only at h
    split at h
    · rename_i hclosed
      rw [hclosed, if_pos rfl] at hsplit
      cases h
      refine ⟨rfl, r.consumed.length + 1, ?_⟩
      rw [hsplit, ← List.drop_drop, List.drop_left]
      rfl
    · rename_i hopen
      rw [if_neg hopen] at hsplit
      cases h
      refine ⟨rfl, r.consumed.length, ?_⟩
      rw [hsplit, List.drop_left]
  | awaitingClose =>
    simp only [step, hs, stepAwaitingClose, Option.some.injEq] at h
    split at h <;> cases h
    · exact ⟨rfl, _, rfl⟩
    · exact ⟨rfl, hsame⟩
  | inToolCode =>
    simp only [step, hs, stepInToolCode, Option.some.injEq] at h
    split at h
    · cases h
      exact ⟨rfl, _, rfl⟩
    · split at h <;> cases h
      · exact ⟨rfl, hall⟩
      · exact ⟨rfl, hsame⟩
  | inToolResponse =>
    simp only [step, hs, stepInToolResponse, Option.some.injEq] at h
    split at h
    · cases h
      exact ⟨rfl, _, rfl⟩
    · split at h <;> cases h
      · exact ⟨rfl, hall⟩
      · exact ⟨rfl, hsame⟩
  | inTurnHeader =>
    simp only [step, hs, stepInTurnHeader, Option.some.injEq] at h
    split at h
    · cases h
      exact ⟨rfl, _, rfl⟩
    · split at h <;> cases h
      · exact ⟨rfl, hall⟩
      · exact ⟨rfl, hsame⟩

/-- On ASCII text no step panics. -/
theorem step_ascii (fin : Bool) (p : Gemma4ToolCallParser) (h : IsAscii p.buf) :
    ∃ es p' b, step serde fin p = some (es, p', b) ∧ IsAscii p'.buf := by
  have hsome : ∃ r, step serde fin p = some r := by
    cases hs : p.state with
    | inArgs =>
      have hall : IsAscii (p.buf ++ []) := by
        rw [List.append_nil]
        exact h
      obtain ⟨r, hr, _⟩ := scanArgs_append p.argsDepth p.argsInString hall
      rw [step_args serde hs, stepInArgs, hr]
      exact ⟨_, rfl⟩
    | _ =>
      unfold step
      rw [hs]
      exact ⟨_, rfl⟩
  obtain ⟨⟨es, p', b⟩, hr⟩ := hsome
  obtain ⟨_, n, hn⟩ := step_frame serde hr
  refine ⟨es, p', b, hr, ?_⟩
  rw [hn]
  exact h.sub fun c hc => List.mem_of_mem_drop hc

theorem echo_off (h : p.pendingThoughtEcho = false) (fin : Bool) : tryConsumeEchoPrefix p fin = p := by
  unfold tryConsumeEchoPrefix
  rw [h]
  rfl

/-- With the guard down the parser is the machine. -/
theorem stream_machine (h : p.pendingThoughtEcho = false) (chunks : List Text) :
    stream serde p chunks = (machine serde).stream p chunks := by
  induction chunks generalizing p with
  | nil =>
    unfold stream Machine.stream finish
    rw [echo_off h]
  | cons c cs ih =>
    have hpush : push serde p c = (machine serde).push p c := by
      have hfed : ((machine serde).feed p c).pendingThoughtEcho = false := h
      unfold push Machine.push
      rw [echo_off hfed]
      simp only [hfed, Bool.false_eq_true, if_false]
    unfold stream Machine.stream
    rw [hpush]
    cases hr : (machine serde).push p c with
    | none => rfl
    | some r =>
      obtain ⟨es, q⟩ := r
      have hq : q.pendingThoughtEcho = false := by
        unfold Machine.push at hr
        split at hr
        · cases hr
          exact h
        · have hfed : ((machine serde).feed p c).pendingThoughtEcho = false := h
          refine drain_keeps (m := machine serde) (I := fun p => p.pendingThoughtEcho = false) ?_ hfed hr
          intro p es p' b hp hs
          rw [(step_frame serde hs).1]
          exact hp
      simp only [Option.bind_some, ih hq]

/-- On ASCII text the parser never panics. -/
theorem ascii_safe (serde : GemmaSerde) {cs : List Text} (hcs : IsAscii cs.flatten) :
    ∃ es, stream serde .new cs = some es := by
  rw [stream_machine serde rfl]
  apply stream_safe (I := fun p => IsAscii p.buf) ?_ (step_ascii serde) isAscii_nil
  intro p c hp hc
  exact isAscii_append.mpr ⟨hp, hcs.sub fun d hd => List.mem_flatten.mpr ⟨c, hc, hd⟩⟩

/-- On ASCII text the parser never panics, and gives out the same coalesced events
for all chunks of it. -/
theorem gemma4_chunks_agree (serde : GemmaSerde) (chunks : List Text) (hchunks : ∀ c ∈ chunks, c ≠ [])
    (hascii : IsAscii chunks.flatten) :
    ∃ es fs, stream serde .new chunks = some es ∧ stream serde .new [chunks.flatten] = some fs ∧
      ParserEvent.coalesce es = ParserEvent.coalesce fs := by
  obtain ⟨es, hes⟩ := ascii_safe serde hascii
  obtain ⟨fs, hfs⟩ := ascii_safe serde (show IsAscii [chunks.flatten].flatten by
    rw [List.flatten_cons, List.flatten_nil, List.append_nil]
    exact hascii)
  have hgood : Good .new chunks.flatten := hascii
  have hsame := (gemma4_steady serde).chunks ParserEvent.congruent hchunks hgood
  rw [← stream_machine serde rfl, ← stream_machine serde rfl, hes, hfs, Option.map_some, Option.map_some,
    Option.some.injEq] at hsame
  exact ⟨es, fs, hes, hfs, hsame⟩

/-- The serializers on calls without arguments. -/
def emptySerde : GemmaSerde where
  fromStr s := if s = emptyObject then some (.object []) else none
  toString
    | .object [] => some emptyObject
    | _ => none
  firstValue s := if emptyObject.isPrefixOf s then some (.object []) else none
  parseF64 _ := none

/-- A native call, cut inside its open marker and inside its arguments. -/
def cutCall : List Text :=
  [['<', '|', 't', 'o', 'o', 'l', '_'], ['c', 'a', 'l', 'l', '>', 'f', '{'], ['}'], toolCallClose]

theorem cut_call_agrees :
    ∃ es fs, stream emptySerde .new cutCall = some es ∧
      stream emptySerde .new [cutCall.flatten] = some fs ∧
      ParserEvent.coalesce es = ParserEvent.coalesce fs :=
  gemma4_chunks_agree emptySerde cutCall (by decide) (by decide)

end Flambeau.Server.ToolCallParser.Gemma4
