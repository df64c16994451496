import Flambeau.Server.ToolCallParser.CallEvents
import Flambeau.Server.ToolCallParser.QwenMachine

namespace Flambeau.Server.ToolCallParser.QwenCoder
open Flambeau.Stream Flambeau.Stream.Machine Flambeau.Runtime.JsonSchema

/-- Where the events stand in a state. -/
def phase (p : QwenCoderXmlParser) : Phase :=
  match p.state with
  | .inFunctionBody | .inParameterBody => .opened p.nextIndex
  | .awaitingToolCallClose => .answered p.nextIndex
  | .text | .inThink | .inToolCall => .outside p.nextIndex

/-- The function that a step opens. -/
def opens (p : QwenCoderXmlParser) : Option FunctionOpen :=
  match p.state with
  | .text => functionFirst p.buf
  | .inToolCall => findFunctionOpen p.buf
  | _ => none

/-- A step opens no function without a name, as `<function=>` is. -/
def OpensNamed (p : QwenCoderXmlParser) : Prop := ∀ o, opens p = some o → o.name ≠ []

/-- No call is open. -/
def OutsideCall (p : QwenCoderXmlParser) : Prop := p.state = .text ∨ p.state = .inThink ∨ p.state = .inToolCall

/-- Behind a call without a name the parser stands in front of a parameter: it closes the
call, and stays. -/
def Stuck (p : QwenCoderXmlParser) : Prop :=
  p.state = .awaitingToolCallClose ∧ p.currentName = [] ∧
    ∃ pos, earliest [toolClose, functionOpen, parameterOpen] p.buf = some (pos, parameterOpen)

theorem phase_outside {p : QwenCoderXmlParser} (h : OutsideCall p) : phase p = .outside p.nextIndex := by
  unfold phase
  rcases h with h | h | h <;> rw [h]

/-! What a step gives out, for any notion of a name and of arguments. -/

section Steps

variable {named valid : Text → Prop}

/-- An open call has a name. -/
def CallNamed (named : Text → Prop) (p : QwenCoderXmlParser) : Prop := ¬ OutsideCall p → named p.currentName

theorem OutsideCall.callNamed {p : QwenCoderXmlParser} (h : OutsideCall p) : CallNamed named p :=
  fun hin => absurd h hin

/-- A state inside a call keeps the name. -/
theorem CallNamed.keep {p p' : QwenCoderXmlParser} (hp : CallNamed named p) (hin : ¬ OutsideCall p)
    (h : p'.currentName = p.currentName) : CallNamed named p' := by
  intro _
  rw [h]
  exact hp hin

theorem openFunction_leads {p : QwenCoderXmlParser} (hp : OutsideCall p) (hname : named o.name) :
    Leads named valid (phase p) (openFunction p o).1 (phase (openFunction p o).2) ∧
      CallNamed named (openFunction p o).2 := by
  rw [phase_outside hp]
  exact ⟨.opens hname .nil, fun _ => hname⟩

theorem emitUpTo_leads {p : QwenCoderXmlParser} (hp : OutsideCall p)
    (hemit : ∀ s, Leads named valid (.outside p.nextIndex) (emit s) (.outside p.nextIndex))
    (h : emitUpTo emit p upto = (es, p', b)) : Leads named valid (phase p) es (phase p') ∧ CallNamed named p' := by
  unfold emitUpTo at h
  split at h
  · cases h
    have hp' : OutsideCall { p with buf := p.buf.drop upto } := hp
    rw [phase_outside hp, phase_outside hp']
    exact ⟨hemit _, hp'.callNamed⟩
  · cases h
    exact ⟨.nil, hp.callNamed⟩

theorem stepText_leads {p : QwenCoderXmlParser} (hs : p.state = .text)
    (hname : ∀ o, opens p = some o → named o.name) (h : stepText p fin = (es, p', b)) :
    Leads named valid (phase p) es (phase p') ∧ CallNamed named p' := by
  have hp : OutsideCall p := .inl hs
  unfold stepText at h
  split at h
  · rename_i o ho
    cases h
    have hopens : opens p = some o := by
      unfold opens
      rw [hs]
      exact ho
    obtain ⟨hleads, hnamed⟩ := @openFunction_leads _ valid _ _ hp (hname o hopens)
    rw [phase_outside hp] at hleads ⊢
    exact ⟨(leads_emitText _).append hleads, hnamed⟩
  split at h
  · rename_i pos tag _
    cases h
    have hp' : OutsideCall { p with
        buf := p.buf.drop (pos + tag.length)
        state := if tag = toolOpen then .inToolCall else .inThink } := by
      dsimp only [OutsideCall]
      split
      · exact .inr (.inr rfl)
      · exact .inr (.inl rfl)
    rw [phase_outside hp, phase_outside hp']
    exact ⟨leads_emitText _, hp'.callNamed⟩
  · exact emitUpTo_leads hp leads_emitText h

theorem stepInThink_leads {p : QwenCoderXmlParser} (hs : p.state = .inThink)
    (h : stepInThink p fin = (es, p', b)) : Leads named valid (phase p) es (phase p') ∧ CallNamed named p' := by
  have hp : OutsideCall p := .inr (.inl hs)
  unfold stepInThink at h
  split at h
  · rename_i pos _
    cases h
    have hp' : OutsideCall { p with buf := p.buf.drop (pos + thinkClose.length), state := .text } := .inl rfl
    rw [phase_outside hp, phase_outside hp']
    exact ⟨leads_emitThink _, hp'.callNamed⟩
  · exact emitUpTo_leads hp leads_emitThink h

theorem stepInToolCall_leads {p : QwenCoderXmlParser} (hs : p.state = .inToolCall)
    (hname : ∀ o, opens p = some o → named o.name) (h : stepInToolCall p = (es, p', b)) :
    Leads named valid (phase p) es (phase p') ∧ CallNamed named p' := by
  have hp : OutsideCall p := .inr (.inr hs)
  unfold stepInToolCall at h
  split at h
  · rename_i o ho
    cases h
    have hopens : opens p = some o := by
      unfold opens
      rw [hs]
      exact ho
    exact openFunction_leads hp (hname o hopens)
  · cases h
    exact ⟨.nil, hp.callNamed⟩

theorem stepInFunctionBody_leads {serde : SerdeJson} (hargs : ∀ fields, valid (serde.toStringOr (.object fields)))
    {p : QwenCoderXmlParser} (hs : p.state = .inFunctionBody) (hp : CallNamed named p)
    (h : stepInFunctionBody serde p = (es, p', b)) :
    Leads named valid (phase p) es (phase p') ∧ CallNamed named p' := by
  have hin : ¬ OutsideCall p := by
    unfold OutsideCall
    rw [hs]
    decide
  have hphase : phase p = .opened p.nextIndex := by
    unfold phase
    rw [hs]
  unfold stepInFunctionBody at h
  split at h
  · cases h
    exact ⟨.nil, hp⟩
  dsimp only at h
  split at h
  · split at h
    · cases h
      refine ⟨?_, hp.keep hin rfl⟩
      unfold phase
      rw [hs]
      exact .nil
    · cases h
      rw [hphase]
      exact ⟨.nil, hp.keep hin rfl⟩
  · cases h
    rw [hphase]
    exact ⟨.arguments (hargs _) .nil, hp.keep hin rfl⟩

theorem stepInParameterBody_leads {p : QwenCoderXmlParser} (hs : p.state = .inParameterBody)
    (hp : CallNamed named p) (h : stepInParameterBody p = (es, p', b)) :
    Leads named valid (phase p) es (phase p') ∧ CallNamed named p' := by
  have hin : ¬ OutsideCall p := by
    unfold OutsideCall
    rw [hs]
    decide
  have hphase : phase p = .opened p.nextIndex := by
    unfold phase
    rw [hs]
  unfold stepInParameterBody at h
  split at h
  · cases h
    exact ⟨.nil, hp⟩
  · cases h
    rw [hphase]
    exact ⟨.nil, hp.keep hin rfl⟩

theorem stepAwaitingClose_leads {p : QwenCoderXmlParser} (hs : p.state = .awaitingToolCallClose)
    (hp : CallNamed named p) (hfree : ¬ Stuck p) (h : stepAwaitingClose p = (es, p', b)) :
    Leads named valid (phase p) es (phase p') ∧ CallNamed named p' := by
  have hin : ¬ OutsideCall p := by
    unfold OutsideCall
    rw [hs]
    decide
  have hphase : phase p = .answered p.nextIndex := by
    unfold phase
    rw [hs]
  unfold stepAwaitingClose at h
  split at h
  · cases h
    exact ⟨.nil, hp⟩
  rename_i pos tag he
  obtain ⟨_, _, _, _, htag, _⟩ := earliest_some he
  dsimp only at h
  split at h
  · cases h
    rw [hphase]
    exact ⟨.closes .nil, OutsideCall.callNamed (.inl rfl)⟩
  rename_i hclose
  split at h
  · cases h
    rw [hphase]
    exact ⟨.closes .nil, OutsideCall.callNamed (.inr (.inr rfl))⟩
  rename_i hopen
  split at h
  · rename_i hempty
    simp only [List.mem_cons, List.not_mem_nil, or_false] at htag
    have hparam := (htag.resolve_left hclose).resolve_left hopen
    rw [hparam] at he
    exact absurd ⟨hs, List.isEmpty_iff.mp hempty, pos, he⟩ hfree
  · cases h
    rw [hphase]
    exact ⟨.closes (.opens (hp hin) .nil), hp.keep hin rfl⟩

theorem step_leads {serde : SerdeJson} (hargs : ∀ fields, valid (serde.toStringOr (.object fields)))
    {p : QwenCoderXmlParser} (hp : CallNamed named p) (hname : ∀ o, opens p = some o → named o.name)
    (hfree : ¬ Stuck p) (h : step serde fin p = (es, p', b)) :
    Leads named valid (phase p) es (phase p') ∧ CallNamed named p' := by
  unfold step at h
  split at h
  · rename_i hs
    exact stepText_leads hs hname h
  · rename_i hs
    exact stepInThink_leads hs h
  · rename_i hs
    exact stepInToolCall_leads hs hname h
  · rename_i hs
    exact stepInFunctionBody_leads hargs hs hp h
  · rename_i hs
    exact stepInParameterBody_leads hs hp h
  · rename_i hs
    exact stepAwaitingClose_leads hs hp hfree h

end Steps

/-! Named calls with an object text. -/

abbrev Calls : Phase → List ParserEvent → Phase → Prop := Leads (· ≠ []) IsObjectText

/-- A named call does not get stuck. -/
theorem CallNamed.free {p : QwenCoderXmlParser} (hp : CallNamed (· ≠ []) p) : ¬ Stuck p := by
  rintro ⟨hs, hname, -⟩
  refine hp ?_ hname
  unfold OutsideCall
  rw [hs]
  decide

theorem openFunction_unnamed {p : QwenCoderXmlParser} (hname : ¬ o.name ≠ []) (h : Calls a (openFunction p o).1 c) :
    False := by
  cases h with
  | opens hnamed _ => exact hname hnamed

/-- A step that opens a function without a name is not read. -/
theorem step_unnamed {serde : SerdeJson} {p : QwenCoderXmlParser} (hbad : ¬ OpensNamed p)
    (h : step serde fin p = (es, p', b)) : ¬ Calls a es c := by
  intro hcalls
  unfold OpensNamed opens at hbad
  unfold step at h
  split at h <;> rename_i hs <;> rw [hs] at hbad
  case h_1 =>
    simp only [Classical.not_forall] at hbad
    obtain ⟨o, ho, hname⟩ := hbad
    unfold stepText at h
    rw [ho] at h
    cases h
    obtain ⟨_, _, hopened⟩ := hcalls.split
    exact openFunction_unnamed hname hopened
  case h_3 =>
    simp only [Classical.not_forall] at hbad
    obtain ⟨o, ho, hname⟩ := hbad
    unfold stepInToolCall at h
    rw [ho] at h
    cases h
    exact openFunction_unnamed hname hcalls
  all_goals exact hbad nofun

/-- A stream that ends outside a call. -/
abbrev Outside (a : Phase) : Prop := ∃ n, a = .outside n

theorem flush_calls {p : QwenCoderXmlParser} (hp : OutsideCall p) :
    ∃ c, Outside c ∧ Calls (phase p) (flush p).1 c := by
  rw [phase_outside hp]
  refine ⟨_, ⟨p.nextIndex, rfl⟩, ?_⟩
  unfold flush
  split
  · exact .nil
  · exact leads_emitText _

theorem flush_texts (p : QwenCoderXmlParser) : ∀ e ∈ (flush p).1, ∃ s, e = .textDelta s := by
  intro e he
  unfold flush at he
  split at he
  · cases he
  · exact emitText_texts he

theorem phase_inside {p : QwenCoderXmlParser} (h : ¬ OutsideCall p) :
    phase p = .opened p.nextIndex ∨ phase p = .answered p.nextIndex := by
  unfold OutsideCall at h
  unfold phase
  cases hs : p.state <;> simp [hs] at h ⊢

theorem flush_cut {p : QwenCoderXmlParser} (hp : ¬ OutsideCall p) (hc : Outside c) :
    ¬ Calls (phase p) (flush p).1 c := by
  obtain ⟨n, rfl⟩ := hc
  intro hcalls
  have hevents := flush_texts p
  have hphase := phase_inside hp
  generalize phase p = a at hcalls hphase
  generalize (flush p).1 = es at hcalls hevents
  cases hcalls with
  | nil => simp at hphase
  | text => simp at hphase
  | think => simp at hphase
  | opens => simp at hphase
  | arguments =>
    obtain ⟨s, hs⟩ := hevents _ List.mem_cons_self
    cases hs
  | closes =>
    obtain ⟨s, hs⟩ := hevents _ List.mem_cons_self
    cases hs

theorem judged {serde : SerdeJson} (hserde : serde.Objects) :
    Judged (machine serde) Calls phase (CallNamed (· ≠ [])) OpensNamed OutsideCall Outside where
  reads := leads_reads _ _
  feed_phase _ _ := rfl
  feed := id
  good hp hgood h := step_leads hserde.toStringOr hp hgood hp.free (Option.some.inj h)
  bad _ hbad h := step_unnamed hbad (Option.some.inj h)
  ended _ := flush_calls
  cut _ := flush_cut

/-- `new` or `new_in_think`. -/
def start (inThink : Bool) : QwenCoderXmlParser :=
  if inThink then .newInThink else .new

theorem start_outside (inThink : Bool) :
    OutsideCall (start inThink) ∧ (start inThink).nextIndex = 0 := by
  cases inThink with
  | false => exact ⟨.inl rfl, rfl⟩
  | true => exact ⟨.inr (.inl rfl), rfl⟩

/-- No chunk is a panic. -/
theorem stream_total (serde : SerdeJson) (p : QwenCoderXmlParser) (chunks : List Text) :
    ∃ es, (machine serde).stream p chunks = some es :=
  stream_safe (I := fun _ => True) (fun _ _ _ _ => trivial) (fun _ _ _ => ⟨_, _, _, rfl, trivial⟩) trivial

/-- The events of any chunks are well formed just when every open has a name and the
input does not end in a call. -/
theorem qwen_wellFormed_iff (serde : SerdeJson) (hserde : serde.Objects) (inThink : Bool) (chunks : List Text) :
    ∃ es, (machine serde).stream (start inThink) chunks = some es ∧
      (WellFormed (· ≠ []) IsObjectText es ↔
        Throughout (machine serde) OpensNamed OutsideCall (start inThink) chunks) := by
  obtain ⟨es, hes⟩ := stream_total serde (start inThink) chunks
  obtain ⟨hout, hzero⟩ := start_outside inThink
  refine ⟨es, hes, ?_⟩
  rw [← (judged hserde).stream hout.callNamed hes, phase_outside hout, hzero]
  constructor
  · rintro ⟨n, hn⟩
    exact ⟨_, ⟨n, rfl⟩, hn⟩
  · rintro ⟨_, ⟨n, rfl⟩, hn⟩
    exact ⟨n, hn⟩

/-- `serde_json` where there are no parameters. -/
def emptySerde : SerdeJson where
  fromStr s := if s = emptyObject then some (.object []) else none
  toString
    | .object [] => some emptyObject
    | _ => none

theorem emptySerde_objects : emptySerde.Objects := by
  intro fields s h
  cases fields with
  | nil =>
    cases h
    exact emptyObject_isObjectText
  | cons f fields => cases h

/-- The open of a function without parameters. -/
def openF : Text := functionOpen ++ ['f', '>']

theorem closed_call_wellFormed : ∃ es,
    (machine emptySerde).stream (start false) [toolOpen ++ openF, functionClose ++ toolClose] = some es ∧
      (WellFormed (· ≠ []) IsObjectText es ↔
        Throughout (machine emptySerde) OpensNamed OutsideCall (start false)
          [toolOpen ++ openF, functionClose ++ toolClose]) :=
  qwen_wellFormed_iff emptySerde emptySerde_objects false [toolOpen ++ openF, functionClose ++ toolClose]

theorem functionFirst_openF : functionFirst openF = some ⟨0, 12, ['f']⟩ := by
  have hbare : bareOpen openF = none := by
    rw [bareOpen_tag (show find ['<'] openF = some 0 by decide) (show find ['>'] (openF.drop 0) = some 11 by decide),
      if_neg (by decide), bareOpen_prose (by decide)]
    rfl
  have hcanonical : canonicalOpen openF = some ⟨0, 12, ['f']⟩ := rfl
  have htags : earliest textStateOpenTags openF = none := by decide
  rw [functionFirst, htags]
  dsimp only
  rw [findFunctionOpen, hcanonical, hbare]

theorem push_openF (serde : SerdeJson) : (machine serde).push (start false) openF =
    some ([.toolCallOpen 0 ['f']], ⟨.inFunctionBody, [], 0, ['f'], [], []⟩) := by
  have hstep : (machine serde).step false { QwenCoderXmlParser.new with buf := openF } =
      some ([.toolCallOpen 0 ['f']], ⟨.inFunctionBody, [], 0, ['f'], [], []⟩, true) := by
    change some (stepText _ _) = _
    rw [stepText, functionFirst_openF]
    rfl
  unfold push
  rw [if_neg (by decide)]
  exact (drain_step hstep).trans (by rw [drain_stop rfl]; rfl)

theorem finish_openF (serde : SerdeJson) : (machine serde).finish ⟨.inFunctionBody, [], 0, ['f'], [], []⟩ =
    some ([], ⟨.inFunctionBody, [], 0, ['f'], [], []⟩) := by
  unfold finish
  rw [drain_stop rfl]
  rfl

theorem stream_openF (serde : SerdeJson) :
    (machine serde).stream (start false) [openF] = some [.toolCallOpen 0 ['f']] := by
  simp only [stream, push_openF, finish_openF, Option.bind_some, Option.map_some]
  rfl

/-- A call that the input ends in is opened and never closed. -/
theorem cut_call_open : ¬ ∀ serde : SerdeJson, serde.Objects → ∀ inThink chunks es,
    (machine serde).stream (start inThink) chunks = some es → WellFormed (· ≠ []) IsObjectText es := by
  intro h
  obtain ⟨n, hn⟩ := h emptySerde emptySerde_objects false [openF] _ (stream_openF emptySerde)
  cases hn with
  | opens _ hn => cases hn

end Flambeau.Server.ToolCallParser.QwenCoder
