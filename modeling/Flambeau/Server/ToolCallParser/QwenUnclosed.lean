import Flambeau.Server.ToolCallParser.QwenEvents

namespace Flambeau.Server.ToolCallParser.QwenCoder
open Flambeau.Stream Flambeau.Stream.Machine

/-! A parser that is stuck. -/

theorem Stuck.inside {p : QwenCoderXmlParser} (h : Stuck p) : ¬ OutsideCall p := by
  unfold OutsideCall
  rw [h.1]
  decide

theorem closers_markers : Markers '<' [toolClose, functionOpen, parameterOpen] := ⟨by decide, by decide⟩

theorem Stuck.feed {p : QwenCoderXmlParser} (h : Stuck p) (x : Text) : Stuck { p with buf := p.buf ++ x } := by
  obtain ⟨hs, hname, pos, he⟩ := h
  exact ⟨hs, hname, pos, closers_markers.earliest_append he x⟩

/-- Stuck, every drain closes a call once more. -/
theorem Stuck.step {p : QwenCoderXmlParser} (h : Stuck p) (serde : SerdeJson) (fin : Bool) :
    ∃ q, step serde fin p = ([.toolCallClose p.nextIndex], q, false) ∧ Stuck q := by
  obtain ⟨hs, hname, pos, he⟩ := h
  refine ⟨{ p with buf := p.buf.drop pos, nextIndex := p.nextIndex + 1 }, ?_, hs, hname, 0, earliest_at he⟩
  unfold QwenCoder.step stepAwaitingClose
  rw [hs, he]
  dsimp only
  rw [if_neg (by decide), if_neg (by decide), if_pos (List.isEmpty_iff.mpr hname)]

/-! Where no step is left. -/

/-- No step is left before more input comes. -/
def Resting (serde : SerdeJson) (p : QwenCoderXmlParser) : Prop := (step serde false p).2.2 = false

theorem emitUpTo_stops {p : QwenCoderXmlParser} (h : emitUpTo emit p upto = (es, q, false)) : es = [] ∧ q = p := by
  unfold emitUpTo at h
  split at h
  · cases h
  · cases h
    exact ⟨rfl, rfl⟩

theorem stepText_stops (h : stepText p fin = (es, q, false)) : es = [] ∧ q = p := by
  unfold stepText at h
  split at h
  · cases h
  split at h
  · cases h
  · exact emitUpTo_stops h

theorem stepInThink_stops (h : stepInThink p fin = (es, q, false)) : es = [] ∧ q = p := by
  unfold stepInThink at h
  split at h
  · cases h
  · exact emitUpTo_stops h

theorem stepInToolCall_stops (h : stepInToolCall p = (es, q, false)) : es = [] ∧ q = p := by
  unfold stepInToolCall at h
  split at h
  · cases h
  · cases h
    exact ⟨rfl, rfl⟩

/-- What stands in front of a parameter that is not closed is dropped once. -/
theorem stepInFunctionBody_stops (h : stepInFunctionBody serde p = (es, q, false)) :
    es = [] ∧ (∃ buf, q = { p with buf }) ∧ (stepInFunctionBody serde q).2.2 = false := by
  have hall := h
  unfold stepInFunctionBody at h
  split at h
  · cases h
    exact ⟨rfl, ⟨p.buf, rfl⟩, by rw [hall]⟩
  rename_i pos tag he
  dsimp only at h
  split at h
  · rename_i hparam
    split at h
    · rename_i htag
      cases h
      refine ⟨rfl, ⟨_, rfl⟩, ?_⟩
      unfold stepInFunctionBody
      dsimp only
      rw [earliest_at he]
      dsimp only
      rw [if_pos hparam, List.drop_zero, htag]
    · cases h
  · cases h

theorem stepInParameterBody_stops (h : stepInParameterBody p = (es, q, false)) : es = [] ∧ q = p := by
  unfold stepInParameterBody at h
  split at h
  · cases h
    exact ⟨rfl, rfl⟩
  · cases h

theorem stepAwaitingClose_stops (hs : p.state = .awaitingToolCallClose) (hfree : ¬ Stuck p)
    (h : stepAwaitingClose p = (es, q, false)) : es = [] ∧ q = p := by
  unfold stepAwaitingClose at h
  split at h
  · cases h
    exact ⟨rfl, rfl⟩
  rename_i pos tag he
  obtain ⟨_, _, _, _, htag, _⟩ := earliest_some he
  dsimp only at h
  split at h
  · cases h
  rename_i hclose
  split at h
  · cases h
  rename_i hopen
  split at h
  · rename_i hempty
    simp only [List.mem_cons, List.not_mem_nil, or_false] at htag
    have hparam := (htag.resolve_left hclose).resolve_left hopen
    rw [hparam] at he
    exact absurd ⟨hs, List.isEmpty_iff.mp hempty, pos, he⟩ hfree
  · cases h

theorem step_inFunctionBody (serde : SerdeJson) (fin : Bool) (p : QwenCoderXmlParser)
    (hs : p.state = .inFunctionBody) : step serde fin p = stepInFunctionBody serde p := by
  unfold step
  rw [hs]

/-- A step without progress changes no more than the buffer. -/
theorem step_stops {serde : SerdeJson} {p : QwenCoderXmlParser} (hfree : ¬ Stuck p)
    (h : step serde fin p = (es, q, false)) :
    es = [] ∧ (∃ buf, q = { p with buf }) ∧ ¬ Stuck q ∧ (step serde fin q).2.2 = false := by
  have hall := h
  unfold step at h
  split at h
  · obtain ⟨hnone, rfl⟩ := stepText_stops h
    exact ⟨hnone, ⟨q.buf, rfl⟩, hfree, by rw [hall]⟩
  · obtain ⟨hnone, rfl⟩ := stepInThink_stops h
    exact ⟨hnone, ⟨q.buf, rfl⟩, hfree, by rw [hall]⟩
  · obtain ⟨hnone, rfl⟩ := stepInToolCall_stops h
    exact ⟨hnone, ⟨q.buf, rfl⟩, hfree, by rw [hall]⟩
  · rename_i hs
    obtain ⟨hnone, ⟨buf, rfl⟩, hrest⟩ := stepInFunctionBody_stops h
    refine ⟨hnone, ⟨buf, rfl⟩, fun hstuck => ?_, ?_⟩
    · have hawaiting := hs.symm.trans hstuck.1
      cases hawaiting
    · have hstep := step_inFunctionBody serde fin { p with buf } hs
      rw [hstep]
      exact hrest
  · obtain ⟨hnone, rfl⟩ := stepInParameterBody_stops h
    exact ⟨hnone, ⟨q.buf, rfl⟩, hfree, by rw [hall]⟩
  · rename_i hs
    obtain ⟨hnone, rfl⟩ := stepAwaitingClose_stops hs hfree h
    exact ⟨hnone, ⟨q.buf, rfl⟩, hfree, by rw [hall]⟩

/-! The events so far, between two pushes. -/

/-- Calls that are closed, and closes of no call behind them. -/
def Overclosed (es : List ParserEvent) (more : List ParserEvent) : Prop :=
  ∃ front n, es = front ++ more ∧ AnyCalls (.outside 0) front (.outside n) ∧
    ∀ e ∈ more, ∃ i, e = .toolCallClose i

/-- The events before a step. -/
def Told (es : List ParserEvent) (p : QwenCoderXmlParser) : Prop :=
  AnyCalls (.outside 0) es (phase p) ∨ Stuck p ∧ ∃ more, Overclosed es more

/-- The events between two drains. -/
def Between (serde : SerdeJson) (es : List ParserEvent) (p : QwenCoderXmlParser) : Prop :=
  Resting serde p ∧
    (¬ Stuck p ∧ AnyCalls (.outside 0) es (phase p) ∨ Stuck p ∧ ∃ more, Overclosed es more)

theorem Told.stuck (h : Told es p) (hstuck : Stuck p) :
    ∃ more, Overclosed (es ++ [.toolCallClose p.nextIndex]) more := by
  rcases h with h | ⟨-, more, front, n, rfl, hfront, hmore⟩
  · have hphase : phase p = .answered p.nextIndex := by
      unfold phase
      rw [hstuck.1]
    rw [hphase] at h
    refine ⟨[], _, _, (List.append_nil _).symm, h.append (.closes .nil), nofun⟩
  · refine ⟨more ++ [.toolCallClose p.nextIndex], front, n, List.append_assoc .., hfront, fun e he => ?_⟩
    rcases List.mem_append.mp he with he | he
    · exact hmore e he
    · exact ⟨_, List.mem_singleton.mp he⟩

theorem anyStep {serde : SerdeJson} {p : QwenCoderXmlParser} (hfree : ¬ Stuck p)
    (h : step serde fin p = (es, p', b)) : AnyCalls (phase p) es (phase p') := by
  have hleads : AnyCalls (phase p) es (phase p') ∧ CallNamed (fun _ => True) p' :=
    step_leads (fun _ => trivial) (fun _ => trivial) (fun _ _ => trivial) hfree h
  exact hleads.1

theorem drain_between {serde : SerdeJson} {p : QwenCoderXmlParser} (hp : Told es p)
    (h : (machine serde).drain false p = some (fs, q)) : Between serde (es ++ fs) q := by
  rw [Machine.drain] at h
  split at h
  · cases h
  · rename_i hs
    cases h
    replace hs := Option.some.inj hs
    by_cases hstuck : Stuck p
    · obtain ⟨q', hstep, hq'⟩ := hstuck.step serde false
      rw [hstep] at hs
      cases hs
      obtain ⟨_, hnext, _⟩ := hq'.step serde false
      exact ⟨by unfold Resting; rw [hnext], .inr ⟨hq', hp.stuck hstuck⟩⟩
    · obtain ⟨rfl, ⟨buf, rfl⟩, hfree, hrest⟩ := step_stops hstuck hs
      rw [List.append_nil]
      exact ⟨hrest, .inl ⟨hfree, hp.resolve_right fun h => hstuck h.1⟩⟩
  · rename_i p' hs
    have hlt := (machine serde).descends hs
    replace hs := Option.some.inj hs
    obtain ⟨r, hr, heq⟩ := Option.map_eq_some_iff.mp h
    cases heq
    have hfree : ¬ Stuck p := by
      intro hstuck
      obtain ⟨_, hstep, _⟩ := hstuck.step serde false
      rw [hstep] at hs
      cases hs
    rw [← List.append_assoc]
    refine drain_between (.inl ?_) hr
    exact (hp.resolve_right fun h => hfree h.1).append (anyStep hfree hs)
termination_by (machine serde).rank p

theorem push_between {serde : SerdeJson} {p : QwenCoderXmlParser} (hp : Between serde es p)
    (h : (machine serde).push p x = some (fs, q)) : Between serde (es ++ fs) q := by
  unfold Machine.push at h
  split at h
  · cases h
    rw [List.append_nil]
    exact hp
  · refine drain_between ?_ h
    rcases hp.2 with ⟨-, hp⟩ | ⟨hstuck, hp⟩
    · exact .inl hp
    · exact .inr ⟨hstuck.feed x, hp⟩

/-! The end of the input. -/

theorem functionFirst_nil : functionFirst [] = none := by
  have hbare : bareOpen [] = none := bareOpen_prose rfl
  have hopen : findFunctionOpen [] = none := by
    unfold findFunctionOpen
    rw [hbare]
    rfl
  exact hopen

/-- Everything is given out in one step, and the next one stops. -/
theorem drain_all {serde : SerdeJson} {p : QwenCoderXmlParser} (hemit : emit [] = [])
    (hstep : step serde true p = emitUpTo emit p p.buf.length)
    (hempty : step serde true { p with buf := [] } = ([], { p with buf := [] }, false)) :
    (machine serde).drain true p = some (emit p.buf, { p with buf := [] }) := by
  unfold emitUpTo at hstep
  split at hstep
  · rw [List.take_length, List.drop_length] at hstep
    have hfirst : (machine serde).step true p = some (emit p.buf, { p with buf := [] }, true) :=
      congrArg some hstep
    have hlast : (machine serde).step true { p with buf := [] } = some ([], { p with buf := [] }, false) :=
      congrArg some hempty
    rw [drain_step hfirst, drain_stop hlast, Option.map_some, List.append_nil]
  · rename_i hlen
    have hbuf : p.buf = [] := List.eq_nil_of_length_eq_zero (by omega)
    have hlast : (machine serde).step true p = some ([], p, false) := congrArg some hstep
    rw [drain_stop hlast, hbuf, hemit, ← hbuf]

theorem text_finish {serde : SerdeJson} {p : QwenCoderXmlParser} (hs : p.state = .text)
    (hrest : Resting serde p) :
    (machine serde).drain true p = some (emitText p.buf, { p with buf := [] }) := by
  have hany : ∀ r : QwenCoderXmlParser, r.state = .text → ∀ fin, step serde fin r = stepText r fin := by
    intro r hr fin
    unfold step
    rw [hr]
  unfold Resting at hrest
  rw [hany p hs] at hrest
  unfold stepText at hrest
  split at hrest
  · cases hrest
  rename_i hfirst
  split at hrest
  · cases hrest
  rename_i htags
  apply drain_all rfl
  · rw [hany p hs, stepText, hfirst, htags]
    rfl
  · rw [hany { p with buf := [] } hs, stepText, functionFirst_nil]
    rfl

theorem inThink_finish {serde : SerdeJson} {p : QwenCoderXmlParser} (hs : p.state = .inThink)
    (hrest : Resting serde p) :
    (machine serde).drain true p = some (emitThink p.buf, { p with buf := [] }) := by
  have hany : ∀ r : QwenCoderXmlParser, r.state = .inThink → ∀ fin, step serde fin r = stepInThink r fin := by
    intro r hr fin
    unfold step
    rw [hr]
  unfold Resting at hrest
  rw [hany p hs] at hrest
  unfold stepInThink at hrest
  split at hrest
  · cases hrest
  rename_i htag
  apply drain_all rfl
  · rw [hany p hs, stepInThink, htag]
    rfl
  · rw [hany { p with buf := [] } hs]
    rfl

/-- At rest, the end of the input gives out text, and leaves the state. -/
theorem rest_finish {serde : SerdeJson} {p : QwenCoderXmlParser} (hrest : Resting serde p) (hfree : ¬ Stuck p) :
    ∃ es buf, (machine serde).drain true p = some (es, { p with buf }) ∧ AnyCalls (phase p) es (phase p) := by
  by_cases htext : p.state = .text
  · refine ⟨_, _, text_finish htext hrest, ?_⟩
    rw [phase_outside (.inl htext)]
    exact leads_emitText _
  by_cases hthink : p.state = .inThink
  · refine ⟨_, _, inThink_finish hthink hrest, ?_⟩
    rw [phase_outside (.inr (.inl hthink))]
    exact leads_emitThink _
  have hsame : step serde true p = step serde false p := by
    unfold step
    split
    · contradiction
    · contradiction
    all_goals rfl
  unfold Resting at hrest
  rcases hstep : step serde false p with ⟨es, q, b⟩
  rw [hstep] at hrest
  cases hrest
  obtain ⟨rfl, ⟨buf, rfl⟩, -, -⟩ := step_stops hfree hstep
  exact ⟨[], buf, drain_stop (congrArg some (hsame.trans hstep)), .nil⟩

/-- How the stream ends, by the state that is flushed. -/
theorem finish_ends {serde : SerdeJson} {p : QwenCoderXmlParser} (hp : Between serde es p) :
    ∃ fs q, (machine serde).drain true p = some (fs, q) ∧
      (OutsideCall q → ∃ n, AnyCalls (.outside 0) (es ++ (fs ++ (flush q).1)) (.outside n)) ∧
      (¬ OutsideCall q → Unclosed (es ++ (fs ++ (flush q).1))) := by
  obtain ⟨hrest, ⟨hfree, hp⟩ | ⟨hstuck, more, hover⟩⟩ := hp
  · obtain ⟨fs, buf, hdrain, hfs⟩ := rest_finish hrest hfree
    refine ⟨fs, _, hdrain, fun hout => ?_, fun hin => ?_⟩
    · have hphase : phase p = .outside p.nextIndex := phase_outside hout
      have hflush : AnyCalls (phase p) (flush { p with buf }).1 (phase p) := by
        rw [hphase]
        unfold flush
        split
        · exact .nil
        · exact leads_emitText _
      have hall := hp.append (hfs.append hflush)
      rw [hphase] at hall
      exact ⟨_, hall⟩
    · have hfront := hp.append hfs
      rw [← List.append_assoc]
      have hphase : phase p = .opened p.nextIndex ∨ phase p = .answered p.nextIndex := phase_inside hin
      rcases hphase with hphase | hphase
      · rw [hphase] at hfront
        exact .opened hfront (flush_texts _)
      · rw [hphase] at hfront
        exact .answered hfront (flush_texts _)
  · obtain ⟨q, hstep, hq⟩ := hstuck.step serde true
    refine ⟨_, q, drain_stop (congrArg some hstep), fun hout => absurd hout hq.inside, fun _ => ?_⟩
    obtain ⟨front, n, rfl, hfront, hmore⟩ := hover
    rw [← List.append_assoc, List.append_assoc front]
    refine .overclosed hfront (List.append_ne_nil_of_right_ne_nil _ (List.cons_ne_nil _ _)) ?_ (flush_texts q)
    intro e he
    rcases List.mem_append.mp he with he | he
    · exact hmore e he
    · exact ⟨_, List.mem_singleton.mp he⟩

theorem stream_ends {serde : SerdeJson} {p : QwenCoderXmlParser} (hp : Between serde es p)
    (h : (machine serde).stream p chunks = some fs) :
    (Throughout (machine serde) (fun _ => True) OutsideCall p chunks →
      ∃ n, AnyCalls (.outside 0) (es ++ fs) (.outside n)) ∧
    (¬ Throughout (machine serde) (fun _ => True) OutsideCall p chunks → Unclosed (es ++ fs)) := by
  induction chunks generalizing p es fs with
  | nil =>
    obtain ⟨ds, q, hdrain, hout, hin⟩ := finish_ends hp
    have hfs : ds ++ (flush q).1 = fs := by
      simp only [Machine.stream, Machine.finish, hdrain, Option.map_some, Option.some.injEq] at h
      exact h
    rw [← hfs]
    constructor
    · intro hall
      exact hout (hall.2 _ _ hdrain)
    · intro hall
      refine hin fun hq => hall ⟨fun _ _ => trivial, fun es' q' hd => ?_⟩
      rw [hdrain] at hd
      cases hd
      exact hq
  | cons c cs ih =>
    obtain ⟨⟨ds, q⟩, hpush, hrest⟩ := Option.bind_eq_some_iff.mp h
    obtain ⟨gs, hgs, rfl⟩ := Option.map_eq_some_iff.mp hrest
    obtain ⟨hout, hin⟩ := ih (push_between hp hpush) hgs
    rw [← List.append_assoc]
    constructor
    · intro hall
      exact hout (hall.2 _ _ hpush)
    · intro hall
      refine hin fun hlater => hall ⟨fun _ _ _ => trivial, fun es' q' hd => ?_⟩
      rw [hpush] at hd
      cases hd
      exact hlater

theorem start_between (serde : SerdeJson) (inThink : Bool) : Between serde [] (start inThink) := by
  obtain ⟨hout, hzero⟩ := start_outside inThink
  refine ⟨?_, .inl ⟨fun h => h.inside hout, ?_⟩⟩
  · cases inThink with
    | false =>
      change (stepText _ false).2.2 = false
      rw [stepText, show functionFirst (start false).buf = none from functionFirst_nil]
      rfl
    | true => rfl
  · rw [phase_outside hout, hzero]
    exact .nil

end Flambeau.Server.ToolCallParser.QwenCoder
