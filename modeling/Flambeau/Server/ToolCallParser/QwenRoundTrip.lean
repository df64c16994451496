import Flambeau.Server.ToolCallParser.Gemma4Chunks
import Flambeau.Server.ToolCallParser.QwenMachine
import Flambeau.Server.ToolCallParser.RoundTrip

namespace Flambeau.Server.ToolCallParser.QwenCoder
open Flambeau.Stream Flambeau.Stream.Machine Flambeau.Runtime.JsonSchema

/-! Calls in the template's form. -/

structure Call where
  name : Text
  params : List (Name × Text)

/-- What the tags leave room for: no `>` in a name or a key, no `</parameter>` in a value, and each
key once. -/
structure Call.Fits (c : Call) : Prop where
  name : '>' ∉ c.name
  keys : ∀ p ∈ c.params, '>' ∉ p.1
  values : ∀ p ∈ c.params, ¬ parameterClose <:+: p.2
  nodup : (c.params.map (·.1)).Nodup

def Call.fields (params : List (Name × Text)) : List (Name × Value) := params.map fun p => (p.1, .string p.2)

/-- The blocks of the parameters, the end of the call, and what follows it. -/
def renderParams : List (Name × Text) → Text → Text
  | [], rest => functionClose ++ '\n' :: (toolClose ++ rest)
  | (key, value) :: params, rest =>
    parameterOpen ++ (key ++ '>' :: '\n' :: (value ++ '\n' :: (parameterClose ++ '\n' :: renderParams params rest)))

/-- From the tag of the function on. -/
def renderFunction (c : Call) (rest : Text) : Text :=
  functionOpen ++ (c.name ++ '>' :: '\n' :: renderParams c.params rest)

/-- Calls with what stands in front of each, and what follows the last. -/
def renderCalls : List (Text × Call) → Text → Text
  | [], tail => tail
  | (gap, c) :: calls, tail => gap ++ (toolOpen ++ '\n' :: renderFunction c (renderCalls calls tail))

def Call.object (c : Call) : CallObject := ⟨c.name, Call.fields c.params⟩

/-- The calls without what stands around them. -/
def objects (calls : List (Text × Call)) : List CallObject := calls.map fun g => g.2.object

/-- Calls that fit, white space around them. -/
structure Sound (calls : List (Text × Call)) (tail : Text) : Prop where
  fits : ∀ g ∈ calls, g.2.Fits
  gaps : ∀ g ∈ calls, Blank g.1
  ending : Blank tail

theorem Sound.rest (h : Sound (g :: calls) tail) : Sound calls tail :=
  ⟨fun x hx => h.fits x (List.mem_cons_of_mem g hx), fun x hx => h.gaps x (List.mem_cons_of_mem g hx), h.ending⟩

/-! Where a parser stands in the text of some calls. -/

inductive At (serde : SerdeJson) (p : QwenCoderXmlParser) (x : Text) : List ParserEvent → Prop
  | between (hs : p.state = .text) (hsound : Sound calls tail) (h : p.buf ++ x = renderCalls calls tail) :
      At serde p x (callEvents serde p.nextIndex (objects calls))
  | opened (hs : p.state = .inToolCall) (hfits : c.Fits) (hsound : Sound calls tail)
      (h : p.buf ++ x = '\n' :: renderFunction c (renderCalls calls tail)) :
      At serde p x (callEvents serde p.nextIndex (c.object :: objects calls))
  | body (hs : p.state = .inFunctionBody) (hfits : Call.Fits ⟨[], params⟩) (hsound : Sound calls tail)
      (hdone : p.currentParams = Call.fields done) (hnodup : ((done ++ params).map (·.1)).Nodup) (hw : Blank w)
      (h : p.buf ++ x = w ++ renderParams params (renderCalls calls tail)) :
      At serde p x (.toolCallArgumentsDelta p.nextIndex (serde.toStringOr (.object (Call.fields (done ++ params)))) ::
        .toolCallClose p.nextIndex :: callEvents serde (p.nextIndex + 1) (objects calls))
  | value (hs : p.state = .inParameterBody) (hfits : Call.Fits ⟨[], (p.currentParamKey, v) :: params⟩)
      (hsound : Sound calls tail) (hdone : p.currentParams = Call.fields done)
      (hnodup : ((done ++ (p.currentParamKey, v) :: params).map (·.1)).Nodup)
      (h : p.buf ++ x =
        '\n' :: (v ++ '\n' :: (parameterClose ++ '\n' :: renderParams params (renderCalls calls tail)))) :
      At serde p x (.toolCallArgumentsDelta p.nextIndex
          (serde.toStringOr (.object (Call.fields (done ++ (p.currentParamKey, v) :: params)))) ::
        .toolCallClose p.nextIndex :: callEvents serde (p.nextIndex + 1) (objects calls))
  | closing (hs : p.state = .awaitingToolCallClose) (hsound : Sound calls tail)
      (h : p.buf ++ x = '\n' :: (toolClose ++ renderCalls calls tail)) :
      At serde p x (.toolCallClose p.nextIndex :: callEvents serde (p.nextIndex + 1) (objects calls))

/-- A step of a parser that shows the front of what it has to. -/
def Passes (serde : SerdeJson) (fin : Bool) (p : QwenCoderXmlParser) (x : Text) (o : List ParserEvent) : Prop :=
  ∃ es p' b o', step serde fin p = (es, p', b) ∧ o = callsOf es ++ o' ∧ At serde p' x o' ∧
    (fin = true → b = false → o' = callsOf (flush p').1)

theorem flush_noCalls (p : QwenCoderXmlParser) : callsOf (flush p).1 = [] := by
  unfold flush
  split
  · rfl
  · exact callsOf_text _

/-- A parser that waits has input to come. -/
theorem passes_wait (hstep : step serde fin p = ([], p', false)) (hat : At serde p' x o) (hx : fin = true → x = [])
    (hmore : x ≠ []) : Passes serde fin p x o :=
  ⟨[], p', false, o, hstep, rfl, hat, fun hf => absurd (hx hf) hmore⟩

theorem Call.Fits.later {n : Text} {kv : Name × Text} {ps : List (Name × Text)} (h : Call.Fits ⟨n, kv :: ps⟩) :
    Call.Fits ⟨n, ps⟩ where
  name := h.name
  keys := fun p hp => h.keys p (List.mem_cons_of_mem kv hp)
  values := fun p hp => h.values p (List.mem_cons_of_mem kv hp)
  nodup := (List.nodup_cons.mp h.nodup).2

theorem fields_keys (params : List (Name × Text)) : (Call.fields params).map (·.1) = params.map (·.1) := by
  rw [Call.fields, List.map_map]
  rfl

/-- The template's newlines, and no others. -/
theorem stripNewlines_framed (v : Text) : stripNewlines ('\n' :: (v ++ ['\n'])) = v := by
  simp [stripNewlines]

/-- A close tag between newlines stands in the value. -/
theorem infix_unframed (h : parameterClose <:+: '\n' :: (v ++ ['\n'])) : parameterClose <:+: v := by
  rcases List.infix_cons_iff.mp h with ⟨r, hr⟩ | h
  · rw [parameterClose, List.cons_append, List.cons.injEq] at hr
    exact absurd hr.1 (by decide)
  · rcases List.infix_concat_iff.mp h with ⟨r, hr⟩ | h
    · have hlast := congrArg List.getLast? hr
      simp [parameterClose] at hlast
    · exact h

section
variable {serde : SerdeJson} {p : QwenCoderXmlParser} {x : Text} {calls : List (Text × Call)} {tail : Text} {fin : Bool}

theorem closing_passes (hs : p.state = .awaitingToolCallClose) (hsound : Sound calls tail)
    (h : p.buf ++ x = '\n' :: (toolClose ++ renderCalls calls tail)) (hx : fin = true → x = []) :
    Passes serde fin p x (.toolCallClose p.nextIndex :: callEvents serde (p.nextIndex + 1) (objects calls)) := by
  have hmarkers : Markers '<' [toolClose, functionOpen, parameterOpen] := ⟨by decide, by decide⟩
  have hwhole : earliest [toolClose, functionOpen, parameterOpen] (p.buf ++ x) = some (1, toolClose) := by
    rw [h]
    exact hmarkers.earliest_here (w := ['\n']) List.mem_cons_self (by decide) _
  have hall : p.buf ++ x = ('\n' :: toolClose) ++ renderCalls calls tail := h
  rcases hmarkers.earliest_cut hwhole with ⟨he, hle⟩ | ⟨he, hlt⟩
  · have hstep : step serde fin p = ([.toolCallClose p.nextIndex],
        { p with
          buf := p.buf.drop (1 + toolClose.length)
          nextIndex := p.nextIndex + 1
          state := .text }, true) := by
      simp only [step, hs, stepAwaitingClose, he, if_true]
    refine ⟨_, _, _, _, hstep, rfl, ?_, nofun⟩
    refine .between rfl hsound (cut_behind hall ?_)
    change toolClose.length + 1 ≤ _
    omega
  · have hstep : step serde fin p = ([], p, false) := by
      simp only [step, hs, stepAwaitingClose, he]
    refine passes_wait hstep (.closing hs hsound h) hx (cut_short hall ?_)
    change _ < toolClose.length + 1
    omega

theorem value_passes (hs : p.state = .inParameterBody) (hfits : Call.Fits ⟨[], (p.currentParamKey, v) :: params⟩)
    (hsound : Sound calls tail) (hdone : p.currentParams = Call.fields done)
    (hnodup : ((done ++ (p.currentParamKey, v) :: params).map (·.1)).Nodup)
    (h : p.buf ++ x =
      '\n' :: (v ++ '\n' :: (parameterClose ++ '\n' :: renderParams params (renderCalls calls tail))))
    (hx : fin = true → x = []) :
    Passes serde fin p x (.toolCallArgumentsDelta p.nextIndex
        (serde.toStringOr (.object (Call.fields (done ++ (p.currentParamKey, v) :: params)))) ::
      .toolCallClose p.nextIndex :: callEvents serde (p.nextIndex + 1) (objects calls)) := by
  have hmarkers : Markers '<' [parameterClose] := ⟨by decide, by decide⟩
  have hvalue : ¬ parameterClose <:+: '\n' :: (v ++ ['\n']) :=
    fun hin => hfits.values _ List.mem_cons_self (infix_unframed hin)
  have hshape : p.buf ++ x = '\n' :: (v ++ ['\n']) ++
      (parameterClose ++ '\n' :: renderParams params (renderCalls calls tail)) := by
    rw [h]
    simp
  have hwhole : find parameterClose (p.buf ++ x) = some ('\n' :: (v ++ ['\n'])).length := by
    rw [hshape]
    exact hmarkers.find_here hvalue _
  have hall : p.buf ++ x = ('\n' :: (v ++ ['\n']) ++ parameterClose) ++
      '\n' :: renderParams params (renderCalls calls tail) := by rw [hshape, List.append_assoc]
  rcases hmarkers.find_cut hwhole with ⟨hf, hle⟩ | ⟨hf, hlt⟩
  · have htake : p.buf.take ('\n' :: (v ++ ['\n'])).length = '\n' :: (v ++ ['\n']) := by
      have hfront := congrArg (List.take ('\n' :: (v ++ ['\n'])).length) hshape
      rw [List.take_append_of_le_length (by omega), List.take_left] at hfront
      exact hfront
    have hnew : p.currentParamKey ∉ p.currentParams.map (·.1) := by
      rw [hdone, fields_keys]
      rw [List.map_append, List.map_cons] at hnodup
      exact fun hmem => (List.nodup_append.mp hnodup).2.2 _ hmem _ List.mem_cons_self rfl
    have hstep : step serde fin p = ([],
        { p with
          buf := p.buf.drop (('\n' :: (v ++ ['\n'])).length + parameterClose.length)
          currentParamKey := []
          currentParams := p.currentParams ++ [(p.currentParamKey, .string v)]
          state := .inFunctionBody }, true) := by
      simp only [step, hs, stepInParameterBody, hf, htake, stripNewlines_framed, Gemma4.mapInsert_new hnew]
    refine ⟨_, _, _, _, hstep, rfl, ?_, nofun⟩
    have hmove : done ++ (p.currentParamKey, v) :: params = (done ++ [(p.currentParamKey, v)]) ++ params := by simp
    rw [hmove]
    have hrest := cut_behind hall (by rw [List.length_append]; exact hle)
    rw [List.length_append] at hrest
    refine .body rfl hfits.later hsound ?_ (hmove ▸ hnodup) (w := ['\n']) ?_ hrest
    · rw [hdone, Call.fields, Call.fields, List.map_append]
      rfl
    · unfold Blank
      decide
  · have hstep : step serde fin p = ([], p, false) := by
      simp only [step, hs, stepInParameterBody, hf]
    refine passes_wait hstep (.value hs hfits hsound hdone hnodup h) hx (cut_short hall ?_)
    rw [List.length_append]
    exact hlt

theorem body_passes (hs : p.state = .inFunctionBody) (hfits : Call.Fits ⟨[], params⟩) (hsound : Sound calls tail)
    (hdone : p.currentParams = Call.fields done) (hnodup : ((done ++ params).map (·.1)).Nodup) (hw : Blank w)
    (h : p.buf ++ x = w ++ renderParams params (renderCalls calls tail)) (hx : fin = true → x = []) :
    Passes serde fin p x
      (.toolCallArgumentsDelta p.nextIndex (serde.toStringOr (.object (Call.fields (done ++ params)))) ::
        .toolCallClose p.nextIndex :: callEvents serde (p.nextIndex + 1) (objects calls)) := by
  have hmarkers : Markers '<' [functionClose, parameterOpen] := ⟨by decide, by decide⟩
  have hfree : '<' ∉ w := hw.free rfl
  cases params with
  | nil =>
    have hwhole : earliest [functionClose, parameterOpen] (p.buf ++ x) = some (w.length, functionClose) := by
      rw [h]
      exact hmarkers.earliest_here List.mem_cons_self hfree _
    have hall : p.buf ++ x = (w ++ functionClose) ++ '\n' :: (toolClose ++ renderCalls calls tail) := by
      rw [h, List.append_assoc]
      rfl
    rcases hmarkers.earliest_cut hwhole with ⟨he, hle⟩ | ⟨he, hlt⟩
    · have hne : ¬ functionClose = parameterOpen := by decide
      have hstep : step serde fin p =
          ([.toolCallArgumentsDelta p.nextIndex (serde.toStringOr (.object p.currentParams))],
            { p with
              buf := (p.buf.drop w.length).drop functionClose.length
              currentParams := []
              state := .awaitingToolCallClose }, true) := by
        simp only [step, hs, stepInFunctionBody, he, if_neg hne]
      refine ⟨_, _, _, _, hstep, ?_, .closing rfl hsound ?_, nofun⟩
      · rw [hdone, List.append_nil]
        rfl
      · rw [List.drop_drop, ← List.length_append]
        exact cut_behind hall (by rw [List.length_append]; exact hle)
    · have hstep : step serde fin p = ([], p, false) := by
        simp only [step, hs, stepInFunctionBody, he]
      refine passes_wait hstep (.body hs hfits hsound hdone hnodup hw h) hx (cut_short hall ?_)
      rw [List.length_append]
      exact hlt
  | cons kv params =>
    obtain ⟨key, v⟩ := kv
    have hwhole : earliest [functionClose, parameterOpen] (p.buf ++ x) = some (w.length, parameterOpen) := by
      rw [h]
      exact hmarkers.earliest_here (List.mem_cons_of_mem _ List.mem_cons_self) hfree _
    have hall : p.buf ++ x = (w ++ parameterOpen) ++ (key ++ '>' :: '\n' ::
        (v ++ '\n' :: (parameterClose ++ '\n' :: renderParams params (renderCalls calls tail)))) := by
      rw [h, List.append_assoc]
      rfl
    rcases hmarkers.earliest_cut hwhole with ⟨he, hle⟩ | ⟨he, hlt⟩
    · have hbehind := cut_behind hall (by rw [List.length_append]; exact hle)
      rw [List.length_append, ← List.drop_drop] at hbehind
      have hopened : '>' ∉ key := hfits.keys _ List.mem_cons_self
      have hkey := find_letter hopened ('\n' ::
        (v ++ '\n' :: (parameterClose ++ '\n' :: renderParams params (renderCalls calls tail))))
      rw [← hbehind] at hkey
      rcases (letter_markers '>').find_cut hkey with ⟨hf, hlong⟩ | ⟨hf, hshort⟩
      · have hname : ((p.buf.drop w.length).drop parameterOpen.length).take key.length = key := by
          have hfront := congrArg (List.take key.length) hbehind
          rw [List.length_singleton] at hlong
          rw [List.take_append_of_le_length (by omega), List.take_left] at hfront
          exact hfront
        have hstep : step serde fin p = ([],
            { p with
              buf := ((p.buf.drop w.length).drop parameterOpen.length).drop (key.length + 1)
              currentParamKey := key
              state := .inParameterBody }, true) := by
          simp only [step, hs, stepInFunctionBody, he, if_true, parameterTag, hf, Option.map_some, hname]
        refine ⟨_, _, _, _, hstep, rfl, .value rfl hfits hsound hdone hnodup ?_, nofun⟩
        have hopen : key ++ '>' :: '\n' ::
            (v ++ '\n' :: (parameterClose ++ '\n' :: renderParams params (renderCalls calls tail))) =
            (key ++ ['>']) ++ '\n' ::
              (v ++ '\n' :: (parameterClose ++ '\n' :: renderParams params (renderCalls calls tail))) := by simp
        rw [hopen] at hbehind
        have hrest := cut_behind hbehind (by rw [List.length_append]; exact hlong)
        rwa [List.length_append] at hrest
      · have hstep : step serde fin p = ([], { p with buf := p.buf.drop w.length }, false) := by
          simp only [step, hs, stepInFunctionBody, he, if_true, parameterTag, hf, Option.map_none]
        have hmore : x ≠ [] := by
          rw [List.length_singleton] at hshort
          have hopen : key ++ '>' :: '\n' ::
              (v ++ '\n' :: (parameterClose ++ '\n' :: renderParams params (renderCalls calls tail))) =
              (key ++ ['>']) ++ '\n' ::
                (v ++ '\n' :: (parameterClose ++ '\n' :: renderParams params (renderCalls calls tail))) := by simp
          rw [hopen] at hbehind
          exact cut_short hbehind (by rw [List.length_append, List.length_singleton]; exact hshort)
        refine passes_wait hstep (.body hs hfits hsound hdone hnodup (w := []) nofun ?_) hx hmore
        exact cut_behind h (by omega)
    · have hstep : step serde fin p = ([], p, false) := by
        simp only [step, hs, stepInFunctionBody, he]
      refine passes_wait hstep (.body hs hfits hsound hdone hnodup hw h) hx (cut_short hall ?_)
      rw [List.length_append]
      exact hlt

/-! The tag of a function. -/

/-- An open tag begins with its `<`. -/
theorem bareOpen_at (h : bareOpen buf = some o) : '<' ∈ (buf.drop o.start).head? := by
  cases hlt : find ['<'] buf with
  | none =>
    rw [bareOpen_prose hlt] at h
    cases h
  | some lt =>
    cases hgt : find ['>'] (buf.drop lt) with
    | none =>
      rw [bareOpen_unclosed hlt hgt] at h
      cases h
    | some gt =>
      rw [bareOpen_tag hlt hgt] at h
      split at h
      · cases h
        rw [find_drop hlt]
        rfl
      · have hshort := @bareOpen_descends _ _ gt hlt
        obtain ⟨o', ho', rfl⟩ := Option.map_eq_some_iff.mp h
        have ih := bareOpen_at ho'
        rwa [List.drop_drop] at ih
termination_by buf.length

theorem canonicalOpen_at (h : canonicalOpen buf = some o) : '<' ∈ (buf.drop o.start).head? := by
  obtain ⟨pos, hf, h⟩ := Option.bind_eq_some_iff.mp h
  obtain ⟨gt, -, rfl⟩ := Option.map_eq_some_iff.mp h
  rw [find_drop hf]
  rfl

theorem findFunctionOpen_at (h : findFunctionOpen buf = some o) : '<' ∈ (buf.drop o.start).head? := by
  unfold findFunctionOpen at h
  split at h
  · rename_i hf hb
    split at h
    · cases h
      exact bareOpen_at hb
    · cases h
      exact canonicalOpen_at hf
  · rename_i hf _
    cases h
    exact canonicalOpen_at hf
  · exact bareOpen_at h

/-- It does not begin in text without one. -/
theorem behind_free {w r : Text} (hw : '<' ∉ w) (h : '<' ∈ ((w ++ r).drop n).head?) : w.length ≤ n := by
  apply Decidable.byContradiction
  intro hlt
  rw [List.head?_drop, List.getElem?_append_left (by omega), Option.mem_def] at h
  exact hw (List.mem_of_getElem? h)

/-- Without a `>` nothing opens. -/
theorem findFunctionOpen_unclosed (h : '>' ∉ buf) : findFunctionOpen buf = none := by
  have hcanonical : canonicalOpen buf = none := by
    unfold canonicalOpen
    cases hf : find functionOpen buf with
    | none => rfl
    | some pos =>
      have hnone : find ['>'] (buf.drop (pos + functionOpen.length)) = none :=
        find_letter_iff.mpr fun hmem => h (List.mem_of_mem_drop hmem)
      rw [Option.bind_some]
      dsimp only
      rw [hnone]
      rfl
  have hbare : bareOpen buf = none := by
    cases hlt : find ['<'] buf with
    | none => exact bareOpen_prose hlt
    | some lt => exact bareOpen_unclosed hlt (find_letter_iff.mpr fun hmem => h (List.mem_of_mem_drop hmem))
  unfold findFunctionOpen
  rw [hcanonical, hbare]

/-- A function that has come in full, behind a newline. -/
theorem findFunctionOpen_here (hname : '>' ∉ name) (r : Text) :
    findFunctionOpen ('\n' :: functionOpen ++ (name ++ '>' :: r)) =
      some ⟨1, functionOpen.length + name.length + 1, name⟩ := by
  have hmarkers : Markers '<' [functionOpen] := ⟨by decide, by decide⟩
  have hshape : '\n' :: functionOpen ++ (name ++ '>' :: r) = ['\n'] ++ (functionOpen ++ (name ++ '>' :: r)) := rfl
  have hfind : find functionOpen ('\n' :: functionOpen ++ (name ++ '>' :: r)) = some 1 := by
    rw [hshape]
    exact hmarkers.find_here (w := ['\n']) (by decide) _
  have hcanonical : canonicalOpen ('\n' :: functionOpen ++ (name ++ '>' :: r)) =
      some ⟨1, functionOpen.length + name.length + 1, name⟩ := by
    unfold canonicalOpen
    rw [hfind, Option.bind_some]
    change (find ['>'] (name ++ '>' :: r)).map _ = _
    rw [find_letter hname, Option.map_some]
    change some (FunctionOpen.mk 1 _ ((name ++ '>' :: r).take name.length)) = _
    rw [List.take_left]
  unfold findFunctionOpen
  rw [hcanonical]
  cases hbare : bareOpen ('\n' :: functionOpen ++ (name ++ '>' :: r)) with
  | none => rfl
  | some o =>
    have hat := bareOpen_at hbare
    rw [hshape] at hat
    have hle : 1 ≤ o.start := behind_free (w := ['\n']) (by decide) hat
    dsimp only
    rw [if_neg (by omega)]

theorem opened_passes (hs : p.state = .inToolCall) (hfits : c.Fits) (hsound : Sound calls tail)
    (h : p.buf ++ x = '\n' :: renderFunction c (renderCalls calls tail)) (hx : fin = true → x = []) :
    Passes serde fin p x (callEvents serde p.nextIndex (c.object :: objects calls)) := by
  have hall : p.buf ++ x = ('\n' :: functionOpen ++ (c.name ++ ['>'])) ++
      '\n' :: renderParams c.params (renderCalls calls tail) := by
    rw [h, renderFunction]
    simp
  by_cases hlong : ('\n' :: functionOpen ++ (c.name ++ ['>'])).length ≤ p.buf.length
  · have hrest := cut_behind hall hlong
    have hbuf : p.buf = '\n' :: functionOpen ++ (c.name ++ '>' ::
        p.buf.drop ('\n' :: functionOpen ++ (c.name ++ ['>'])).length) := by
      have hfront := congrArg (List.take ('\n' :: functionOpen ++ (c.name ++ ['>'])).length) hall
      rw [List.take_append_of_le_length hlong, List.take_left] at hfront
      have hsplit := List.take_append_drop ('\n' :: functionOpen ++ (c.name ++ ['>'])).length p.buf
      rw [hfront] at hsplit
      rw [← hsplit]
      simp
    have hopen := findFunctionOpen_here hfits.name (p.buf.drop ('\n' :: functionOpen ++ (c.name ++ ['>'])).length)
    rw [← hbuf] at hopen
    have hlen : ('\n' :: functionOpen ++ (c.name ++ ['>'])).length = 1 + (functionOpen.length + c.name.length + 1) := by
      simp
      omega
    rw [hlen] at hrest
    have hstep : step serde fin p = ([.toolCallOpen p.nextIndex c.name],
        { p with
          buf := p.buf.drop (1 + (functionOpen.length + c.name.length + 1))
          currentName := c.name
          currentParams := []
          state := .inFunctionBody }, true) := by
      simp only [step, hs, stepInToolCall, hopen, openFunction]
    refine ⟨_, _, _, _, hstep, rfl, ?_, (fun _ h => by cases h)⟩
    have hbody : Call.Fits ⟨[], c.params⟩ := ⟨List.not_mem_nil, hfits.keys, hfits.values, hfits.nodup⟩
    refine @At.body _ _ _ _ _ _ [] ['\n'] rfl hbody hsound rfl ?_ ?_ hrest
    · rw [List.nil_append]
      exact hfits.nodup
    · unfold Blank
      decide
  · have hclosed : '>' ∉ p.buf := by
      have hfront : p.buf <+: '\n' :: functionOpen ++ c.name := by
        have hshape : ('\n' :: functionOpen ++ (c.name ++ ['>'])) ++ '\n' :: renderParams c.params (renderCalls calls tail) =
            ('\n' :: functionOpen ++ c.name) ++ '>' :: '\n' :: renderParams c.params (renderCalls calls tail) := by simp
        rw [hshape] at hall
        apply List.prefix_of_prefix_length_le (List.prefix_append p.buf x) ?_ ?_
        · rw [hall]
          exact List.prefix_append _ _
        · rw [List.length_append, List.length_append, List.length_singleton] at hlong
          rw [List.length_append]
          omega
      intro hmem
      rcases List.mem_append.mp (hfront.subset hmem) with hin | hin
      · exact absurd hin (by decide)
      · exact hfits.name hin
    have hstep : step serde fin p = ([], p, false) := by
      simp only [step, hs, stepInToolCall, findFunctionOpen_unclosed hclosed]
    exact passes_wait hstep (.opened hs hfits hsound h) hx (cut_short hall (by omega))

/-! Between the calls. -/

theorem emitUpTo_text (p : QwenCoderXmlParser) (n : Nat) :
    emitUpTo emitText p n = (emitText (p.buf.take n), { p with buf := p.buf.drop n }, decide (0 < n)) := by
  unfold emitUpTo
  by_cases hpos : 0 < n
  · rw [if_pos hpos, decide_eq_true hpos]
  · have hzero : n = 0 := by omega
    rw [if_neg hpos, hzero]
    rfl

theorem stepText_plain (hs : p.state = .text) (hopen : '>' ∉ p.buf) (htags : earliest textStateOpenTags p.buf = none) :
    step serde fin p = (emitText (p.buf.take (if fin then p.buf.length else pendingToolTailStart p.buf)),
      { p with buf := p.buf.drop (if fin then p.buf.length else pendingToolTailStart p.buf) },
      decide (0 < if fin then p.buf.length else pendingToolTailStart p.buf)) := by
  have hnone : functionFirst p.buf = none := by
    unfold functionFirst
    rw [htags]
    exact findFunctionOpen_unclosed hopen
  have hstep : step serde fin p = stepText p fin := by
    unfold step
    rw [hs]
  rw [hstep, stepText, hnone]
  dsimp only
  rw [htags]
  exact emitUpTo_text p _

/-- The front of a tag is held. -/
theorem pending_held {gap t : Text} (hne : t ≠ []) (hp : t <+: toolOpen) (hlt : t.length < toolOpen.length) :
    pendingToolTailStart (gap ++ t) ≤ gap.length := by
  refine Nat.le_trans (Nat.min_le_left _ _) ?_
  rw [ambiguousTailStart, Gemma4.ambiguousTailStart_opens (by decide) (by decide)]
  exact tailStart_held hne (opensTag_iff.mpr ⟨toolOpen, List.mem_cons_self, hlt, hp⟩)

theorem between_passes (hs : p.state = .text) (hsound : Sound calls tail) (h : p.buf ++ x = renderCalls calls tail)
    (hx : fin = true → x = []) : Passes serde fin p x (callEvents serde p.nextIndex (objects calls)) := by
  have hmarkers : Markers '<' textStateOpenTags := ⟨by decide, by decide⟩
  cases calls with
  | nil =>
    have hblank : Blank p.buf := fun c hc => hsound.ending c (by
      change c ∈ renderCalls [] tail
      rw [← h]
      exact List.mem_append_left x hc)
    have htags : earliest textStateOpenTags p.buf = none := by
      rw [earliest_free]
      intro t ht hin
      obtain ⟨r, rfl, -⟩ := hmarkers.eq_cons ht
      exact hblank.free rfl (hin.subset List.mem_cons_self)
    have hstep := @stepText_plain serde _ fin hs (hblank.free rfl) htags
    have hle : (if fin then p.buf.length else pendingToolTailStart p.buf) ≤ p.buf.length := by
      split
      · exact Nat.le_refl _
      · exact pendingToolTailStart_le _
    generalize (if fin then p.buf.length else pendingToolTailStart p.buf) = n at hstep hle
    refine ⟨_, _, _, [], hstep, ?_, ?_, fun _ _ => (flush_noCalls _).symm⟩
    · rw [callsOf_text]
      rfl
    · refine @At.between _ _ _ [] (tail.drop n) hs ⟨nofun, nofun, hsound.ending.drop n⟩ ?_
      change p.buf.drop n ++ x = tail.drop n
      rw [← List.drop_append_of_le_length hle, h]
      rfl
  | cons g calls =>
    obtain ⟨gap, c⟩ := g
    have hgap : Blank gap := hsound.gaps _ List.mem_cons_self
    have hwhole : earliest textStateOpenTags (p.buf ++ x) = some (gap.length, toolOpen) := by
      rw [h]
      exact hmarkers.earliest_here List.mem_cons_self (hgap.free rfl) _
    have hall : p.buf ++ x = (gap ++ toolOpen) ++ '\n' :: renderFunction c (renderCalls calls tail) := by
      rw [h, List.append_assoc]
      rfl
    rcases hmarkers.earliest_cut hwhole with ⟨he, hle⟩ | ⟨he, hlt⟩
    · have hfirst : functionFirst p.buf = none := by
        unfold functionFirst
        rw [he]
        dsimp only
        rw [Option.filter_eq_none_iff]
        intro o ho hbefore
        have hat := findFunctionOpen_at ho
        have hsplit : p.buf = gap ++ p.buf.drop gap.length := by
          have hfront := congrArg (List.take gap.length) hall
          rw [List.take_append_of_le_length (by omega), List.append_assoc, List.take_left] at hfront
          have hboth := List.take_append_drop gap.length p.buf
          rw [hfront] at hboth
          exact hboth.symm
        rw [hsplit] at hat
        have hbehind := behind_free (hgap.free rfl) hat
        have hlt := of_decide_eq_true hbefore
        omega
      have hstep : step serde fin p = (emitText (p.buf.take gap.length),
          { p with buf := p.buf.drop (gap.length + toolOpen.length), state := .inToolCall }, true) := by
        simp only [step, hs, stepText, hfirst, he, if_true]
      refine ⟨_, _, _, _, hstep, ?_, .opened rfl (hsound.fits _ List.mem_cons_self) hsound.rest ?_, nofun⟩
      · rw [callsOf_text]
        rfl
      · have hrest := cut_behind hall (by rw [List.length_append]; exact hle)
        rwa [List.length_append] at hrest
    · have hmore : x ≠ [] := cut_short hall (by rw [List.length_append]; exact hlt)
      have hfin : fin = false := eq_false_of_ne_true fun hf => hmore (hx hf)
      have hfront : p.buf <+: gap ++ toolOpen :=
        List.prefix_of_prefix_length_le (List.prefix_append p.buf x) ⟨_, hall.symm⟩ (by rw [List.length_append]; omega)
      have hheld : '>' ∉ p.buf ∧ pendingToolTailStart p.buf ≤ gap.length := by
        by_cases hshort : p.buf.length ≤ gap.length
        · have hin : p.buf <+: gap := List.prefix_of_prefix_length_le hfront (List.prefix_append gap toolOpen) hshort
          exact ⟨fun hmem => hgap.free rfl (hin.subset hmem), Nat.le_trans (pendingToolTailStart_le _) hshort⟩
        · obtain ⟨t, ht⟩ : gap <+: p.buf :=
            List.prefix_of_prefix_length_le (List.prefix_append gap toolOpen) hfront (by omega)
          rw [← ht] at hfront hlt hshort ⊢
          rw [List.length_append] at hlt hshort
          have hp : t <+: toolOpen := (List.prefix_append_right_inj gap).mp hfront
          have hne : t ≠ [] := by
            rintro rfl
            exact hshort (Nat.le_refl _)
          refine ⟨fun hmem => ?_, pending_held hne hp (by omega)⟩
          rcases List.mem_append.mp hmem with hin | hin
          · exact hgap.free rfl hin
          · have hdrop : t <+: toolOpen.dropLast :=
              List.prefix_of_prefix_length_le hp (List.dropLast_prefix _) (by rw [List.length_dropLast]; omega)
            exact absurd (hdrop.subset hin) (by decide)
      have hstep := @stepText_plain serde _ fin hs hheld.1 he
      rw [hfin, if_neg Bool.false_ne_true] at hstep
      have hle := pendingToolTailStart_le p.buf
      generalize pendingToolTailStart p.buf = n at hstep hle hheld
      rw [hfin]
      refine ⟨_, _, _, callEvents serde p.nextIndex (objects ((gap.drop n, c) :: calls)), hstep, ?_, ?_, nofun⟩
      · rw [callsOf_text]
        rfl
      · have hshorter : Sound ((gap.drop n, c) :: calls) tail := by
          refine ⟨?_, ?_, hsound.ending⟩
          · rintro g (_ | ⟨_, hg⟩)
            · exact hsound.fits (gap, c) List.mem_cons_self
            · exact hsound.rest.fits g hg
          · rintro g (_ | ⟨_, hg⟩)
            · exact hgap.drop n
            · exact hsound.rest.gaps g hg
        refine .between hs hshorter ?_
        change p.buf.drop n ++ x = gap.drop n ++ _
        rw [← List.drop_append_of_le_length hle, h, renderCalls, List.drop_append_of_le_length hheld.2]

end

theorem at_passes {serde : SerdeJson} (h : At serde p x o) (hx : fin = true → x = []) : Passes serde fin p x o := by
  cases h with
  | between hs hsound h => exact between_passes hs hsound h hx
  | opened hs hfits hsound h => exact opened_passes hs hfits hsound h hx
  | body hs hfits hsound hdone hnodup hw h => exact body_passes hs hfits hsound hdone hnodup hw h hx
  | value hs hfits hsound hdone hnodup h => exact value_passes hs hfits hsound hdone hnodup h hx
  | closing hs hsound h => exact closing_passes hs hsound h hx

theorem at_shows (serde : SerdeJson) : Shows (machine serde) callsOf (At serde) where
  append := callsOf_append _ _
  fed := by
    intro p c x o h
    cases h with
    | between hs hsound h => exact .between (p := (machine serde).feed p c) hs hsound ((List.append_assoc ..).trans h)
    | opened hs hfits hsound h =>
      exact .opened (p := (machine serde).feed p c) hs hfits hsound ((List.append_assoc ..).trans h)
    | body hs hfits hsound hdone hnodup hw h =>
      exact .body (p := (machine serde).feed p c) hs hfits hsound hdone hnodup hw ((List.append_assoc ..).trans h)
    | value hs hfits hsound hdone hnodup h =>
      exact .value (p := (machine serde).feed p c) hs hfits hsound hdone hnodup ((List.append_assoc ..).trans h)
    | closing hs hsound h => exact .closing (p := (machine serde).feed p c) hs hsound ((List.append_assoc ..).trans h)
  step := by
    intro p x o fin es p' b h hx hs
    obtain ⟨fs, q, b', o', hstep, ho, hat, hend⟩ := at_passes h hx
    have hs : some (step serde fin p) = some (es, p', b) := hs
    rw [hstep] at hs
    cases hs
    exact ⟨o', ho, hat, hend⟩

/-- Calls in the template's form come out as they went in, for every chunking. -/
theorem qwen_round_trip (serde : SerdeJson) (calls : List (Text × Call)) (tail : Text) (hsound : Sound calls tail)
    (hserde : ∀ g ∈ calls, Reads serde (.object g.2.object.arguments)) (chunks : List Text)
    (hchunks : chunks.flatten = renderCalls calls tail) :
    ∃ es, (machine serde).stream .new chunks = some es ∧ Opened serde 0 (objects calls) (callsOf es) := by
  have hat : At serde .new chunks.flatten (callEvents serde 0 (objects calls)) :=
    .between (p := .new) rfl hsound (by rw [hchunks]; rfl)
  obtain ⟨es, hes⟩ := (at_shows serde).total (fun _ _ _ _ _ _ => rfl) hat
  refine ⟨es, hes, ?_⟩
  rw [(at_shows serde).stream hat hes]
  apply callEvents_opened
  intro c hc
  obtain ⟨g, hg, rfl⟩ := List.mem_map.mp hc
  exact hserde g hg

/-- A call whose value begins like a tag. -/
def angleCall : Call := ⟨['f'], [(['k'], ['<', 'f'])]⟩

def angleJson : Text := ['{', '"', 'k', '"', ':', '"', '<', 'f', '"', '}']

def angleSerde : SerdeJson where
  fromStr s := if s = angleJson then some (.object (Call.fields angleCall.params)) else none
  toString
    | .object [(['k'], .string ['<', 'f'])] => some angleJson
    | _ => none

theorem angle_round_trip : ∃ es, (machine angleSerde).stream .new
      [(renderCalls [([], angleCall)] ['\n']).take 40, (renderCalls [([], angleCall)] ['\n']).drop 40] = some es ∧
    Opened angleSerde 0 [angleCall.object] (callsOf es) := by
  refine qwen_round_trip angleSerde [([], angleCall)] ['\n'] ⟨?_, ?_, ?_⟩ ?_ _ rfl
  · rintro g (_ | ⟨_, hg⟩)
    · exact ⟨by decide, by decide, by decide, by decide⟩
    · cases hg
  · rintro g (_ | ⟨_, hg⟩)
    · exact nofun
    · cases hg
  · unfold Blank
    decide
  · rintro g (_ | ⟨_, hg⟩)
    · exact ⟨angleJson, rfl, rfl⟩
    · cases hg

end Flambeau.Server.ToolCallParser.QwenCoder
