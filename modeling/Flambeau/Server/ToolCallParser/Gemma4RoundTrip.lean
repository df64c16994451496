import Flambeau.Server.ToolCallParser.Gemma4Chunks
import Flambeau.Server.ToolCallParser.Gemma4Native
import Flambeau.Server.ToolCallParser.RoundTrip
import Flambeau.Server.ToolCallParser.Slices

namespace Flambeau.Server.ToolCallParser.Gemma4
open Flambeau.Stream Flambeau.Stream.Machine Flambeau.Runtime.JsonSchema

/-! Calls in the native form. -/

/-- A call with the text of its arguments. -/
structure Call where
  name : Text
  arguments : List (Name × Value)
  body : Text

/-- The name leaves the header as it is, and the body spells the arguments. -/
structure Call.Fits (c : Call) : Prop where
  brace : '{' ∉ c.name
  paren : '(' ∉ c.name
  close : ¬ toolCallClose <:+: c.name
  keys : (c.arguments.map (·.1)).Nodup
  spelled : Spelled (.members c.arguments) c.body

/-- The call as the parser names it. -/
def Call.object (c : Call) : CallObject := ⟨trim c.name, c.arguments⟩

/-- From the name on. -/
def renderName (c : Call) (rest : Text) : Text := c.name ++ '{' :: (c.body ++ '}' :: (toolCallClose ++ rest))

def renderCalls : List Call → Text
  | [] => []
  | c :: calls => toolCallOpen ++ (callPrefix ++ renderName c (renderCalls calls))

def objects (calls : List Call) : List CallObject := calls.map Call.object

/-! The scan, with more behind the closer. -/

/-- The quote that is looked for ends in front of what follows. -/
theorem lookahead_beyond {c : Char} (hascii : IsAscii (c :: s)) (hlong : 4 ≤ s.length) (y : Text) :
    lookaheadFaults (c :: (s ++ y)) = false := by
  have htake : byteAt (c :: (s ++ y)) 5 = 5 := by
    have hfront : (c :: (s ++ y)).take 5 = (c :: s).take 5 :=
      List.take_append_of_le_length (show 5 ≤ (c :: s).length by rw [List.length_cons]; omega)
    have hsub : IsAscii ((c :: s).take 5) := hascii.sub fun d hd => List.mem_of_mem_take hd
    rw [byteAt, hfront, byteLen_ascii hsub, List.length_take, List.length_cons]
    omega
  have hboundary := isCharBoundary_at (c :: (s ++ y)) 5
  rw [htake] at hboundary
  have hquote : byteLen stringQuote = 5 := by decide
  simp only [lookaheadFaults, utf8Size_ascii (isAscii_cons.mp hascii).1, hquote]
  simp [hboundary]

theorem scan_beyond (hascii : IsAscii s) (hscan : scanArgs depth inString s = some r) (hclosed : r.closed = true)
    (hlong : 4 ≤ r.rest.length) (y : Text) :
    scanArgs depth inString (s ++ y) = some { r with rest := r.rest ++ y } := by
  have hsplit := congrArg List.length (scanArgs_split hscan)
  rw [hclosed, if_pos rfl, List.length_append, List.length_cons] at hsplit
  match s with
  | [] =>
    rw [List.length_nil] at hsplit
    omega
  | c :: s =>
    rw [List.length_cons] at hsplit
    rw [scanArgs_cons] at hscan
    have hfine := lookahead_beyond hascii (by omega) y
    have hwith : argStep depth inString c s ≠ .hold → argStep depth inString c (s ++ y) = argStep depth inString c s :=
      argStep_append hascii hfine
    rw [List.cons_append, scanArgs_cons]
    cases hstep : argStep depth inString c s with
    | fault =>
      rw [hstep] at hscan
      cases hscan
    | hold =>
      rw [hstep] at hscan
      cases hscan
      cases hclosed
    | close =>
      rw [hstep] at hscan
      cases hscan
      rw [hwith (by rw [hstep]; simp), hstep]
    | advance more d i =>
      rw [hstep] at hscan
      obtain ⟨q, hq, rfl⟩ := Option.map_eq_some_iff.mp hscan
      have hmore := (argStep_letters hascii).2 more d i hstep
      have hrest : IsAscii (s.drop more) := (isAscii_cons.mp hascii).2.sub fun e he => List.mem_of_mem_drop he
      rw [hwith (by rw [hstep]; simp), hstep]
      dsimp only
      rw [List.drop_append_of_le_length hmore, List.take_append_of_le_length hmore,
        scan_beyond hrest hq hclosed hlong y]
      rfl
termination_by s.length
decreasing_by
  rw [List.length_drop, List.length_cons]
  omega

/-! Where a parser stands in the text of some calls. -/

inductive At (serde : GemmaSerde) (p : Gemma4ToolCallParser) (x : Text) : List ParserEvent → Prop
  | between (hs : p.state = .text) (hfits : ∀ c ∈ calls, Call.Fits c) (h : p.buf ++ x = renderCalls calls) :
      At serde p x (callEvents serde.toSerdeJson p.nextIndex (objects calls))
  | header (hs : p.state = .inCallHeader) (hfits : ∀ d ∈ c :: calls, Call.Fits d)
      (h : p.buf ++ x = callPrefix ++ renderName c (renderCalls calls)) :
      At serde p x (callEvents serde.toSerdeJson p.nextIndex (objects (c :: calls)))
  | args (hs : p.state = .inArgs) (hfits : ∀ d ∈ calls, Call.Fits d) (hascii : IsAscii s)
      (hscan : scanArgs p.argsDepth p.argsInString s = some ⟨u, depth, inString, true, toolCallClose⟩)
      (hread : parseArgsBody serde (p.argsBody ++ u) = some v) (h : p.buf ++ x = s ++ renderCalls calls) :
      At serde p x (.toolCallArgumentsDelta p.nextIndex (serde.toStringOr v) :: .toolCallClose p.nextIndex ::
        callEvents serde.toSerdeJson (p.nextIndex + 1) (objects calls))
  | closing (hs : p.state = .awaitingClose) (hfits : ∀ d ∈ calls, Call.Fits d)
      (h : p.buf ++ x = toolCallClose ++ renderCalls calls) :
      At serde p x (.toolCallClose p.nextIndex :: callEvents serde.toSerdeJson (p.nextIndex + 1) (objects calls))

/-- A step of a parser that shows the front of what it has to. -/
def Passes (serde : GemmaSerde) (fin : Bool) (p : Gemma4ToolCallParser) (x : Text) (o : List ParserEvent) : Prop :=
  ∃ es p' b o', step serde fin p = some (es, p', b) ∧ o = callsOf es ++ o' ∧ At serde p' x o' ∧
    (fin = true → b = false → o' = callsOf (flush p').1)

/-- A parser that waits has input to come. -/
theorem passes_wait (hstep : step serde fin p = some ([], p', b)) (hat : At serde p' x o) (hx : fin = true → x = [])
    (hmore : x ≠ []) : Passes serde fin p x o :=
  ⟨[], p', b, o, hstep, rfl, hat, fun hf => absurd (hx hf) hmore⟩

section
variable {serde : GemmaSerde} {p : Gemma4ToolCallParser} {x : Text} {calls : List Call} {fin : Bool}

theorem closing_passes (hs : p.state = .awaitingClose) (hfits : ∀ c ∈ calls, Call.Fits c)
    (h : p.buf ++ x = toolCallClose ++ renderCalls calls) (hx : fin = true → x = []) :
    Passes serde fin p x
      (.toolCallClose p.nextIndex :: callEvents serde.toSerdeJson (p.nextIndex + 1) (objects calls)) := by
  have hwhole : earliest callClosers (p.buf ++ x) = some (0, toolCallClose) := by
    rw [h]
    exact call_markers.earliest_here (w := []) List.mem_cons_self (by decide) _
  rcases call_markers.earliest_cut hwhole with ⟨he, hle⟩ | ⟨he, hlt⟩
  · have hstep : step serde fin p = some ([.toolCallClose p.nextIndex],
        { p with
          buf := p.buf.drop (0 + toolCallClose.length)
          nextIndex := p.nextIndex + 1
          state := .text }, true) := by
      simp only [step, hs, stepAwaitingClose, he]
    refine ⟨_, _, _, _, hstep, rfl, .between (p := { p with
      buf := p.buf.drop (0 + toolCallClose.length)
      nextIndex := p.nextIndex + 1
      state := .text }) rfl hfits ?_, (fun _ h => by cases h)⟩
    rw [Nat.zero_add] at hle ⊢
    exact cut_behind h hle
  · have hstep : step serde fin p = some ([], p, false) := by
      simp only [step, hs, stepAwaitingClose, he]
    rw [Nat.zero_add] at hlt
    exact passes_wait hstep (.closing hs hfits h) hx (cut_short h hlt)

/-- What the scan consumed joins the body, and it goes on where it stopped. -/
theorem args_passes {s : Text} (hs : p.state = .inArgs) (hfits : ∀ c ∈ calls, Call.Fits c) (hascii : IsAscii s)
    (hscan : scanArgs p.argsDepth p.argsInString s = some ⟨u, depth, inString, true, toolCallClose⟩)
    (hread : parseArgsBody serde (p.argsBody ++ u) = some v) (h : p.buf ++ x = s ++ renderCalls calls)
    (hx : fin = true → x = []) :
    Passes serde fin p x (.toolCallArgumentsDelta p.nextIndex (serde.toStringOr v) :: .toolCallClose p.nextIndex ::
      callEvents serde.toSerdeJson (p.nextIndex + 1) (objects calls)) := by
  have hsame : step serde fin p = step serde false p := by simp only [step, hs]
  by_cases hle : s.length ≤ p.buf.length
  · obtain ⟨y, hy⟩ : s <+: p.buf := List.prefix_of_prefix_length_le ⟨_, h.symm⟩ (List.prefix_append p.buf x) hle
    have hlong : 4 ≤ toolCallClose.length := by decide
    have hwhole := scan_beyond hascii hscan rfl hlong y
    rw [hy] at hwhole
    have hstep := args_close serde hs hwhole rfl
    rw [hread, ← hsame] at hstep
    refine ⟨_, _, _, _, hstep, rfl, .closing rfl hfits ?_, (fun _ h => by cases h)⟩
    rw [← hy, List.append_assoc] at h
    have hrest := List.append_cancel_left h
    change toolCallClose ++ y ++ x = _
    rw [List.append_assoc, hrest]
  · have hmore : x ≠ [] := cut_short h (Nat.lt_of_not_le hle)
    obtain ⟨a, ha⟩ : p.buf <+: s :=
      List.prefix_of_prefix_length_le (List.prefix_append p.buf x) ⟨_, h.symm⟩ (by omega)
    have hx' : x = a ++ renderCalls calls := by
      rw [← ha, List.append_assoc] at h
      exact List.append_cancel_left h
    obtain ⟨r, hr, happ⟩ := scanArgs_append p.argsDepth p.argsInString (ha ▸ hascii)
    rw [ha, hscan] at happ
    cases hclosed : r.closed with
    | true =>
      rw [hclosed, if_pos rfl, Option.some.injEq] at happ
      have hstep := args_close serde hs hr hclosed
      have hbody : r.consumed = u := (congrArg ArgScan.consumed happ).symm
      have hrest : r.rest ++ a = toolCallClose := (congrArg ArgScan.rest happ).symm
      rw [hbody, hread, ← hsame] at hstep
      refine ⟨_, _, _, _, hstep, rfl, .closing rfl hfits ?_, (fun _ h => by cases h)⟩
      change r.rest ++ x = _
      rw [hx', ← List.append_assoc, hrest]
    | false =>
      rw [hclosed, if_neg Bool.false_ne_true] at happ
      obtain ⟨⟨w, d, i, b, rest⟩, hq, heq⟩ := Option.map_eq_some_iff.mp happ.symm
      simp only [ArgScan.after, ArgScan.mk.injEq] at heq
      obtain ⟨hbody, rfl, rfl, rfl, rfl⟩ := heq
      have hstep := args_open serde hs hr hclosed
      rw [← hsame] at hstep
      have hsplit : p.buf = r.consumed ++ r.rest := by
        have hparts := scanArgs_split hr
        rwa [hclosed, if_neg Bool.false_ne_true] at hparts
      have hascii' : IsAscii (r.rest ++ a) := by
        rw [← ha, hsplit, List.append_assoc] at hascii
        exact (isAscii_append.mp hascii).2
      have hread' : parseArgsBody serde (p.argsBody ++ r.consumed ++ w) = some v := by
        rw [List.append_assoc, hbody]
        exact hread
      refine passes_wait hstep (.args (p := scanned p r) hs hfits hascii' hq hread' ?_) hx hmore
      change r.rest ++ x = _
      rw [hx', List.append_assoc]

/-- The name up to the brace, whatever follows. -/
theorem header_opens {c : Call} (hfits : c.Fits) (y : Text) :
    headerOpener (c.name ++ '{' :: y) = some ('{', c.name.length) ∧
      closesFirst (c.name ++ '{' :: y) (some ('{', c.name.length)) = none := by
  have hshape : c.name ++ '{' :: y = (c.name ++ ['{']) ++ y := by simp
  have hbrace : find ['{'] (c.name ++ ['{']) = some c.name.length := find_letter hfits.brace []
  have hparen : find ['('] (c.name ++ ['{']) = none := by
    rw [find_letter_iff, List.mem_append, not_or]
    exact ⟨hfits.paren, by decide⟩
  have hclose : find toolCallClose (c.name ++ ['{']) = none := by
    rw [find_none, earliest_free]
    intro t ht hin
    rw [List.mem_singleton.mp ht] at hin
    rcases List.infix_concat_iff.mp hin with ⟨r, hr⟩ | hin
    · have hlast := congrArg List.getLast? hr
      simp [toolCallClose] at hlast
    · exact hfits.close hin
  constructor
  · rw [hshape]
    apply headerOpener_append
    rw [headerOpener, hbrace, hparen]
  · rw [hshape, closesFirst]
    cases hf : find toolCallClose (c.name ++ ['{'] ++ y) with
    | none => rfl
    | some n =>
      have hle := find_before hclose hf hbrace (by decide)
      dsimp only
      rw [if_neg (by omega)]

theorem header_passes {c : Call} (hs : p.state = .inCallHeader) (hfits : ∀ d ∈ c :: calls, Call.Fits d)
    (h : p.buf ++ x = callPrefix ++ renderName c (renderCalls calls)) (hx : fin = true → x = []) :
    Passes serde fin p x (callEvents serde.toSerdeJson p.nextIndex (objects (c :: calls))) := by
  have hc : c.Fits := hfits c List.mem_cons_self
  by_cases hle : callPrefix.length ≤ p.buf.length
  · obtain ⟨rest, hbuf⟩ : callPrefix <+: p.buf :=
      List.prefix_of_prefix_length_le ⟨_, h.symm⟩ (List.prefix_append p.buf x) hle
    have hafter : afterPrefix p.buf = some callPrefix.length := by
      rw [afterPrefix, if_pos (List.isPrefixOf_iff_prefix.mpr ⟨rest, hbuf⟩)]
    have hdrop : p.buf.drop callPrefix.length = rest := by rw [← hbuf, List.drop_left]
    have hrest : rest ++ x = renderName c (renderCalls calls) := by
      rw [← hbuf, List.append_assoc] at h
      exact List.append_cancel_left h
    have hfind : find ['{'] (rest ++ x) = some c.name.length := by
      rw [hrest]
      exact find_letter hc.brace _
    rcases (letter_markers '{').find_cut hfind with ⟨hf, hlong⟩ | ⟨hf, hshort⟩
    · rw [List.length_singleton] at hlong
      have hall : rest ++ x = (c.name ++ ['{']) ++ (c.body ++ '}' :: (toolCallClose ++ renderCalls calls)) := by
        rw [hrest, renderName]
        simp
      obtain ⟨y, hy⟩ : (c.name ++ ['{']) <+: rest :=
        List.prefix_of_prefix_length_le ⟨_, hall.symm⟩ (List.prefix_append rest x) (by
          rw [List.length_append]
          exact hlong)
      have hshape : rest = c.name ++ '{' :: y := by rw [← hy]; simp
      obtain ⟨hopen, hnone⟩ := header_opens hc y
      have htake : (c.name ++ '{' :: y).take c.name.length = c.name := List.take_left
      have hstep : step serde fin p = some ([.toolCallOpen p.nextIndex (trim c.name)],
          { p with
            buf := p.buf.drop (callPrefix.length + c.name.length + 1)
            currentName := trim c.name
            argsBody := []
            argsDepth := 1
            argsInString := false
            state := .inArgs }, true) := by
        simp only [step, hs, stepInCallHeader, hafter, hdrop, hshape, hopen, hnone, htake, if_true]
      refine ⟨_, _, _, _, hstep, rfl, .args rfl (fun d hd => hfits d (List.mem_cons_of_mem c hd)) ?_ hc.spelled.closed
        (parseArgsBody_spelled serde hc.keys hc.spelled) ?_, nofun⟩
      · exact isAscii_append.mpr ⟨hc.spelled.ascii, by decide⟩
      · change p.buf.drop (callPrefix.length + c.name.length + 1) ++ x = _
        rw [Nat.add_assoc, ← List.drop_drop, hdrop]
        have hbehind := cut_behind hall (by rw [List.length_append]; exact hlong)
        rw [List.length_append] at hbehind
        rw [List.append_assoc]
        exact hbehind
    · have hin : rest <+: c.name := by
        refine @List.prefix_of_prefix_length_le _ _ _ (rest ++ x) (List.prefix_append rest x) ?_ (by
          rw [List.length_singleton] at hshort
          omega)
        rw [hrest, renderName]
        exact List.prefix_append _ _
      have hopen : headerOpener rest = none := by
        rw [headerOpener, hf, find_letter_iff.mpr fun hmem => hc.paren (hin.subset hmem)]
      have hclose : find toolCallClose rest = none := by
        rw [find_none, earliest_free]
        intro t ht hinside
        rw [List.mem_singleton.mp ht] at hinside
        exact hc.close (hinside.trans hin.isInfix)
      have hstep : step serde fin p = some ([], p, false) := by
        simp only [step, hs, stepInCallHeader, hafter, hdrop, hopen, closesFirst, hclose]
      have hmore : x ≠ [] := by
        rintro rfl
        rw [List.append_nil, hf] at hfind
        cases hfind
      exact passes_wait hstep (.header hs hfits h) hx hmore
  · have hmore : x ≠ [] := cut_short h (Nat.lt_of_not_le hle)
    have hfront : p.buf <+: callPrefix :=
      List.prefix_of_prefix_length_le (List.prefix_append p.buf x) ⟨_, h.symm⟩ (by omega)
    have hnot : ¬ callPrefix.isPrefixOf p.buf = true := fun hp =>
      hle (List.isPrefixOf_iff_prefix.mp hp).length_le
    have hafter : afterPrefix p.buf = none := by
      rw [afterPrefix, if_neg hnot, if_pos (List.isPrefixOf_iff_prefix.mpr hfront)]
    have hstep : step serde fin p = some ([], p, false) := by
      simp only [step, hs, stepInCallHeader, hafter]
    exact passes_wait hstep (.header hs hfits h) hx hmore

/-- The front of an opening tag is held, and nothing is passed on. -/
theorem text_waits (hs : p.state = .text) (hp : p.buf <+: toolCallOpen) (hlt : p.buf.length < toolCallOpen.length)
    (he : earliest textOpenTags p.buf = none) (hfin : fin = true → p.buf = []) :
    step serde fin p = some ([], p, false) := by
  have hzero : (if fin then p.buf.length else ambiguousTailStart p.buf textOpenTags) = 0 := by
    cases fin with
    | true => rw [if_pos rfl, hfin rfl, List.length_nil]
    | false =>
      rw [if_neg Bool.false_ne_true, ambiguousTailStart_opens (by decide) (by decide)]
      by_cases hne : p.buf = []
      · rw [hne]
        rfl
      · have hopens : opensTag textOpenTags p.buf = true :=
          opensTag_iff.mpr ⟨toolCallOpen, List.mem_cons_self, hlt, hp⟩
        exact Nat.le_zero.mp (tailStart_held (w := []) hne hopens)
  simp only [step, hs, stepText, he, emitBuffered, hzero, Nat.lt_irrefl, if_false]

theorem between_passes (hs : p.state = .text) (hfits : ∀ c ∈ calls, Call.Fits c) (h : p.buf ++ x = renderCalls calls)
    (hx : fin = true → x = []) :
    Passes serde fin p x (callEvents serde.toSerdeJson p.nextIndex (objects calls)) := by
  cases calls with
  | nil =>
    obtain ⟨hbuf, hrest⟩ := List.append_eq_nil_iff.mp h
    have hstep : step serde fin p = some ([], p, false) := by
      refine text_waits hs ?_ ?_ ?_ fun _ => hbuf
      · rw [hbuf]
        exact List.nil_prefix
      · rw [hbuf]
        decide
      · rw [hbuf]
        rfl
    refine ⟨_, _, _, [], hstep, rfl, @At.between _ _ _ [] hs hfits h, fun _ _ => ?_⟩
    rw [flush, hs]
    rfl
  | cons c calls =>
    have hwhole : earliest textOpenTags (p.buf ++ x) = some (0, toolCallOpen) := by
      rw [h]
      exact textOpen_markers.earliest_here (w := []) List.mem_cons_self (by decide) _
    rcases textOpen_markers.earliest_cut hwhole with ⟨he, hle⟩ | ⟨he, hlt⟩
    · have hstep : step serde fin p = some ([],
          { p with buf := p.buf.drop (0 + toolCallOpen.length), state := .inCallHeader }, true) := by
        simp only [step, hs, stepText, he]
        rfl
      refine ⟨_, _, _, _, hstep, rfl, .header rfl hfits ?_, (fun _ h => by cases h)⟩
      rw [Nat.zero_add] at hle ⊢
      exact cut_behind h hle
    · rw [Nat.zero_add] at hlt
      have hmore : x ≠ [] := cut_short h hlt
      have hfront : p.buf <+: toolCallOpen :=
        List.prefix_of_prefix_length_le (List.prefix_append p.buf x) ⟨_, h.symm⟩ (Nat.le_of_lt hlt)
      have hstep := @text_waits serde _ _ hs hfront hlt he fun hf => absurd (hx hf) hmore
      exact passes_wait hstep (.between hs hfits h) hx hmore

end

theorem at_passes {serde : GemmaSerde} (h : At serde p x o) (hx : fin = true → x = []) : Passes serde fin p x o := by
  cases h with
  | between hs hfits h => exact between_passes hs hfits h hx
  | header hs hfits h => exact header_passes hs hfits h hx
  | args hs hfits hascii hscan hread h => exact args_passes hs hfits hascii hscan hread h hx
  | closing hs hfits h => exact closing_passes hs hfits h hx

theorem at_shows (serde : GemmaSerde) : Shows (machine serde) callsOf (At serde) where
  append := callsOf_append _ _
  fed := by
    intro p c x o h
    cases h with
    | between hs hfits h => exact .between (p := (machine serde).feed p c) hs hfits ((List.append_assoc ..).trans h)
    | header hs hfits h => exact .header (p := (machine serde).feed p c) hs hfits ((List.append_assoc ..).trans h)
    | args hs hfits hascii hscan hread h =>
      exact .args (p := (machine serde).feed p c) hs hfits hascii hscan hread ((List.append_assoc ..).trans h)
    | closing hs hfits h => exact .closing (p := (machine serde).feed p c) hs hfits ((List.append_assoc ..).trans h)
  step := by
    intro p x o fin es p' b h hx hs
    obtain ⟨fs, q, b', o', hstep, ho, hat, hend⟩ := at_passes h hx
    have hs : step serde fin p = some (es, p', b) := hs
    rw [hstep] at hs
    cases hs
    exact ⟨o', ho, hat, hend⟩

/-- Calls come out with their names trimmed, for every chunking. -/
theorem calls_come_out (serde : GemmaSerde) {calls : List Call} (hfits : ∀ c ∈ calls, c.Fits) {chunks : List Text}
    (hchunks : chunks.flatten = renderCalls calls) : ∃ es, stream serde .new chunks = some es ∧
      callsOf es = callEvents serde.toSerdeJson 0 (objects calls) := by
  have hat : At serde .new chunks.flatten (callEvents serde.toSerdeJson 0 (objects calls)) :=
    .between (p := .new) rfl hfits (by rw [hchunks]; rfl)
  have hsome : ∀ fin p x o, At serde p x o → (fin = true → x = []) → ((machine serde).step fin p).isSome = true := by
    intro fin p x o hp hx
    obtain ⟨es, p', b, o', hstep, -⟩ := at_passes hp hx
    exact Option.isSome_iff_exists.mpr ⟨_, hstep⟩
  obtain ⟨es, hes⟩ := (at_shows serde).total hsome hat
  exact ⟨es, by rw [stream_machine serde rfl, hes], (at_shows serde).stream hat hes⟩

/-- `call:f{a:[<|"|>}<|"|>,-1]}`. -/
def bracedCall : Call where
  name := ['f']
  arguments := [(['a'], .array [.string ['}'], integer (-1)])]
  body := ['a'] ++ ':' :: ('[' :: ((stringQuote ++ (['}'] ++ stringQuote)) ++ ',' :: integerText (-1) ++ [']']))

theorem bracedCall_fits : bracedCall.Fits where
  brace := by decide
  paren := by decide
  close := by decide
  keys := by decide
  spelled := by
    have hkey : KeyText ['a'] := ⟨by decide, by decide⟩
    have hstring : Spelled (.value (.string ['}'])) (stringQuote ++ (['}'] ++ stringQuote)) :=
      .string (by decide) (by decide)
    have hone : Spelled (.value (integer (-1))) (integerText (-1)) := .integer (by decide) (by decide)
    exact .lastMember hkey (.array (.element hstring (.lastElement hone)))

def bracedJson : Text := ['{', '"', 'a', '"', ':', '[', '"', '}', '"', ',', '-', '1', ']', '}']

def bracedSerde : GemmaSerde where
  fromStr s := if s = bracedJson then some (.object bracedCall.arguments) else none
  toString
    | .object [(['a'], .array _)] => some bracedJson
    | _ => none
  firstValue _ := none
  parseF64 _ := none

/-- A name with a blank in front. -/
def spacedCall : Call := ⟨[' ', 'f'], [], []⟩

def plainSerde : GemmaSerde where
  fromStr s := if s = emptyObject then some (.object []) else none
  toString
    | .object [] => some emptyObject
    | _ => none
  firstValue _ := none
  parseF64 _ := none

end Flambeau.Server.ToolCallParser.Gemma4
