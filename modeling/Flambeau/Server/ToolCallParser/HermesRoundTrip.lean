import Flambeau.Server.ToolCallParser.HermesChunks
import Flambeau.Server.ToolCallParser.HermesTotal
import Flambeau.Server.ToolCallParser.RoundTrip

namespace Flambeau.Server.ToolCallParser.Hermes
open Flambeau.Stream Flambeau.Stream.Machine Flambeau.Runtime.JsonSchema

/-! JSON texts. -/

/-- Between the quotes of a string. -/
inductive StringBody : Text → Prop
  | nil : StringBody []
  | plain (hquote : c ≠ '"') (hescape : c ≠ '\\') (h : StringBody s) : StringBody (c :: s)
  | escape (h : StringBody s) : StringBody ('\\' :: c :: s)

/-- With nothing to escape. -/
theorem StringBody.of_plain (h : ∀ c ∈ s, c ≠ '"' ∧ c ≠ '\\') : StringBody s := by
  induction s with
  | nil => exact .nil
  | cons c s ih =>
    obtain ⟨hquote, hescape⟩ := h c List.mem_cons_self
    exact .plain hquote hescape (ih fun d hd => h d (List.mem_cons_of_mem c hd))

/-- Numbers, literals and white space have neither quotes nor braces. -/
def Bare (s : Text) : Prop := ∀ c ∈ s, c ≠ '"' ∧ c ≠ '{' ∧ c ≠ '}'

inductive Part where
  | value
  | elements
  | members

/-- How the parts of a JSON text are written; what a number and a literal may be is left open. -/
inductive Written : Part → Text → Prop
  | word (h : Bare s) : Written .value s
  | string (h : StringBody s) : Written .value ('"' :: (s ++ ['"']))
  | array (h : Written .elements s) : Written .value ('[' :: (s ++ [']']))
  | object (h : Written .members s) : Written .value ('{' :: (s ++ ['}']))
  | spaced (hw : Bare w) (h : Written .value s) (hx : Bare x) : Written .value (w ++ (s ++ x))
  | element (h : Written .value s) : Written .elements s
  | elements (h : Written .value s) (ht : Written .elements t) : Written .elements (s ++ ',' :: t)
  | empty (hw : Bare w) : Written .members w
  | member (hw : Bare w) (hkey : StringBody key) (hx : Bare x) (h : Written .value s) :
      Written .members (w ++ ('"' :: (key ++ '"' :: (x ++ ':' :: s))))
  | members (h : Written .members s) (ht : Written .members t) : Written .members (s ++ ',' :: t)

/-- Inside an object the scan comes out of the text as it went in. -/
def Passes (s : Text) : Prop :=
  ∀ depth r, 0 < depth → objectEnd depth false false (s ++ r) = (objectEnd depth false false r).map (· + s.length)

theorem passes_nil : Passes [] := by
  intro depth r _
  rw [List.nil_append]
  cases objectEnd depth false false r <;> rfl

theorem Passes.append (hs : Passes s) (ht : Passes t) : Passes (s ++ t) := by
  intro depth r hdepth
  rw [List.append_assoc, hs depth _ hdepth, ht depth r hdepth, Option.map_map, List.length_append]
  congr 1
  funext k
  rw [Function.comp_apply]
  omega

/-- A step that changes no flag. -/
theorem objectEnd_cons (h : objectStep depth inStr escaped c = some (depth', inStr', escaped')) (r : Text) :
    objectEnd depth inStr escaped (c :: r) = (objectEnd depth' inStr' escaped' r).map (· + 1) := by
  rw [objectEnd, h]

theorem passes_letter (hquote : c ≠ '"') (hopen : c ≠ '{') (hclose : c ≠ '}') : Passes [c] := by
  intro depth r _
  refine objectEnd_cons ?_ r
  rw [objectStep, if_neg Bool.false_ne_true, if_neg hquote, if_neg hopen, if_neg hclose]

theorem Bare.passes (h : Bare s) : Passes s := by
  induction s with
  | nil => exact passes_nil
  | cons c s ih =>
    obtain ⟨hquote, hopen, hclose⟩ := h c List.mem_cons_self
    exact (passes_letter hquote hopen hclose).append (ih fun d hd => h d (List.mem_cons_of_mem c hd))

theorem StringBody.scanned (h : StringBody s) (depth : Nat) (r : Text) :
    objectEnd depth true false (s ++ '"' :: r) = (objectEnd depth false false r).map (· + (s.length + 1)) := by
  induction h with
  | nil => exact objectEnd_cons rfl r
  | plain hquote hescape _ ih =>
    rw [List.cons_append, @objectEnd_cons _ _ _ _ depth true false, ih, Option.map_map]
    · rfl
    · rw [objectStep, if_pos rfl, if_neg Bool.false_ne_true, if_neg hescape, if_neg hquote]
  | escape _ ih =>
    rw [List.cons_append, List.cons_append, @objectEnd_cons _ _ _ _ depth true true rfl,
      @objectEnd_cons _ _ _ _ depth true false rfl, ih, Option.map_map, Option.map_map]
    rfl

theorem StringBody.passes (h : StringBody s) : Passes ('"' :: (s ++ ['"'])) := by
  intro depth r _
  rw [List.cons_append, List.append_assoc, List.singleton_append, @objectEnd_cons _ _ _ _ depth true false rfl,
    h.scanned, Option.map_map, List.length_cons, List.length_append]
  rfl

theorem Passes.braces (h : Passes s) : Passes ('{' :: (s ++ ['}'])) := by
  intro depth r hdepth
  have hclose : objectStep (depth + 1) false false '}' = some (depth, false, false) := by
    have hne : ¬ depth + 1 - 1 = 0 := by omega
    rw [objectStep, if_neg Bool.false_ne_true, if_neg (by decide), if_neg (by decide), if_pos rfl, if_neg hne]
    rfl
  rw [List.cons_append, List.append_assoc, List.singleton_append, @objectEnd_cons _ _ _ _
    (depth + 1) false false rfl, h (depth + 1) _ (Nat.succ_pos _), objectEnd_cons hclose, Option.map_map,
    Option.map_map, List.length_cons, List.length_append]
  congr 1
  funext k
  simp only [Function.comp_apply, List.length_singleton]
  omega

theorem Written.passes (h : Written part s) : Passes s := by
  have hcomma : Passes [','] := passes_letter (by decide) (by decide) (by decide)
  have hcolon : Passes [':'] := passes_letter (by decide) (by decide) (by decide)
  have hopen : Passes ['['] := passes_letter (by decide) (by decide) (by decide)
  have hclose : Passes [']'] := passes_letter (by decide) (by decide) (by decide)
  induction h with
  | word h => exact h.passes
  | string h => exact h.passes
  | array _ ih => exact hopen.append (ih.append hclose)
  | object _ ih => exact ih.braces
  | spaced hw _ hx ih => exact hw.passes.append (ih.append hx.passes)
  | element _ ih => exact ih
  | elements _ _ ihs iht => exact ihs.append (hcomma.append iht)
  | empty hw => exact hw.passes
  | @member w key x s hw hkey hx _ ih =>
    have hall := hw.passes.append (hkey.passes.append (hx.passes.append (hcolon.append ih)))
    simpa using hall
  | members _ _ ihs iht => exact ihs.append (hcomma.append iht)

/-- The span that is found behind the newline is the object, whatever follows it. -/
theorem jsonObjectSpan_object (h : Written .members s) (r : Text) :
    jsonObjectSpan ('\n' :: ('{' :: (s ++ ['}']) ++ r)) = some (1, s.length + 2) := by
  have hstart : find ['{'] ('\n' :: ('{' :: (s ++ ['}']) ++ r)) = some 1 :=
    find_letter (u := ['\n']) (by decide) (s ++ ['}'] ++ r)
  have hclose : objectEnd 1 false false ('}' :: r) = some 0 := rfl
  have hstop : objectEnd 0 false false ('{' :: (s ++ ['}']) ++ r) = some (s.length + 1) := by
    rw [List.cons_append, List.append_assoc, List.singleton_append, @objectEnd_cons _ _ _ _ 1 false false rfl,
      h.passes 1 _ Nat.one_pos, hclose]
    simp
  have hdrop : ('\n' :: ('{' :: (s ++ ['}']) ++ r)).drop 1 = '{' :: (s ++ ['}']) ++ r := rfl
  rw [jsonObjectSpan, hstart, Option.bind_some, hdrop, hstop]
  simp only [Option.map_some]
  rw [Nat.add_comm 1]

/-! Calls in the template's form. -/

/-- A call with the text of its object. -/
structure Call where
  object : CallObject
  json : Text

/-- The text is an object of JSON, and `serde_json` reads the name and the arguments out of it. -/
structure Call.Spells (serde : SerdeJson) (c : Call) : Prop where
  written : ∃ s, Written .members s ∧ c.json = '{' :: (s ++ ['}'])
  reads : ∃ v, serde.fromStr c.json = some v ∧ valueGet nameKey v = some (.string c.object.name) ∧
    valueGet argumentsKey v = some (.object c.object.arguments)

/-- Calls with what stands in front of each, and what follows the last. -/
def renderCalls : List (Text × Call) → Text → Text
  | [], tail => tail
  | (gap, c) :: calls, tail => gap ++ (toolOpen ++ '\n' :: (c.json ++ '\n' :: (toolClose ++ renderCalls calls tail)))

def objects (calls : List (Text × Call)) : List CallObject := calls.map fun g => g.2.object

/-- Calls that are spelled, white space around them. -/
structure Sound (serde : SerdeJson) (calls : List (Text × Call)) (tail : Text) : Prop where
  spells : ∀ g ∈ calls, g.2.Spells serde
  gaps : ∀ g ∈ calls, Blank g.1
  ending : Blank tail

theorem Sound.rest (h : Sound serde (g :: calls) tail) : Sound serde calls tail :=
  ⟨fun x hx => h.spells x (List.mem_cons_of_mem g hx), fun x hx => h.gaps x (List.mem_cons_of_mem g hx), h.ending⟩

/-! Where a parser stands in the text of some calls. -/

inductive At (serde : SerdeJson) (p : HermesJsonParser) (x : Text) : List ParserEvent → Prop
  | between (hs : p.state = .text) (hsound : Sound serde calls tail) (h : p.buf ++ x = renderCalls calls tail) :
      At serde p x (callEvents serde p.nextIndex (objects calls))
  | opened (hs : p.state = .inTool) (hspells : Call.Spells serde c) (hsound : Sound serde calls tail)
      (h : p.buf ++ x = '\n' :: (c.json ++ '\n' :: (toolClose ++ renderCalls calls tail))) :
      At serde p x (callEvents serde p.nextIndex (c.object :: objects calls))
  | closing (hs : p.state = .awaitingToolClose) (hsound : Sound serde calls tail)
      (h : p.buf ++ x = '\n' :: (toolClose ++ renderCalls calls tail)) :
      At serde p x (callEvents serde p.nextIndex (objects calls))

/-- A step of a parser shows the front of what it has to. -/
def Front (serde : SerdeJson) (fin : Bool) (p : HermesJsonParser) (x : Text) (o : List ParserEvent) : Prop :=
  ∀ es p' b, step serde fin p = some (es, p', b) → ∃ o', o = visible es ++ o' ∧ At serde p' x o' ∧
    (fin = true → b = false → o' = visible (flush p').1)

theorem front_of_step (hstep : step serde fin p = some (es, p', b)) (ho : o = visible es ++ o') (hat : At serde p' x o')
    (hend : fin = true → b = false → o' = visible (flush p').1) : Front serde fin p x o := by
  intro fs q b' hs
  rw [hstep] at hs
  cases hs
  exact ⟨o', ho, hat, hend⟩

/-- A parser that waits has input to come. -/
theorem front_wait (hstep : step serde fin p = some ([], p', false)) (hat : At serde p' x o) (hx : fin = true → x = [])
    (hmore : x ≠ []) : Front serde fin p x o :=
  front_of_step hstep rfl hat fun hf => absurd (hx hf) hmore

section
variable {serde : SerdeJson} {p : HermesJsonParser} {x : Text} {calls : List (Text × Call)} {tail : Text} {fin : Bool}

theorem closing_front (hs : p.state = .awaitingToolClose) (hsound : Sound serde calls tail)
    (h : p.buf ++ x = '\n' :: (toolClose ++ renderCalls calls tail)) (hx : fin = true → x = []) :
    Front serde fin p x (callEvents serde p.nextIndex (objects calls)) := by
  have hall : p.buf ++ x = ('\n' :: toolClose) ++ renderCalls calls tail := h
  by_cases hle : toolClose.length + 1 ≤ p.buf.length
  · obtain ⟨r, hr⟩ : ('\n' :: toolClose) <+: p.buf :=
      List.prefix_of_prefix_length_le ⟨_, hall.symm⟩ (List.prefix_append p.buf x) hle
    have htrim : trimStart p.buf = toolClose ++ r := by
      rw [← hr]
      rfl
    have hfind : find toolClose (toolClose ++ r) = some 0 :=
      toolClose_markers.find_here (w := []) (by decide) r
    have hlead : p.buf.length - (toolClose ++ r).length = 1 := by
      rw [← hr]
      simp only [List.cons_append, List.length_cons, List.length_append]
      omega
    have hstep : step serde fin p = some ([], { p with buf := p.buf.drop (1 + 0 + toolClose.length), state := .text },
        true) := by
      simp only [step, hs, stepAwaitingClose, htrim, hfind, hlead]
    refine front_of_step hstep rfl (.between (p := ⟨_, .text, p.nextIndex⟩) rfl hsound ?_) (fun _ h => by cases h)
    have hrest := cut_behind hall hle
    rwa [List.length_cons, Nat.add_comm] at hrest
  · have hmore : x ≠ [] := cut_short hall (Nat.lt_of_not_le hle)
    have hfin : fin = false := eq_false_of_ne_true fun hf => hmore (hx hf)
    have hfront : p.buf <+: '\n' :: toolClose :=
      List.prefix_of_prefix_length_le (List.prefix_append p.buf x) ⟨_, hall.symm⟩ (by
        rw [List.length_cons]
        omega)
    obtain ⟨htrim, hshort⟩ : trimStart p.buf <+: toolClose ∧ (trimStart p.buf).length < toolClose.length := by
      cases hbuf : p.buf with
      | nil => exact ⟨List.nil_prefix, by decide⟩
      | cons c t =>
        rw [hbuf] at hfront hle
        obtain ⟨rfl, ht⟩ := List.cons_prefix_cons.mp hfront
        rw [List.length_cons] at hle
        have hsame : trimStart ('\n' :: t) = t := by
          cases t with
          | nil => rfl
          | cons d t =>
            obtain ⟨rfl, -⟩ := List.cons_prefix_cons.mp ht
            rfl
        rw [hsame]
        exact ⟨ht, by omega⟩
    have hnone : find toolClose (trimStart p.buf) = none := by
      cases hf : find toolClose (trimStart p.buf) with
      | none => rfl
      | some n =>
        have hlong := find_le hf
        omega
    have hwait : (trimStart p.buf).isPrefixOf toolClose = true := List.isPrefixOf_iff_prefix.mpr htrim
    have hstep : step serde fin p = some ([], p, false) := by
      simp only [step, hs, stepAwaitingClose, hnone, hwait, hfin, Bool.or_true, Bool.not_false, Bool.and_self, if_true]
    exact front_wait hstep (.closing hs hsound h) hx hmore

/-- The events of a call whose text is read. -/
theorem callOf_spelled (h : Call.Spells serde c) :
    callOf serde c.json = (c.object.name, serde.toStringOr (.object c.object.arguments)) := by
  obtain ⟨v, hv, hname, hargs⟩ := h.reads
  simp only [callOf, hv, hname, hargs]
  rfl

theorem opened_front (hs : p.state = .inTool) (hspells : Call.Spells serde c) (hsound : Sound serde calls tail)
    (h : p.buf ++ x = '\n' :: (c.json ++ '\n' :: (toolClose ++ renderCalls calls tail))) (hx : fin = true → x = []) :
    Front serde fin p x (callEvents serde p.nextIndex (c.object :: objects calls)) := by
  obtain ⟨s, hwritten, hjson⟩ := hspells.written
  have hlen : c.json.length = s.length + 2 := by
    rw [hjson, List.length_cons, List.length_append]
    rfl
  have hwhole : jsonObjectSpan (p.buf ++ x) = some (1, c.json.length) := by
    rw [h, hlen, hjson]
    exact jsonObjectSpan_object hwritten _
  cases hspan : jsonObjectSpan p.buf with
  | some span =>
    have hsame := jsonObjectSpan_append hspan x
    rw [hwhole] at hsame
    cases hsame
    have hall : p.buf ++ x = ('\n' :: c.json) ++ '\n' :: (toolClose ++ renderCalls calls tail) := h
    have hle : c.json.length + 1 ≤ p.buf.length := jsonObjectSpan_lt hspan
    have htake : (p.buf.take (c.json.length + 1)).drop 1 = c.json := by
      have hfront := congrArg (List.take ('\n' :: c.json).length) hall
      rw [List.take_left, List.length_cons, List.take_append_of_le_length hle] at hfront
      rw [hfront]
      rfl
    have hstep : step serde fin p = some ([.toolCallOpen p.nextIndex c.object.name,
        .toolCallArgumentsDelta p.nextIndex (serde.toStringOr (.object c.object.arguments)),
        .toolCallClose p.nextIndex], ⟨p.buf.drop (c.json.length + 1), .awaitingToolClose, p.nextIndex + 1⟩, true) := by
      simp only [step, hs, stepInTool, hspan, htake, callOf_spelled hspells]
    refine front_of_step hstep rfl (.closing (p := ⟨_, .awaitingToolClose, p.nextIndex + 1⟩) rfl hsound ?_) (fun _ h => by cases h)
    exact cut_behind hall hle
  | none =>
    have hmore : x ≠ [] := by
      rintro rfl
      rw [List.append_nil, hspan] at hwhole
      cases hwhole
    have hfin : fin = false := eq_false_of_ne_true fun hf => hmore (hx hf)
    have hstep : step serde fin p = some ([], p, false) := by
      simp only [step, hs, stepInTool, hspan, hfin, Bool.false_and, Bool.false_eq_true, if_false]
    exact front_wait hstep (.opened hs hspells hsound h) hx hmore

/-! White space in front of a call. -/

theorem floor_le (s : Text) (n : Nat) : floorCharBoundary s n ≤ n := by
  have hdown : ∀ n, floorCharBoundary.down s n ≤ n := by
    intro n
    induction n with
    | zero => exact Nat.le_refl 0
    | succ n ih =>
      rw [floorCharBoundary.down]
      split
      · exact Nat.le_refl _
      · exact Nat.le_succ_of_le ih
  unfold floorCharBoundary
  split
  · assumption
  · exact hdown n

/-- No later cut than one where a tag may start. -/
theorem firstCut_le {buf : Text} {tags : List Text} (h : ambiguousTailStart.firstCut buf tags (List.range' lo k) = some n)
    (hlo : lo ≤ cut) (hlt : cut < lo + k) (hs : splitByte cut buf = some (a, t))
    (hopen : (tags.any fun tag => t.isPrefixOf tag) = true) : n ≤ cut := by
  induction k generalizing lo with
  | zero => omega
  | succ k ih =>
    rw [List.range'_succ, ambiguousTailStart.firstCut] at h
    obtain ⟨⟨b, u⟩, hu, h⟩ := Option.bind_eq_some_iff.mp h
    split at h
    · cases h
      exact hlo
    · rename_i hnot
      rcases Nat.lt_or_eq_of_le hlo with hlt' | rfl
      · exact ih h hlt' (by omega)
      · rw [hs] at hu
        cases hu
        exact absurd hopen hnot

theorem emitBuffered_cut {p : HermesJsonParser} {tags : List Text} {emit : Text → List ParserEvent} (hempty : emit [] = [])
    (h : emitBuffered emit tags p false = some (es, p', b)) : ∃ n a r, ambiguousTailStart p.buf tags = some n ∧
      p.buf = a ++ r ∧ byteLen a ≤ n ∧ es = emit a ∧ p' = { p with buf := r } := by
  unfold emitBuffered at h
  rw [if_neg Bool.false_ne_true] at h
  obtain ⟨n, hn, h⟩ := Option.bind_eq_some_iff.mp h
  dsimp only at h
  split at h
  · obtain ⟨⟨a, r⟩, hr, heq⟩ := Option.map_eq_some_iff.mp h
    cases heq
    obtain ⟨hsplit, hlen⟩ := splitByte_append hr
    refine ⟨n, a, r, hn, hsplit.symm, ?_, rfl, rfl⟩
    rw [hlen]
    exact floor_le _ n
  · cases h
    exact ⟨n, [], _, hn, rfl, Nat.zero_le n, hempty.symm, rfl⟩

/-- What is held behind white space is held in full. -/
theorem held_front {gap t : Text} (ht : t <+: toolOpen) (hne : t ≠ []) (hlt : t.length < toolOpen.length)
    (hn : ambiguousTailStart (gap ++ t) textOpenTags = some n) : n ≤ byteLen gap := by
  have hascii : IsAscii t := IsAscii.sub (by decide : IsAscii toolOpen) fun c hc => ht.subset hc
  have hsplit : splitByte (byteLen gap) (gap ++ t) = some (gap, t) := by
    have hat := splitByte_at (gap ++ t) gap.length
    rw [byteAt, List.take_left, List.drop_left] at hat
    exact hat
  have hpos : 0 < t.length := List.length_pos_iff.mpr hne
  have hmax : (textOpenTags.map byteLen).foldl max 0 = toolOpen.length := rfl
  unfold ambiguousTailStart at hn
  rw [hmax] at hn
  have hlen : byteLen (gap ++ t) = byteLen gap + t.length := by rw [byteLen_append, byteLen_ascii hascii]
  refine firstCut_le hn (by omega) (by omega) hsplit ?_
  exact List.any_eq_true.mpr ⟨toolOpen, List.mem_cons_self, List.isPrefixOf_iff_prefix.mpr ht⟩

/-- With no tag in it, the front of the buffer is given out. -/
theorem text_cut (hs : p.state = .text) (he : earliest textOpenTags p.buf = none)
    (hstep : step serde fin p = some (es, p', b)) : ∃ a r, p.buf = a ++ r ∧ es = emitText a ∧ p' = { p with buf := r } ∧
      (fin = false → ∃ n, ambiguousTailStart p.buf textOpenTags = some n ∧ byteLen a ≤ n) := by
  have hemit : emitBuffered emitText textOpenTags p fin = some (es, p', b) := by
    simpa only [step, hs, stepText, he] using hstep
  cases fin with
  | true =>
    rw [emitBuffered_finish emitText_nil] at hemit
    cases hemit
    exact ⟨p.buf, [], (List.append_nil _).symm, rfl, rfl, (fun h => by cases h)⟩
  | false =>
    obtain ⟨n, a, r, hn, hbuf, hlen, hes, hp'⟩ := emitBuffered_cut emitText_nil hemit
    exact ⟨a, r, hbuf, hes, hp', fun _ => ⟨n, hn, hlen⟩⟩

theorem flush_blank (h : Blank p.buf) (hs : p.state = .text) : visible (flush p).1 = [] := by
  unfold flush
  split
  · rfl
  · rw [hs]
    exact visible_blank h

theorem ending_front (hs : p.state = .text) (htail : Blank tail) (h : p.buf ++ x = tail) : Front serde fin p x [] := by
  have hbuf : Blank p.buf := fun c hc => htail c (h ▸ List.mem_append_left x hc)
  have hnone : earliest textOpenTags p.buf = none := by
    rw [earliest_free]
    intro t ht hin
    obtain ⟨r, rfl, -⟩ := textOpen_markers.eq_cons ht
    exact hbuf.free rfl (hin.subset List.mem_cons_self)
  intro es p' b hstep
  obtain ⟨a, r, hparts, rfl, rfl, -⟩ := text_cut hs hnone hstep
  rw [hparts] at hbuf
  have hr : Blank r := fun c hc => hbuf c (List.mem_append_right a hc)
  refine ⟨[], ?_, ?_, fun _ _ => (flush_blank (p := { p with buf := r }) hr hs).symm⟩
  · rw [visible_blank fun c hc => hbuf c (List.mem_append_left r hc)]
    rfl
  · refine @At.between _ _ _ [] (r ++ x) hs ⟨nofun, nofun, fun c hc => htail c ?_⟩ rfl
    rw [← h, hparts, List.append_assoc]
    exact List.mem_append_right a hc

theorem between_front (hs : p.state = .text) (hsound : Sound serde calls tail)
    (h : p.buf ++ x = renderCalls calls tail) (hx : fin = true → x = []) :
    Front serde fin p x (callEvents serde p.nextIndex (objects calls)) := by
  cases calls with
  | nil => exact ending_front hs hsound.ending h
  | cons g calls =>
    obtain ⟨gap, c⟩ := g
    have hgap : Blank gap := hsound.gaps (gap, c) List.mem_cons_self
    have hall : p.buf ++ x = (gap ++ toolOpen) ++ '\n' :: (c.json ++ '\n' :: (toolClose ++ renderCalls calls tail)) := by
      rw [h, renderCalls, List.append_assoc]
    have hwhole : earliest textOpenTags (p.buf ++ x) = some (gap.length, toolOpen) := by
      rw [h]
      exact textOpen_markers.earliest_here List.mem_cons_self (hgap.free rfl) _
    rcases textOpen_markers.earliest_cut hwhole with ⟨he, hle⟩ | ⟨he, hlt⟩
    · have hne : ¬ toolOpen = thinkOpen := by decide
      have hstep : step serde fin p = some (emitText (p.buf.take gap.length),
          { p with buf := p.buf.drop (gap.length + toolOpen.length), state := .inTool }, true) := by
        simp only [step, hs, stepText, he, if_neg hne]
      have hfront : p.buf.take gap.length = gap := by
        have htake := congrArg (List.take gap.length) hall
        rw [List.take_append_of_le_length (by omega), List.append_assoc, List.take_left] at htake
        exact htake
      refine front_of_step hstep ?_ (.opened (p := ⟨_, .inTool, p.nextIndex⟩) rfl (hsound.spells _ List.mem_cons_self)
        hsound.rest ?_) (fun _ h => by cases h)
      · rw [hfront, visible_blank hgap]
        rfl
      · have hrest := cut_behind hall (by rw [List.length_append]; exact hle)
        rwa [List.length_append] at hrest
    · have hmore : x ≠ [] := cut_short hall (by rw [List.length_append]; exact hlt)
      have hfin : fin = false := eq_false_of_ne_true fun hf => hmore (hx hf)
      have hfront : p.buf <+: gap ++ toolOpen :=
        List.prefix_of_prefix_length_le (List.prefix_append p.buf x) ⟨_, hall.symm⟩ (by rw [List.length_append]; omega)
      intro es p' b hstep
      obtain ⟨a, r, hparts, rfl, rfl, hcut⟩ := text_cut hs he hstep
      obtain ⟨n, hn, hlen⟩ := hcut hfin
      have ha : a <+: gap := by
        by_cases hshort : p.buf.length ≤ gap.length
        · have hin : p.buf <+: gap := List.prefix_of_prefix_length_le hfront (List.prefix_append gap toolOpen) hshort
          exact (hparts ▸ List.prefix_append a r).trans hin
        · obtain ⟨t, ht⟩ : gap <+: p.buf :=
            List.prefix_of_prefix_length_le (List.prefix_append gap toolOpen) hfront (by omega)
          rw [← ht, List.length_append] at hlt hshort
          rw [← ht] at hfront hn hparts
          have hp : t <+: toolOpen := (List.prefix_append_right_inj gap).mp hfront
          have hne : t ≠ [] := by
            rintro rfl
            exact hshort (Nat.le_refl _)
          have hsize := Nat.le_trans hlen (held_front hp hne (by omega) hn)
          rcases List.append_eq_append_iff.mp hparts with ⟨m, hm, hr⟩ | ⟨m, hm, hr⟩
          · rw [hm, byteLen_append] at hsize
            have hempty : m = [] := by
              apply Decidable.byContradiction
              intro hm'
              have hpos := byteLen_pos hm'
              omega
            exact ⟨[], by rw [hm, hempty, List.append_nil, List.append_nil]⟩
          · exact ⟨m, hm.symm⟩
      obtain ⟨u, rfl⟩ := ha
      have hshorter : Sound serde ((u, c) :: calls) tail := by
        refine ⟨?_, ?_, hsound.ending⟩
        · rintro g (_ | ⟨_, hg⟩)
          · exact hsound.spells (a ++ u, c) List.mem_cons_self
          · exact hsound.rest.spells g hg
        · rintro g (_ | ⟨_, hg⟩)
          · exact fun d hd => hgap d (List.mem_append_right a hd)
          · exact hsound.rest.gaps g hg
      refine ⟨callEvents serde p.nextIndex (objects ((u, c) :: calls)), ?_, .between (p := { p with buf := r }) hs hshorter ?_,
        fun hf => absurd (hx hf) hmore⟩
      · rw [visible_blank fun d hd => hgap d (List.mem_append_left u hd)]
        rfl
      · rw [hparts, renderCalls, List.append_assoc, List.append_assoc] at h
        exact List.append_cancel_left h

end

theorem at_front {serde : SerdeJson} (h : At serde p x o) (hx : fin = true → x = []) : Front serde fin p x o := by
  cases h with
  | between hs hsound h => exact between_front hs hsound h hx
  | opened hs hspells hsound h => exact opened_front hs hspells hsound h hx
  | closing hs hsound h => exact closing_front hs hsound h hx

theorem at_shows (serde : SerdeJson) : Shows (machine serde) visible (At serde) where
  append := visible_append _ _
  fed := by
    intro p c x o h
    cases h with
    | between hs hsound h => exact .between (p := (machine serde).feed p c) hs hsound ((List.append_assoc ..).trans h)
    | opened hs hspells hsound h =>
      exact .opened (p := (machine serde).feed p c) hs hspells hsound ((List.append_assoc ..).trans h)
    | closing hs hsound h => exact .closing (p := (machine serde).feed p c) hs hsound ((List.append_assoc ..).trans h)
  step := fun h hx hs => at_front h hx _ _ _ hs

theorem new_at {serde : SerdeJson} {chunks : List Text} (hsound : Sound serde calls tail) (hchunks : chunks.flatten = renderCalls calls tail) :
    At serde .new chunks.flatten (callEvents serde 0 (objects calls)) :=
  .between (p := .new) rfl hsound (by rw [hchunks]; rfl)

/-- Calls in the template's form come out as they went in, just when no push cuts into a character of
the white space around them. -/
theorem hermes_round_trip_iff (serde : SerdeJson) (calls : List (Text × Call)) (tail : Text)
    (hsound : Sound serde calls tail) (hserde : ∀ g ∈ calls, Reads serde (.object g.2.object.arguments))
    (chunks : List Text) (hchunks : chunks.flatten = renderCalls calls tail) :
    (∃ es, (machine serde).stream .new chunks = some es ∧ Opened serde 0 (objects calls) (visible es)) ↔
      (machine serde).Safely CutsWhole .new chunks := by
  rw [← stream_safely (step_some serde)]
  constructor
  · rintro ⟨es, hes, -⟩
    rw [hes]
    rfl
  · intro h
    obtain ⟨es, hes⟩ := Option.isSome_iff_exists.mp h
    refine ⟨es, hes, ?_⟩
    rw [(at_shows serde).stream (new_at hsound hchunks) hes]
    apply callEvents_opened
    intro c hc
    obtain ⟨g, hg, rfl⟩ := List.mem_map.mp hc
    exact hserde g hg

/-- `{"name":"f","arguments":{}}`. -/
def plainCall : Call where
  object := ⟨['f'], []⟩
  json := '{' :: (('"' :: (nameKey ++ '"' :: ':' :: '"' :: 'f' :: '"' :: ',' :: '"' :: (argumentsKey ++
    '"' :: ':' :: '{' :: '}' :: []))) ++ ['}'])

def plainSerde : SerdeJson where
  fromStr s :=
    if s = plainCall.json then some (.object [(nameKey, .string ['f']), (argumentsKey, .object [])])
    else if s = emptyObject then some (.object [])
    else none
  toString
    | .object [] => some emptyObject
    | _ => none

theorem plain_sound (gap : Text) (hgap : Blank gap) : Sound plainSerde [(gap, plainCall)] [] where
  spells := by
    rintro g (_ | ⟨_, hg⟩)
    · have hname : Written .members ('"' :: (nameKey ++ '"' :: ':' :: '"' :: 'f' :: '"' :: [])) := by
        refine .member (w := []) (x := []) nofun ?_ nofun (.string (s := ['f']) ?_)
        · exact .of_plain (by decide)
        · exact .of_plain (by decide)
      have hargs : Written .members ('"' :: (argumentsKey ++ '"' :: ':' :: '{' :: '}' :: [])) := by
        refine .member (w := []) (x := []) nofun (.of_plain (by decide)) nofun (.object (s := []) (.empty nofun))
      exact ⟨⟨_, .members hname hargs, rfl⟩, _, rfl, rfl, rfl⟩
    · cases hg
  gaps := by
    rintro g (_ | ⟨_, hg⟩)
    · exact hgap
    · cases hg
  ending := nofun

theorem plain_reads (gap : Text) :
    ∀ g ∈ [(gap, plainCall)], Reads plainSerde (.object g.2.object.arguments) := by
  rintro g (_ | ⟨_, hg⟩)
  · exact ⟨emptyObject, rfl, rfl⟩
  · cases hg

theorem plain_round_trip : (∃ es, (machine plainSerde).stream .new [renderCalls [(['\n'], plainCall)] []] = some es ∧
      Opened plainSerde 0 [plainCall.object] (visible es)) ↔
    (machine plainSerde).Safely CutsWhole .new [renderCalls [(['\n'], plainCall)] []] :=
  hermes_round_trip_iff plainSerde [(['\n'], plainCall)] [] (plain_sound _ (by unfold Blank; decide)) (plain_reads _) _
    (by rw [List.flatten_cons, List.flatten_nil, List.append_nil])

/-- A no-break space in front of a call, on its own. -/
theorem noBreakSpace_panics : ¬ ∀ serde calls tail, Sound serde calls tail →
    (∀ g ∈ calls, Reads serde (.object g.2.object.arguments)) → ∀ chunks, chunks.flatten = renderCalls calls tail →
    ∃ es, (machine serde).stream .new chunks = some es ∧ Opened serde 0 (objects calls) (visible es) := by
  intro h
  obtain ⟨es, hes, -⟩ := h plainSerde [(['\u00a0'], plainCall)] [] (plain_sound _ (by unfold Blank; decide))
    (plain_reads _) [['\u00a0'], renderCalls [([], plainCall)] []] rfl
  have hstep : step plainSerde false ⟨['\u00a0'], .text, 0⟩ = none := rfl
  have hdrain : (machine plainSerde).drain false ⟨['\u00a0'], .text, 0⟩ = none := drain_fault hstep
  rw [Machine.stream, push] at hes
  change ((machine plainSerde).drain false ⟨['\u00a0'], .text, 0⟩).bind _ = _ at hes
  rw [hdrain] at hes
  cases hes

end Flambeau.Server.ToolCallParser.Hermes
