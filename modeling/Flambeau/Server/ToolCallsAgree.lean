import Flambeau.Server.ToolCallParser.Gemma4Events
import Flambeau.Server.ToolCallParser.HermesEvents
import Flambeau.Server.ToolCallParser.QwenUnclosed
import Flambeau.Server.ToolCalls

namespace Flambeau.Server
open Flambeau.Stream ToolCallParser

/-! What is sent, by the events. -/

/-- What a client does on an event. -/
def clientEvent (calls : List ClientCall) : ParserEvent → List ClientCall
  | .textDelta _ | .thinkDelta _ | .toolCallClose _ => calls
  | .toolCallOpen index name => receive ⟨index, some (callId index), some name, none⟩ calls
  | .toolCallArgumentsDelta index arguments => receive ⟨index, none, none, some arguments⟩ calls

theorem assembled_emitChunk (t : Turn) (d : Delta) :
    assembled (t.emitChunk d).sent = receiveDelta (assembled t.sent) d := by
  unfold assembled Turn.emitChunk
  rw [List.foldl_append]
  rfl

theorem assembled_emitEvent (parallel : Bool) (t : Turn) (e : ParserEvent) :
    assembled (emitEvent parallel t e).sent = clientEvent (assembled t.sent) e := by
  cases e with
  | textDelta s => exact assembled_emitChunk t _
  | thinkDelta s => exact assembled_emitChunk t _
  | toolCallOpen index name => exact assembled_emitChunk _ _
  | toolCallArgumentsDelta index arguments => exact assembled_emitChunk _ _
  | toolCallClose index =>
    cases parallel <;> rfl

theorem assembled_emitEvents (parallel : Bool) (t : Turn) (events : List ParserEvent) :
    assembled (emitEvents parallel t events).sent = events.foldl clientEvent (assembled t.sent) := by
  induction events generalizing t with
  | nil => rfl
  | cons e events ih =>
    rw [emitEvents, List.foldl_cons, List.foldl_cons, ← assembled_emitEvent parallel t e]
    exact ih _

theorem receive_ne_nil (d : ToolCallDelta) (calls : List ClientCall) : receive d calls ≠ [] := by
  cases calls with
  | nil => exact nofun
  | cons c calls =>
    unfold receive
    split <;> exact nofun

/-- The flag is up when the client has a call. -/
theorem hasToolCalls_emitEvent (parallel : Bool) {t : Turn} (ht : t.hasToolCalls = true ↔ assembled t.sent ≠ [])
    (e : ParserEvent) :
    (emitEvent parallel t e).hasToolCalls = true ↔ assembled (emitEvent parallel t e).sent ≠ [] := by
  rw [assembled_emitEvent]
  cases e with
  | textDelta s => exact ht
  | thinkDelta s => exact ht
  | toolCallOpen index name => exact iff_of_true rfl (receive_ne_nil _ _)
  | toolCallArgumentsDelta index arguments => exact iff_of_true rfl (receive_ne_nil _ _)
  | toolCallClose index =>
    cases parallel <;> exact ht

theorem hasToolCalls_emitEvents (parallel : Bool) {t : Turn} (ht : t.hasToolCalls = true ↔ assembled t.sent ≠ [])
    (events : List ParserEvent) :
    (emitEvents parallel t events).hasToolCalls = true ↔
      assembled (emitEvents parallel t events).sent ≠ [] := by
  induction events generalizing t with
  | nil => exact ht
  | cons e events ih => exact ih (hasToolCalls_emitEvent parallel ht e)

/-! With parallel calls nothing is cut off. -/

theorem emitEvents_append (parallel : Bool) (t : Turn) (es fs : List ParserEvent) :
    emitEvents parallel t (es ++ fs) = emitEvents parallel (emitEvents parallel t es) fs :=
  List.foldl_append

theorem emitEvents_keeps (t : Turn) (events : List ParserEvent) :
    (emitEvents true t events).abortAfterClose = t.abortAfterClose := by
  induction events generalizing t with
  | nil => rfl
  | cons e events ih =>
    refine (ih _).trans ?_
    cases e <;> rfl

theorem emitDeltas_events (b : BoxedParser) (t : Turn) (p : b.State) (ht : t.abortAfterClose = false)
    (texts : List Text) :
    (emitDeltas true b t p texts).bind (fun r => (b.finish r.2).map fun tail => emitEvents true r.1 tail.1) =
      (b.eventsFrom p texts).map (emitEvents true t) := by
  induction texts generalizing t p with
  | nil =>
    unfold emitDeltas BoxedParser.eventsFrom
    rw [Option.bind_some, Option.map_map]
    rfl
  | cons text rest ih =>
    unfold emitDeltas BoxedParser.eventsFrom
    cases hpush : b.push p text with
    | none => rfl
    | some r =>
      have hflag : (emitEvents true t r.1).abortAfterClose = false := (emitEvents_keeps t r.1).trans ht
      simp only [Option.bind_some, hflag, Bool.false_eq_true, if_false]
      rw [ih _ _ hflag, Option.map_map]
      congr 1
      funext es
      exact (emitEvents_append true t r.1 es).symm

/-- A turn's frames are those of the events of its chunks. -/
theorem streamCompletionSse_events (b : BoxedParser) (toolForcePrefix : Option Text) (texts : List Text) :
    streamCompletionSse true b toolForcePrefix texts =
      (b.events (toolForcePrefix.toList ++ texts)).map (emitEvents true .start) := by
  cases toolForcePrefix with
  | none => exact emitDeltas_events b .start b.init rfl texts
  | some pfx =>
    unfold streamCompletionSse BoxedParser.events
    rw [Option.toList_some, List.singleton_append, BoxedParser.eventsFrom]
    dsimp only
    cases b.push b.init pfx with
    | none => rfl
    | some r =>
      have hflag : (emitEvents true .start r.1).abortAfterClose = false := emitEvents_keeps _ r.1
      simp only [Option.map_some, Option.bind_some]
      rw [emitDeltas_events b _ _ hflag, Option.map_map]
      congr 1
      funext es
      exact (emitEvents_append true _ r.1 es).symm

/-! Coalescing. -/

theorem splitEvent_merge (s : Split) (a b ab : ParserEvent) (h : a.merge b = some ab) :
    splitEvent s ab = splitEvent (splitEvent s a) b := by
  cases a <;> cases b <;> simp only [ParserEvent.merge, Option.ite_none_right_eq_some, reduceCtorEq] at h
  · cases h
    simp [splitEvent]
  · cases h
    rfl
  · obtain ⟨rfl, h⟩ := h
    cases h
    simp [splitEvent]

theorem splitEvents_coalesce (events : List ParserEvent) :
    splitEvents (ParserEvent.coalesce events) = splitEvents events := by
  unfold splitEvents
  rw [show (ParserEvent.coalesce events).foldl splitEvent .start = events.foldl splitEvent .start from
    Merger.foldl_coalesce splitEvent_merge _ events]

/-! The client's calls beside the walk's. -/

/-- Calls read in full, by their numbers, and the one that is still open. -/
inductive Ledger : Phase → List ClientCall → Split → Prop where
  | outside : (∀ c ∈ calls, c.index < n) → Ledger (.outside n) calls ⟨content, calls.map ClientCall.call, fun _ => none⟩
  | opened : (∀ c ∈ calls, c.index < n) → Ledger (.opened n) (calls ++ [⟨n, name, args⟩])
      ⟨content, calls.map ClientCall.call, Function.update (fun _ => none) n (some (name, args))⟩
  | answered : (∀ c ∈ calls, c.index < n) → Ledger (.answered n) (calls ++ [⟨n, name, args⟩])
      ⟨content, calls.map ClientCall.call, Function.update (fun _ => none) n (some (name, args))⟩

theorem receive_first (h : ∀ c ∈ calls, c.index ≠ d.index) :
    receive d calls = calls ++ [⟨d.index, d.name.getD [], d.arguments.getD []⟩] := by
  induction calls with
  | nil => rfl
  | cons c calls ih =>
    have hc := h c List.mem_cons_self
    have hrest := ih fun x hx => h x (List.mem_cons_of_mem c hx)
    rw [receive, if_neg hc, hrest]
    rfl

theorem receive_more (h : ∀ c ∈ calls, c.index ≠ d.index) (hlast : last.index = d.index) :
    receive d (calls ++ [last]) =
      calls ++ [⟨last.index, last.name ++ d.name.getD [], last.arguments ++ d.arguments.getD []⟩] := by
  induction calls with
  | nil =>
    rw [List.nil_append, receive, if_pos hlast]
    rfl
  | cons c calls ih =>
    have hc := h c List.mem_cons_self
    have hrest := ih fun x hx => h x (List.mem_cons_of_mem c hx)
    rw [List.cons_append, receive, if_neg hc, hrest]
    rfl

theorem Ledger.open_ (h : Ledger (.outside n) calls s) (name : Text) :
    Ledger (.opened n) (clientEvent calls (.toolCallOpen n name)) (splitEvent s (.toolCallOpen n name)) := by
  cases h with
  | outside hlt =>
    rw [clientEvent, receive_first fun c hc => Nat.ne_of_lt (hlt c hc)]
    exact .opened hlt

theorem Ledger.answer (h : Ledger (.opened n) calls s) (more : Text) :
    Ledger (.answered n) (clientEvent calls (.toolCallArgumentsDelta n more))
      (splitEvent s (.toolCallArgumentsDelta n more)) := by
  cases h with
  | opened hlt =>
    rw [clientEvent, receive_more (fun c hc => Nat.ne_of_lt (hlt c hc)) rfl]
    simp only [splitEvent, Function.update_self, Option.getD_some, Option.getD_none, List.append_nil,
      Function.update_idem]
    exact .answered hlt

theorem Ledger.close (h : Ledger (.answered n) calls s) :
    Ledger (.outside (n + 1)) (clientEvent calls (.toolCallClose n)) (splitEvent s (.toolCallClose n)) := by
  cases h with
  | @answered front _ content name args hlt =>
    have hnone : Function.update (Function.update (fun _ => none) n (some (name, args))) n none =
        (fun _ => none : Nat → Option (Text × Text)) := by
      rw [Function.update_idem]
      exact Function.update_eq_self n _
    have hcalls : front.map ClientCall.call ++ [⟨callId n, name, args⟩] =
        (front ++ [(⟨n, name, args⟩ : ClientCall)]).map ClientCall.call := by
      rw [List.map_append]
      rfl
    simp only [clientEvent, splitEvent, Function.update_self, Option.getD_some, hnone, hcalls]
    refine .outside fun c hc => ?_
    rcases List.mem_append.mp hc with hc | hc
    · exact Nat.lt_succ_of_lt (hlt c hc)
    · rw [List.mem_singleton.mp hc]
      exact Nat.lt_succ_self n

/-- What is read keeps the two in step. -/
theorem Ledger.leads (h : Ledger p calls s) (hes : Leads named valid p es q) :
    Ledger q (es.foldl clientEvent calls) (es.foldl splitEvent s) := by
  induction hes generalizing calls s with
  | nil => exact h
  | text _ ih =>
    cases h with
    | outside hlt => exact ih (.outside hlt)
  | think _ ih =>
    cases h with
    | outside hlt => exact ih (.outside hlt)
  | opens _ _ ih => exact ih (h.open_ _)
  | arguments _ _ ih => exact ih (h.answer _)
  | closes _ ih => exact ih h.close

theorem ledger_start : Ledger (.outside 0) [] .start := .outside nofun

end Flambeau.Server

namespace Flambeau.Server
open Flambeau.Stream ToolCallParser

/-! Text and closes, for the two of them. -/

theorem clientEvent_texts {es : List ParserEvent} (h : ∀ e ∈ es, ∃ s, e = ParserEvent.textDelta s) (calls : List ClientCall) :
    es.foldl clientEvent calls = calls := by
  induction es with
  | nil => rfl
  | cons e es ih =>
    obtain ⟨s, rfl⟩ := h e List.mem_cons_self
    exact ih fun x hx => h x (List.mem_cons_of_mem _ hx)

theorem splitEvent_texts {es : List ParserEvent} (h : ∀ e ∈ es, ∃ s, e = ParserEvent.textDelta s) (s : Split) :
    (es.foldl splitEvent s).toolCalls = s.toolCalls := by
  induction es generalizing s with
  | nil => rfl
  | cons e es ih =>
    obtain ⟨text, rfl⟩ := h e List.mem_cons_self
    exact ih (fun x hx => h x (List.mem_cons_of_mem _ hx)) _

theorem clientEvent_closes {es : List ParserEvent} (h : ∀ e ∈ es, ∃ i, e = ParserEvent.toolCallClose i) (calls : List ClientCall) :
    es.foldl clientEvent calls = calls := by
  induction es with
  | nil => rfl
  | cons e es ih =>
    obtain ⟨i, rfl⟩ := h e List.mem_cons_self
    exact ih fun x hx => h x (List.mem_cons_of_mem _ hx)

/-- A close makes a call, also where none was opened. -/
theorem splitEvent_closes {es : List ParserEvent} (h : ∀ e ∈ es, ∃ i, e = ParserEvent.toolCallClose i) (s : Split) :
    (es.foldl splitEvent s).toolCalls.length = s.toolCalls.length + es.length := by
  induction es generalizing s with
  | nil => rfl
  | cons e es ih =>
    obtain ⟨i, rfl⟩ := h e List.mem_cons_self
    rw [List.foldl_cons, ih (fun x hx => h x (List.mem_cons_of_mem _ hx))]
    simp only [splitEvent, List.length_append, List.length_cons, List.length_nil]
    omega

/-- The client's calls and the response body's. -/
def clientCalls (es : List ParserEvent) : List ToolCall := (es.foldl clientEvent []).map ClientCall.call

theorem Ledger.outside_calls (h : Ledger (.outside n) calls s) : calls.map ClientCall.call = s.toolCalls := by
  cases h
  rfl

theorem Ledger.inside_calls (h : Ledger p calls s) (hp : p = .opened n ∨ p = .answered n) :
    calls.length = s.toolCalls.length + 1 := by
  cases h with
  | outside => simp at hp
  | opened => simp
  | answered => simp

theorem closed_same (h : AnyCalls (.outside 0) es (.outside n)) : clientCalls es = (splitEvents es).2 :=
  (ledger_start.leads h).outside_calls

/-- An open call is one more for the client, a close of no call one more for the body. -/
theorem unclosed_lengths (h : Unclosed es) : (clientCalls es).length ≠ (splitEvents es).2.length := by
  intro hlen
  unfold clientCalls splitEvents at hlen
  rw [List.length_map] at hlen
  cases h with
  | @opened front n rest hfront hrest =>
    have hledger := (ledger_start.leads hfront).inside_calls (.inl rfl)
    simp only [List.foldl_append, clientEvent_texts hrest, splitEvent_texts hrest] at hlen
    omega
  | @answered front n rest hfront hrest =>
    have hledger := (ledger_start.leads hfront).inside_calls (.inr rfl)
    simp only [List.foldl_append, clientEvent_texts hrest, splitEvent_texts hrest] at hlen
    omega
  | @overclosed front n more rest hfront hne hmore hrest =>
    have hledger := congrArg List.length (ledger_start.leads hfront).outside_calls
    have hpos := List.length_pos_iff.mpr hne
    rw [List.length_map] at hledger
    simp only [List.foldl_append, clientEvent_texts hrest, splitEvent_texts hrest, clientEvent_closes hmore,
      splitEvent_closes hmore] at hlen
    omega

theorem unclosed_differs (h : Unclosed es) : clientCalls es ≠ (splitEvents es).2 :=
  fun heq => unclosed_lengths h (congrArg List.length heq)

/-! The formats. -/

/-- The input does not end inside a call, where the format leaves it open. -/
def ClosesCalls (serde : Gemma4.GemmaSerde) (format : ToolCallFormat) (startInReasoning : Bool)
    (chunks : List Text) : Prop :=
  match format with
  | .qwenCoder => (QwenCoder.machine serde.toSerdeJson).Throughout (fun _ => True) QwenCoder.OutsideCall
      (QwenCoder.start startInReasoning) chunks
  | .hermes | .gemma4 => True

theorem hermes_closed {serde : Gemma4.GemmaSerde}
    (h : (dispatcher serde .hermes startInReasoning).events chunks = some es) :
    ∃ n, AnyCalls (.outside 0) es (.outside n) := by
  have hstream := (eventsFrom_machine _ chunks).symm.trans h
  obtain ⟨n, hn⟩ := Hermes.stream_calls hstream
  refine ⟨n, ?_⟩
  cases startInReasoning <;> exact hn

theorem gemma4_closed {serde : Gemma4.GemmaSerde} (hserde : serde.Objects)
    (h : (dispatcher serde .gemma4 startInReasoning).events chunks = some es) :
    ∃ n, AnyCalls (.outside 0) es (.outside n) := by
  have hstream := (eventsFrom_gemma4 serde _ chunks).symm.trans h
  obtain ⟨n, hn⟩ := Gemma4.stream_calls hserde hstream
  exact ⟨n, hn.any⟩

theorem qwenCoder_ends {serde : Gemma4.GemmaSerde}
    (h : (dispatcher serde .qwenCoder startInReasoning).events chunks = some es) :
    (ClosesCalls serde .qwenCoder startInReasoning chunks → ∃ n, AnyCalls (.outside 0) es (.outside n)) ∧
      (¬ ClosesCalls serde .qwenCoder startInReasoning chunks → Unclosed es) :=
  QwenCoder.stream_ends (QwenCoder.start_between serde.toSerdeJson startInReasoning)
    ((eventsFrom_machine _ chunks).symm.trans h)

/-- The client's calls are those of the body just when the calls are closed. -/
theorem same_calls_iff {serde : Gemma4.GemmaSerde} (hserde : serde.Objects)
    (h : (dispatcher serde format startInReasoning).events chunks = some es) :
    clientCalls es = (splitEvents es).2 ↔ ClosesCalls serde format startInReasoning chunks := by
  cases format with
  | hermes =>
    obtain ⟨n, hn⟩ := hermes_closed h
    exact iff_of_true (closed_same hn) trivial
  | gemma4 =>
    obtain ⟨n, hn⟩ := gemma4_closed hserde h
    exact iff_of_true (closed_same hn) trivial
  | qwenCoder =>
    obtain ⟨hclosed, hunclosed⟩ := qwenCoder_ends h
    constructor
    · intro hsame
      exact Classical.byContradiction fun hopen => unclosed_differs (hunclosed hopen) hsame
    · intro hends
      obtain ⟨n, hn⟩ := hclosed hends
      exact closed_same hn

/-- A turn's client has the calls of the response body, and the finish reason says whether there are any. -/
def Agree (turn : Turn) (res : Option DecodeEnd) (body : List ToolCall) : Prop :=
  (assembled turn.sent).map ClientCall.call = body ∧ (finishReason turn res = .toolCalls ↔ body ≠ [])

theorem finishReason_eq (turn : Turn) (res : Option DecodeEnd) :
    finishReason turn res = .toolCalls ↔ turn.hasToolCalls = true := by
  unfold finishReason
  split
  · rename_i h
    exact iff_of_true rfl h
  · rename_i h
    cases res with
    | none => exact iff_of_false nofun h
    | some r => exact iff_of_false nofun h

theorem agree_iff (es : List ParserEvent) (res : Option DecodeEnd) (body : List ToolCall) :
    Agree (emitEvents true .start es) res body ↔ clientCalls es = body := by
  have hsent : (assembled (emitEvents true .start es).sent).map ClientCall.call = clientCalls es := by
    rw [assembled_emitEvents]
    rfl
  unfold Agree
  rw [hsent]
  refine ⟨fun h => h.1, fun h => ⟨h, ?_⟩⟩
  have hflag : (emitEvents true .start es).hasToolCalls = true ↔ assembled (emitEvents true .start es).sent ≠ [] :=
    hasToolCalls_emitEvents true (by simp [Turn.start, assembled]) es
  rw [finishReason_eq, hflag, ← h, ← hsent]
  simp

theorem openF_events : (dispatcher Gemma4.emptySerde .qwenCoder false).events [QwenCoder.openF] =
    some [.toolCallOpen 0 ['f']] :=
  (eventsFrom_machine _ _).trans (QwenCoder.stream_openF Gemma4.emptySerde.toSerdeJson)

end Flambeau.Server
