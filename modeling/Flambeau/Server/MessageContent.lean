import Flambeau.Server.MessageStreams

namespace Flambeau.Server.Messages
open Flambeau.Stream Flambeau.Systems Flambeau.Systems.Outbox ToolCallParser

/-! Whole streams. -/

/-- What an event gives the client to see. -/
inductive Voice where
  | reasoning
  | answer
deriving DecidableEq

def voice : ParserEvent → Option Voice
  | .thinkDelta s => if s.isEmpty then none else some .reasoning
  | .textDelta s => if s.isEmpty then none else some .answer
  | .toolCallOpen _ _ => some .answer
  | .toolCallArgumentsDelta _ _ | .toolCallClose _ => none

/-- What would have to follow for a delta to a block that is closed. -/
def awaited (b : Blocks) : List Voice :=
  if b.thinkingClosed then [.reasoning]
  else if b.thinkingIdx.isSome then [.answer, .reasoning]
  else [.reasoning, .answer, .reasoning]

theorem awaited_answer (hidx : b'.thinkingIdx = b.thinkingIdx) (hclosed : b'.thinkingClosed = b.thinkingIdx.isSome)
    (hno : b.thinkingIdx = none → b.thinkingClosed = false) (rest : List Voice) :
    (awaited b).Sublist (.answer :: rest) ↔ (awaited b').Sublist rest := by
  unfold awaited
  rw [hidx, hclosed]
  cases hti : b.thinkingIdx with
  | none =>
    rw [hno hti]
    simp [List.sublist_cons_iff]
  | some i =>
    cases b.thinkingClosed with
    | true => simp [List.sublist_cons_iff]
    | false => exact List.cons_sublist_cons

theorem awaited_reasoning (hopen : b.thinkingClosed = false) (hidx : b'.thinkingIdx.isSome = true)
    (hopen' : b'.thinkingClosed = false) (rest : List Voice) :
    (awaited b).Sublist (.reasoning :: rest) ↔ (awaited b').Sublist rest := by
  unfold awaited
  rw [hopen, hidx, hopen']
  cases b.thinkingIdx.isSome with
  | true => simp [List.sublist_cons_iff]
  | false => exact List.cons_sublist_cons

theorem awaited_same (hidx : b'.thinkingIdx = b.thinkingIdx) (hclosed : b'.thinkingClosed = b.thinkingClosed) :
    awaited b' = awaited b := by
  unfold awaited
  rw [hidx, hclosed]

theorem awaited_ne (b : Blocks) : ¬ (awaited b).Sublist [] := by
  unfold awaited
  split
  · simp
  · split <;> simp

/-- The client can read the stream, unless it gets what would have to follow. -/
def Reads (t : Told) (b : Blocks) (r : Reader) (es : List ParserEvent) : Prop :=
  (¬ (awaited b).Sublist (es.filterMap voice) → ∃ fs b' r' layout ρ, Sends (drainEvents es) b () fs b' ∧
      r.readAll fs = some r' ∧ Shows layout ρ (es.foldl Told.hear t) b' r') ∧
    ((awaited b).Sublist (es.filterMap voice) → ∃ fs b', Sends (drainEvents es) b () fs b' ∧ r.readAll fs = none)

theorem Step.reads (hstep : Step e t b r b')
    (hawaited : (awaited b).Sublist ((e :: es).filterMap voice) ↔ (awaited b').Sublist (es.filterMap voice))
    (hrest : ∀ r' layout ρ, Shows layout ρ (t.hear e) b' r' → Reads (t.hear e) b' r' es) : Reads t b r (e :: es) := by
  obtain ⟨fs, r', layout, ρ, hsends, hread, hshows⟩ := hstep
  obtain ⟨hgood, hbad⟩ := hrest r' layout ρ hshows
  constructor
  · intro hno
    obtain ⟨gs, b'', r'', layout', ρ', hsends', hread', hshows'⟩ := hgood (mt hawaited.mpr hno)
    refine ⟨fs ++ gs, b'', r'', layout', ρ', hsends.bind hsends', ?_, hshows'⟩
    rw [Reader.readAll_append, hread]
    exact hread'
  · intro hyes
    obtain ⟨gs, b'', hsends', hread'⟩ := hbad (hawaited.mp hyes)
    refine ⟨fs ++ gs, b'', hsends.bind hsends', ?_⟩
    rw [Reader.readAll_append, hread]
    exact hread'

/-- A delta to the closed block has no reading. -/
theorem Shows.rethinks (h : Shows layout ρ t b r) (hclosed : b.thinkingClosed = true) (hs : s.isEmpty = false)
    (es : List ParserEvent) : ∃ fs b', Sends (drainEvents (.thinkDelta s :: es)) b () fs b' ∧ r.readAll fs = none := by
  cases hti : b.thinkingIdx with
  | none => exact absurd (hclosed.symm.trans (h.noThinking hti).2) nofun
  | some i =>
    obtain ⟨⟨⟩, more, b', hrest, -⟩ := cuts_drainEvents es { b with emittedAny := true }
    refine ⟨[] ++ ([] ++ [.contentBlockDelta i (.thinkingDelta s)]) ++ more, b', ?_, ?_⟩
    · have hfirst : Sends (drainEvent (.thinkDelta s)) b () ([] ++ ([] ++ [.contentBlockDelta i (.thinkingDelta s)]))
          { b with emittedAny := true } := by
        change Sends (if s.isEmpty then _ else _) _ _ _ _
        rw [hs]
        refine Sends.bind (Sends.own ?_) ((sends_markEmitted b).bind (sends_send _ _))
        rw [hti]
        exact sends_pure i b
      exact hfirst.bind hrest
    · have hnone : r.change i (Block.add (.thinkingDelta s)) = none := by
        obtain rfl := h.lays.reader
        unfold Reader.change
        rw [if_pos rfl, List.getElem?_map, (h.thinkingIdx i).mp hti, Option.map_some, Option.bind_some, h.thinking,
          hclosed]
        rfl
      rw [List.nil_append, List.nil_append, List.singleton_append, Reader.readAll_cons]
      change (r.change i _).bind _ = none
      rw [hnone]
      rfl

theorem Shows.reads (h : Shows layout ρ t b r) (hes : Orderly t es) : Reads t b r es := by
  induction es generalizing layout ρ t b r with
  | nil =>
    refine ⟨fun _ => ⟨[], b, r, layout, ρ, sends_pure () b, rfl, h⟩, fun hsub => absurd hsub (awaited_ne b)⟩
  | cons e es ih =>
    obtain ⟨hplaced, hes⟩ := hes
    have hrest : ∀ b' r' layout ρ, Shows layout ρ (t.hear e) b' r' → Reads (t.hear e) b' r' es :=
      fun b' r' layout ρ hshows => ih hshows hes
    have hno := fun hnone => (h.noThinking hnone).2
    cases e with
    | thinkDelta s =>
      cases hs : s.isEmpty with
      | true =>
        obtain rfl := List.isEmpty_iff.mp hs
        exact (h.silent (.inr rfl)).reads Iff.rfl (hrest b)
      | false =>
        have hvoice : (ParserEvent.thinkDelta s :: es).filterMap voice = .reasoning :: es.filterMap voice :=
          List.filterMap_cons_some (by rw [voice, hs]; rfl)
        cases hclosed : b.thinkingClosed with
        | false =>
          obtain ⟨b', hstep, hidx, hopen'⟩ := h.think hclosed hs
          exact hstep.reads (hvoice ▸ awaited_reasoning hclosed hidx hopen' _) (hrest b')
        | true =>
          have hawaited : (awaited b).Sublist ((ParserEvent.thinkDelta s :: es).filterMap voice) := by
            rw [hvoice, awaited, hclosed]
            simp
          exact ⟨fun hnot => absurd hawaited hnot, fun _ => h.rethinks hclosed hs es⟩
    | textDelta s =>
      cases hs : s.isEmpty with
      | true =>
        obtain rfl := List.isEmpty_iff.mp hs
        exact (h.silent (.inl rfl)).reads Iff.rfl (hrest b)
      | false =>
        have hvoice : (ParserEvent.textDelta s :: es).filterMap voice = .answer :: es.filterMap voice :=
          List.filterMap_cons_some (by rw [voice, hs]; rfl)
        obtain ⟨b', hstep, hidx, hclosed⟩ := h.say hs
        exact hstep.reads (hvoice ▸ awaited_answer hidx hclosed hno _) (hrest b')
    | toolCallOpen n name =>
      obtain ⟨b', hstep, hidx, hclosed⟩ := h.opens hplaced name
      exact hstep.reads (awaited_answer hidx hclosed hno _) (hrest b')
    | toolCallArgumentsDelta n arguments =>
      exact (h.answers hplaced arguments).reads Iff.rfl (hrest b)
    | toolCallClose n =>
      obtain ⟨b', hstep, hidx, hclosed⟩ := h.closes n
      refine hstep.reads ?_ (hrest b')
      rw [awaited_same hidx hclosed]
      rfl

/-! The parsers' streams are orderly. -/

/-- The calls so far are numbered below the next, and a call that is read is the one that is open. -/
inductive Stands : Phase → Told → Prop where
  | outside : (∀ c ∈ t.calls, c.index < n) → t.opened = [] → Stands (.outside n) t
  | opened : (∀ c ∈ t.calls, c.index ≤ n) → t.opened = [n] → Stands (.opened n) t
  | answered : (∀ c ∈ t.calls, c.index ≤ n) → t.opened = [n] → Stands (.answered n) t

theorem receive_indices (d : ToolCallDelta) (calls : List ClientCall) (h : ∀ c ∈ calls, c.index ≤ d.index) :
    ∀ c ∈ receive d calls, c.index ≤ d.index := by
  induction calls with
  | nil =>
    intro c hc
    rw [List.mem_singleton.mp hc]
  | cons c₀ calls ih =>
    obtain ⟨hfirst, hrest⟩ := List.forall_mem_cons.mp h
    unfold receive
    split
    · exact List.forall_mem_cons.mpr ⟨hfirst, hrest⟩
    · exact List.forall_mem_cons.mpr ⟨hfirst, ih hrest⟩

theorem Stands.orderly (h : Stands p t) (hes : Leads named valid p es q) :
    Orderly t es ∧ Stands q (es.foldl Told.hear t) := by
  induction hes generalizing t with
  | nil => exact ⟨trivial, h⟩
  | text _ ih =>
    cases h with
    | outside hlt hopened =>
      obtain ⟨hrest, hlast⟩ := ih (t := t.hear (.textDelta _)) (.outside hlt hopened)
      exact ⟨⟨trivial, hrest⟩, hlast⟩
  | think _ ih =>
    cases h with
    | outside hlt hopened =>
      obtain ⟨hrest, hlast⟩ := ih (t := t.hear (.thinkDelta _)) (.outside hlt hopened)
      exact ⟨⟨trivial, hrest⟩, hlast⟩
  | @opens name n es p _ _ ih =>
    cases h with
    | outside hlt hopened =>
      have hnext : Stands (.opened n) (t.hear (.toolCallOpen n name)) := by
        refine .opened (receive_indices _ _ fun c hc => Nat.le_of_lt (hlt c hc)) ?_
        exact congrArg (n :: ·) hopened
      obtain ⟨hrest, hlast⟩ := ih hnext
      refine ⟨⟨fun hmem => ?_, hrest⟩, hlast⟩
      obtain ⟨c, hc, heq⟩ := List.mem_map.mp hmem
      exact absurd heq (Nat.ne_of_lt (hlt c hc))
  | @arguments args n es p _ _ ih =>
    cases h with
    | opened hle hopened =>
      have hnext : Stands (.answered n) (t.hear (.toolCallArgumentsDelta n args)) :=
        .answered (receive_indices _ _ hle) hopened
      obtain ⟨hrest, hlast⟩ := ih hnext
      refine ⟨⟨?_, hrest⟩, hlast⟩
      change n ∈ t.opened
      rw [hopened]
      exact List.mem_cons_self
  | @closes n es p _ ih =>
    cases h with
    | answered hle hopened =>
      have hnext : Stands (.outside (n + 1)) (t.hear (.toolCallClose n)) := by
        refine .outside (fun c hc => Nat.lt_succ_of_le (hle c hc)) ?_
        change t.opened.filter _ = []
        rw [hopened]
        simp
      obtain ⟨hrest, hlast⟩ := ih hnext
      exact ⟨⟨trivial, hrest⟩, hlast⟩

theorem Orderly.append (hes : Orderly t es) (hfs : Orderly (es.foldl Told.hear t) fs) : Orderly t (es ++ fs) := by
  induction es generalizing t with
  | nil => exact hfs
  | cons e es ih => exact ⟨hes.1, ih hes.2 hfs⟩

theorem orderly_loose {es : List ParserEvent} (h : ∀ e ∈ es, (∃ s, e = .textDelta s) ∨ ∃ i, e = .toolCallClose i)
    (t : Told) : Orderly t es := by
  induction es generalizing t with
  | nil => trivial
  | cons e es ih =>
    refine ⟨?_, ih (fun x hx => h x (List.mem_cons_of_mem _ hx)) _⟩
    rcases h e List.mem_cons_self with ⟨s, rfl⟩ | ⟨i, rfl⟩
    · trivial
    · trivial

def Told.start : Told := ⟨[], [], [], [], false⟩

theorem stands_start : Stands (.outside 0) Told.start := .outside nofun rfl

theorem orderly_leads (h : AnyCalls (.outside 0) es p) : Orderly Told.start es := (stands_start.orderly h).1

theorem orderly_unclosed (h : Unclosed es) : Orderly Told.start es := by
  cases h with
  | opened hfront hrest => exact (orderly_leads hfront).append (orderly_loose (fun e he => .inl (hrest e he)) _)
  | answered hfront hrest => exact (orderly_leads hfront).append (orderly_loose (fun e he => .inl (hrest e he)) _)
  | overclosed hfront _ hmore hrest =>
    have hclosed := (orderly_leads hfront).append (orderly_loose (fun e he => .inr (hmore e he)) _)
    exact hclosed.append (orderly_loose (fun e he => .inl (hrest e he)) _)

theorem dispatcher_orderly {serde : Gemma4.GemmaSerde} (hserde : serde.Objects)
    (h : (dispatcher serde format startInReasoning).events chunks = some es) : Orderly Told.start es := by
  cases format with
  | hermes =>
    obtain ⟨n, hn⟩ := hermes_closed h
    exact orderly_leads hn
  | gemma4 =>
    obtain ⟨n, hn⟩ := gemma4_closed hserde h
    exact orderly_leads hn
  | qwenCoder =>
    obtain ⟨hclosed, hunclosed⟩ := qwenCoder_ends h
    by_cases hends : ClosesCalls serde .qwenCoder startInReasoning chunks
    · obtain ⟨n, hn⟩ := hclosed hends
      exact orderly_leads hn
    · exact orderly_unclosed (hunclosed hends)

/-! The end of a stream. -/

/-- The client's blocks have what the events told. -/
structure Holds (layout : List Kind) (ρ : Kind → Block) (t : Told) : Prop where
  nodup : layout.Nodup
  thinking : (ρ .thinking).content = .thinking t.reasoning []
  text : (ρ .text).content = .text t.content
  noThinking : .thinking ∉ layout → t.reasoning = []
  noText : .text ∉ layout → t.content = []
  tools : layout.filterMap Kind.number = t.calls.map ClientCall.index
  call : ∀ c ∈ t.calls, ∃ id, (ρ (.tool c.index)).content = .toolUse id c.name c.arguments

def Content.reasoning : Content → Text
  | .thinking t _ => t
  | _ => []

def Content.answer : Content → Text
  | .text t => t
  | _ => []

def Content.call : Content → Option (Text × Text)
  | .toolUse _ name input => some (name, input)
  | _ => none

theorem Holds.tool (h : Holds layout ρ t) (hk : Kind.tool n ∈ layout) :
    ∃ c ∈ t.calls, c.index = n ∧ ∃ id, (ρ (.tool n)).content = .toolUse id c.name c.arguments := by
  obtain ⟨c, hc, rfl⟩ := List.mem_map.mp ((mem_tools h.tools).mp hk)
  exact ⟨c, hc, rfl, h.call c hc⟩

theorem Holds.reasoning (h : Holds layout ρ t) : (layout.map ρ).flatMap (fun b => b.content.reasoning) = t.reasoning := by
  rw [List.flatMap_map, flatMap_one (k := .thinking) h.nodup]
  · split
    · rw [h.thinking]
      rfl
    · rename_i hno
      exact (h.noThinking hno).symm
  · intro k hk hne
    cases k with
    | thinking => exact absurd rfl hne
    | text =>
      rw [h.text]
      rfl
    | tool n =>
      obtain ⟨c, -, -, id, hid⟩ := h.tool hk
      rw [hid]
      rfl

theorem Holds.answer (h : Holds layout ρ t) : (layout.map ρ).flatMap (fun b => b.content.answer) = t.content := by
  rw [List.flatMap_map, flatMap_one (k := .text) h.nodup]
  · split
    · rw [h.text]
      rfl
    · rename_i hno
      exact (h.noText hno).symm
  · intro k hk hne
    cases k with
    | text => exact absurd rfl hne
    | thinking =>
      rw [h.thinking]
      rfl
    | tool n =>
      obtain ⟨c, -, -, id, hid⟩ := h.tool hk
      rw [hid]
      rfl

theorem Holds.calls (h : Holds layout ρ t) :
    (layout.map ρ).filterMap (fun b => b.content.call) = t.calls.map fun c => (c.name, c.arguments) := by
  rw [List.filterMap_map]
  refine filterMap_of_keys h.tools (fun c hc k _ hk => ?_) fun k _ hk => ?_
  · cases k with
    | tool n =>
      cases hk
      obtain ⟨id, hid⟩ := h.call c hc
      exact congrArg Content.call hid
    | _ => cases hk
  · cases k with
    | tool n => cases hk
    | thinking => exact congrArg Content.call h.thinking
    | text => exact congrArg Content.call h.text

theorem Shows.holds (h : Shows layout ρ t b r) : Holds layout ρ t where
  nodup := h.lays.nodup
  thinking := by rw [h.thinking]
  text := by rw [h.text]
  noThinking hno := by
    refine (h.noThinking ?_).1
    cases hti : b.thinkingIdx with
    | none => rfl
    | some i => exact absurd (List.mem_of_getElem? ((h.thinkingIdx i).mp hti)) hno
  noText hno := by
    refine h.noText ?_
    cases hti : b.textIdx with
    | none => rfl
    | some i => exact absurd (List.mem_of_getElem? ((h.textIdx i).mp hti)) hno
  tools := h.tools
  call c hc := by
    obtain ⟨id, hid⟩ := h.call c hc
    exact ⟨id, by rw [hid]⟩

/-- The stops of the open calls, in any order. -/
theorem Lays.stopAll {entries : List (Nat × Nat)} (h : Lays layout ρ r) (hnodup : entries.Nodup)
    (hopen : ∀ e ∈ entries, layout[e.2]? = some (.tool e.1) ∧ (ρ (.tool e.1)).stopped = false) :
    ∃ r' ρ', r.readAll (entries.map fun e => .contentBlockStop e.2) = some r' ∧ Lays layout ρ' r' ∧
      (∀ e ∈ entries, ρ' (.tool e.1) = ⟨(ρ (.tool e.1)).content, true⟩) ∧
      ∀ k, (∀ e ∈ entries, k ≠ .tool e.1) → ρ' k = ρ k := by
  induction entries generalizing ρ r with
  | nil => exact ⟨r, ρ, rfl, h, fun e he => absurd he List.not_mem_nil, fun k _ => rfl⟩
  | cons e entries ih =>
    obtain ⟨hnot, hnodup⟩ := List.nodup_cons.mp hnodup
    obtain ⟨⟨hlayout, hstopped⟩, hrest⟩ := List.forall_mem_cons.mp hopen
    obtain ⟨r₁, hread₁, h₁⟩ := h.change (f := Block.stop) (x := ⟨(ρ (.tool e.1)).content, true⟩) hlayout
      (by rw [Block.stop, hstopped]; rfl)
    have hother : ∀ e' ∈ entries, e'.1 ≠ e.1 := by
      intro e' he' heq
      have hsame : layout[e.2]? = layout[e'.2]? := by
        rw [hlayout, (hrest e' he').1, heq]
      have hlt : e.2 < layout.length := (List.getElem?_eq_some_iff.mp hlayout).1
      have hidx : e.2 = e'.2 := (List.getElem?_inj hlt h.nodup).mp hsame
      exact hnot ((Prod.ext heq.symm hidx : e = e') ▸ he')
    obtain ⟨r', ρ', hread', h', hstop', hkeep'⟩ := ih h₁ hnodup fun e' he' => by
      rw [Function.update_of_ne (fun heq => hother e' he' (by injection heq))]
      exact hrest e' he'
    refine ⟨r', ρ', ?_, h', ?_, ?_⟩
    · rw [List.map_cons, Reader.readAll_cons]
      change (r.change e.2 Block.stop).bind _ = _
      rw [hread₁]
      exact hread'
    · refine List.forall_mem_cons.mpr ⟨?_, fun e' he' => ?_⟩
      · rw [hkeep' _ fun e' he' heq => hother e' he' (by injection heq with heq; exact heq.symm), Function.update_self]
      · rw [hstop' e' he', Function.update_of_ne (fun heq => hother e' he' (by injection heq))]
    · intro k hk
      obtain ⟨hfirst, hlast⟩ := List.forall_mem_cons.mp hk
      rw [hkeep' k hlast, Function.update_of_ne hfirst]

theorem foldl_stops (entries : List (Nat × Nat)) (b : Blocks) (sent : List Frame) :
    entries.foldl (fun o entry => attempt (send (.contentBlockStop entry.2)) o) (⟨b, sent, none⟩ : Outbox Blocks Frame) =
      ⟨b, sent ++ entries.map fun e => .contentBlockStop e.2, none⟩ := by
  induction entries generalizing sent with
  | nil => rw [List.map_nil, List.append_nil]; rfl
  | cons e entries ih =>
    rw [List.foldl_cons, (sends_send (.contentBlockStop e.2) b).attempt sent, ih, List.append_assoc]
    rfl

/-- No call is open. -/
theorem Shows.stopTools (h : Shows layout ρ t b r) (hdrain : ∀ l, (drain l).Perm l) (sent : List Frame) :
    ∃ fs r' ρ', stopTools drain ⟨b, sent, none⟩ = ⟨{ b with toolOpen := [] }, sent ++ fs, none⟩ ∧
      r.readAll fs = some r' ∧ Shows layout ρ' { t with opened := [] } { b with toolOpen := [] } r' := by
  have hperm := hdrain b.toolOpen
  have hmem : ∀ n i, (n, i) ∈ drain b.toolOpen ↔ layout[i]? = some (.tool n) ∧ n ∈ t.opened :=
    fun n i => hperm.mem_iff.trans (h.toolOpen n i)
  obtain ⟨r', ρ', hread, hlays, hstopped, hkeep⟩ := h.lays.stopAll (hperm.nodup_iff.mpr h.toolNodup) fun e he => by
    obtain ⟨hlayout, hopen⟩ := (hmem e.1 e.2).mp he
    obtain ⟨c, hc, hidx⟩ := List.mem_map.mp (h.opened e.1 hopen)
    obtain ⟨id, hid⟩ := h.call c hc
    refine ⟨hlayout, ?_⟩
    rw [← hidx, hid]
    exact decide_eq_false (by rw [hidx]; simpa using hopen)
  refine ⟨_, r', ρ', foldl_stops _ _ sent, hread,
    { h with
      lays := hlays, thinking := ?_, text := ?_, call := ?_, opened := ?_, toolOpen := ?_,
      toolNodup := List.nodup_nil }⟩
  · rw [hkeep _ fun e _ heq => by cases heq]
    exact h.thinking
  · rw [hkeep _ fun e _ heq => by cases heq]
    exact h.text
  · intro c hc
    obtain ⟨id, hid⟩ := h.call c hc
    refine ⟨id, ?_⟩
    by_cases hopen : c.index ∈ t.opened
    · obtain ⟨i, hi⟩ := List.getElem?_of_mem (h.tool_mem.mpr (h.opened _ hopen))
      rw [hstopped (c.index, i) ((hmem _ _).mpr ⟨hi, hopen⟩), hid]
      simp
    · rw [hkeep _ fun e he heq => hopen (by injection heq with heq; rw [heq]; exact ((hmem e.1 e.2).mp he).2), hid]
      simp [hopen]
  · intro n hn
    cases hn
  · intro n i
    simp

/-- All that is left is the text. -/
structure Closing (layout : List Kind) (ρ : Kind → Block) (t : Told) (textIdx : Option Nat) (r : Reader) : Prop where
  lays : Lays layout ρ r
  holds : Holds layout ρ t
  textIdx : ∀ i, textIdx = some i ↔ layout[i]? = some .text
  open_ : (ρ .text).stopped = false
  others : ∀ k ∈ layout, k ≠ .text → (ρ k).stopped = true

theorem Shows.closing (h : Shows layout ρ t b r) (hopened : t.opened = []) (hclosed : b.thinkingClosed = b.thinkingIdx.isSome) :
    Closing layout ρ t b.textIdx r where
  lays := h.lays
  holds := h.holds
  textIdx := h.textIdx
  open_ := by rw [h.text]
  others k hk hne := by
    cases k with
    | text => exact absurd rfl hne
    | thinking =>
      obtain ⟨i, hi⟩ := List.getElem?_of_mem hk
      rw [h.thinking, hclosed, (h.thinkingIdx i).mpr hi]
      rfl
    | tool n =>
      obtain ⟨c, hc, rfl⟩ := List.mem_map.mp (h.tool_mem.mp hk)
      obtain ⟨id, hid⟩ := h.call c hc
      rw [hid, hopened]
      rfl

theorem Closing.emptyText (h : Closing layout ρ t b.textIdx r) (hnext : b.nextBlockIndex = layout.length)
    (htext : ρ .text = ⟨.text t.content, false⟩) (sent : List Frame) :
    ∃ fs b' r' layout', emptyText ⟨b, sent, none⟩ = ⟨b', sent ++ fs, none⟩ ∧ r.readAll fs = some r' ∧
      Closing layout' ρ t b'.textIdx r' ∧ b'.hasToolCalls = b.hasToolCalls := by
  cases hempty : (b.textIdx.isNone && !b.emittedAny) with
  | false =>
    refine ⟨[], b, r, layout, ?_, rfl, h, rfl⟩
    rw [Messages.emptyText, List.append_nil]
    dsimp only
    rw [hempty]
    rfl
  | true =>
    have hnone : b.textIdx = none := Option.isNone_iff_eq_none.mp (Bool.and_eq_true_iff.mp hempty).1
    have hnew : Kind.text ∉ layout := by
      intro hmem
      obtain ⟨i, hi⟩ := List.getElem?_of_mem hmem
      exact absurd (hnone.symm.trans ((h.textIdx i).mpr hi)) nofun
    obtain ⟨r', hread, hlays⟩ := h.lays.start hnew .text
    have hρ : Function.update ρ .text ⟨ContentBlock.opened .text, false⟩ = ρ := by
      rw [Function.update_eq_self_iff, htext, h.holds.noText hnew]
      rfl
    rw [hρ] at hlays
    refine ⟨[.contentBlockStart b.nextBlockIndex .text], { b with textIdx := some b.nextBlockIndex }, r', _, ?_, ?_,
      { lays := hlays, holds := { h.holds with nodup := hlays.nodup, noThinking := ?_, noText := ?_, tools := ?_ },
        textIdx := ?_, open_ := h.open_, others := ?_ }, rfl⟩
    · rw [Messages.emptyText]
      dsimp only
      rw [hempty]
      rfl
    · rw [hnext, Reader.readAll_cons, hread]
      rfl
    · exact fun hno => h.holds.noThinking fun hmem => hno (List.mem_append_left _ hmem)
    · exact fun _ => h.holds.noText hnew
    · rw [List.filterMap_append, h.holds.tools]
      exact List.append_nil _
    · intro i
      rw [getElem?_append_new hnew, ← hnext, Option.some_inj, eq_comm]
    · intro k hk hne
      rcases List.mem_append.mp hk with hk | hk
      · exact h.others k hk hne
      · exact absurd (List.mem_singleton.mp hk) hne

theorem Closing.stopText (h : Closing layout ρ t b.textIdx r) (sent : List Frame) :
    ∃ fs r' ρ', stopText ⟨b, sent, none⟩ = ⟨b, sent ++ fs, none⟩ ∧ r.readAll fs = some r' ∧
      Lays layout ρ' r' ∧ Holds layout ρ' t ∧ ∀ k ∈ layout, (ρ' k).stopped = true := by
  cases hti : b.textIdx with
  | none =>
    refine ⟨[], r, ρ, ?_, rfl, h.lays, h.holds, fun k hk => h.others k hk ?_⟩
    · rw [Messages.stopText]
      dsimp only
      rw [hti, List.append_nil]
    · rintro rfl
      obtain ⟨i, hi⟩ := List.getElem?_of_mem hk
      exact absurd (hti.symm.trans ((h.textIdx i).mpr hi)) nofun
  | some ti =>
    obtain ⟨r', hread, hlays⟩ := h.lays.change (f := Block.stop) (x := ⟨(ρ .text).content, true⟩)
      ((h.textIdx ti).mp hti) (by rw [Block.stop, h.open_]; rfl)
    have hcontent : ∀ k, (Function.update ρ .text ⟨(ρ .text).content, true⟩ k).content = (ρ k).content := by
      intro k
      by_cases hk : k = .text
      · rw [hk, Function.update_self]
      · rw [Function.update_of_ne hk]
    refine ⟨[.contentBlockStop ti], r', _, ?_, ?_, hlays,
      { h.holds with thinking := ?_, text := ?_, call := ?_ }, fun k hk => ?_⟩
    · rw [Messages.stopText]
      dsimp only
      rw [hti]
      rfl
    · rw [Reader.readAll_cons]
      change (r.change ti _).bind _ = _
      rw [hread]
      rfl
    · rw [hcontent]
      exact h.holds.thinking
    · rw [hcontent]
      exact h.holds.text
    · intro c hc
      rw [hcontent]
      exact h.holds.call c hc
    · by_cases hne : k = .text
      · rw [hne, Function.update_self]
      · rw [Function.update_of_ne hne]
        exact h.others k hk hne

def failure : Decoded → Option Text
  | .ok _ => none
  | .error message => some message

/-- The message a client has at the end. -/
structure Received (t : Told) (res : Decoded) (r : Reader) : Prop where
  stage : r.stage = .ended
  stopped : ∀ b ∈ r.blocks, b.stopped = true
  reasoning : r.blocks.flatMap (fun b => b.content.reasoning) = t.reasoning
  answer : r.blocks.flatMap (fun b => b.content.answer) = t.content
  calls : r.blocks.filterMap (fun b => b.content.call) = t.calls.map fun c => (c.name, c.arguments)
  stopReason : r.stopReason = some (if t.called then .toolUse else stopReason .start res)
  error : r.error = failure res

theorem stopReason_called (hcalled : b.hasToolCalls = called) (res : Decoded) :
    stopReason b res = if called then .toolUse else stopReason .start res := by
  unfold stopReason
  rw [hcalled]
  rfl

theorem stopReason_toolUse (called : Bool) (res : Decoded) :
    some (if called then .toolUse else stopReason .start res) = some StopReason.toolUse ↔ called = true := by
  cases called with
  | true => exact iff_of_true rfl rfl
  | false =>
    refine iff_of_false (fun heq => ?_) Bool.false_ne_true
    rcases res with message | ⟨reason, tokens⟩
    · cases heq
    · cases reason <;> cases heq

/-- The frames that end a message. -/
theorem Holds.concludes {layout : List Kind} {ρ : Kind → Block} (h : Holds layout ρ t)
    (hstopped : ∀ k ∈ layout, (ρ k).stopped = true) (hcalled : b.hasToolCalls = t.called) (res : Decoded)
    (sent : List Frame) :
    ∃ fs r', (reportError res (conclude res ⟨b, sent, none⟩)).sent = sent ++ fs ∧
      (⟨.content, layout.map ρ, none, none⟩ : Reader).readAll fs = some r' ∧ Received t res r' := by
  have hall : (layout.map ρ).all Block.stopped = true := by
    rw [List.all_map, List.all_eq_true]
    exact hstopped
  have hrun : conclude res ⟨b, sent, none⟩ =
      ⟨b, sent ++ [.messageDelta (stopReason b res) (outputTokens res), .messageStop], none⟩ := by
    change (⟨b, sent ++ [_] ++ [_], none⟩ : Outbox Blocks Frame) = _
    rw [List.append_assoc]
    rfl
  have hread : (⟨.content, layout.map ρ, none, none⟩ : Reader).readAll
      [.messageDelta (stopReason b res) (outputTokens res), .messageStop] =
        some ⟨.ended, layout.map ρ, some (stopReason b res), none⟩ := by
    rw [Reader.readAll_cons, Reader.read, if_pos ⟨rfl, hall⟩]
    rfl
  have hblocks : ∀ bl ∈ layout.map ρ, bl.stopped = true := List.all_eq_true.mp hall
  rw [stopReason_called hcalled] at hrun hread
  obtain ⟨fs, hrun, hread⟩ : ∃ fs, conclude res ⟨b, sent, none⟩ = ⟨b, sent ++ fs, none⟩ ∧
      (⟨.content, layout.map ρ, none, none⟩ : Reader).readAll fs =
        some ⟨.ended, layout.map ρ, some (if t.called then .toolUse else stopReason .start res), none⟩ :=
    ⟨_, hrun, hread⟩
  rw [hrun]
  cases res with
  | ok d => exact ⟨fs, _, rfl, hread, rfl, hblocks, h.reasoning, h.answer, h.calls, rfl, rfl⟩
  | error message =>
    refine ⟨fs ++ [.error "internal_error".toList message], ⟨_, _, _, some message⟩, ?_, ?_,
      rfl, hblocks, h.reasoning, h.answer, h.calls, rfl, rfl⟩
    · rw [← List.append_assoc]
      rfl
    · rw [Reader.readAll_append, hread]
      rfl

theorem Shows.ending (h : Shows layout ρ t b r) (hdrain : ∀ l, (drain l).Perm l) (res : Decoded) (sent : List Frame) :
    ∃ fs r', (ending drain res ⟨b, sent, none⟩).sent = sent ++ fs ∧ r.readAll fs = some r' ∧ Received t res r' := by
  obtain ⟨fs₁, r₁, ρ₁, hrun₁, hread₁, h₁⟩ := h.stopTools hdrain sent
  obtain ⟨fs₂, r₂, ρ₂, hsends₂, hread₂, h₂⟩ := h₁.closeThinking
  obtain ⟨fs₃, b₃, r₃, layout₃, hrun₃, hread₃, h₃, hcalls₃⟩ :=
    (h₂.closing rfl rfl).emptyText h₂.next h₂.text (sent ++ fs₁ ++ fs₂)
  obtain ⟨fs₄, r₄, ρ₄, hrun₄, hread₄, hlays, hholds, hstopped⟩ := h₃.stopText (sent ++ fs₁ ++ fs₂ ++ fs₃)
  have hcalled : b₃.hasToolCalls = t.called := hcalls₃.trans h₂.hasToolCalls
  obtain ⟨fs₅, r', hrun₅, hread₅, hreceived⟩ :=
    hholds.concludes hstopped hcalled res (sent ++ fs₁ ++ fs₂ ++ fs₃ ++ fs₄)
  refine ⟨fs₁ ++ (fs₂ ++ (fs₃ ++ (fs₄ ++ fs₅))), r', ?_, ?_, ?_⟩
  · rw [Messages.ending, hrun₁, hsends₂.attempt, hrun₃, hrun₄, hrun₅]
    simp only [List.append_assoc]
  · rw [Reader.readAll_append, hread₁, Option.bind_some, Reader.readAll_append, hread₂, Option.bind_some,
      Reader.readAll_append, hread₃, Option.bind_some, Reader.readAll_append, hread₄, Option.bind_some, hlays.reader]
    exact hread₅
  · exact { hreceived with }

/-! The streams. -/

theorem shows_start : Shows [] (fun k => ⟨match k with
      | .thinking => .thinking [] []
      | _ => .text [], false⟩) Told.start Blocks.start ⟨.content, [], none, none⟩ where
  lays := ⟨List.nodup_nil, rfl⟩
  next := rfl
  thinkingIdx i := by simp [Blocks.start]
  textIdx i := by simp [Blocks.start]
  thinking := rfl
  text := rfl
  noThinking _ := ⟨rfl, rfl⟩
  noText _ := rfl
  tools := rfl
  call c hc := by cases hc
  opened n hn := by cases hn
  toolOpen n i := by simp [Blocks.start]
  toolNodup := List.nodup_nil
  hasToolCalls := rfl

theorem streamTask_stays {b : BoxedParser} {toolForcePrefix : Option Text} (drain : List (Nat × Nat) → List (Nat × Nat))
    (decoded : Nat → Decoded) (s : Blocks) (sent : List Frame)
    (h : b.events (toolForcePrefix.toList ++ texts) = some es) :
    ∃ more s', Sends (drainEvents es) s () more s' ∧ streamTask b drain decoded toolForcePrefix texts ⟨s, sent, none⟩ =
      some (ending drain (decoded texts.length) ⟨s', sent ++ more, none⟩) := by
  cases toolForcePrefix with
  | none =>
    have htexts : b.eventsFrom b.init texts = some es := h
    obtain ⟨front, more, s₁, p', tail, hrun, hfinish, rfl, hsends⟩ := emitDeltas_stays s sent htexts
    obtain ⟨⟨⟩, rest, s', htail, -⟩ := cuts_drainEvents tail.1 s₁
    refine ⟨more ++ rest, s', sends_append hsends htail, ?_⟩
    unfold streamTask
    simp only [Option.bind_some, hrun, hfinish, Option.map_some]
    rw [htail.attempt, List.append_assoc]
  | some pfx =>
    obtain ⟨d, hpush, h⟩ := Option.bind_eq_some_iff.mp h
    obtain ⟨es', hrest, rfl⟩ := Option.map_eq_some_iff.mp h
    obtain ⟨⟨⟩, first, s₀, hfirst, -⟩ := cuts_drainEvents d.1 s
    have htexts : b.eventsFrom d.2 texts = some es' := hrest
    obtain ⟨front, more, s₁, p', tail, hrun, hfinish, rfl, hsends⟩ :=
      emitDeltas_stays s₀ (sent ++ first) htexts
    obtain ⟨⟨⟩, rest, s', htail, -⟩ := cuts_drainEvents tail.1 s₁
    refine ⟨first ++ (more ++ rest), s', sends_append hfirst (sends_append hsends htail), ?_⟩
    unfold streamTask
    simp only [hpush, Option.map_some, Option.bind_some, hfirst.attempt, hrun, hfinish]
    rw [htail.attempt]
    simp only [List.append_assoc]

theorem hear_reasoning_all (es : List ParserEvent) (t : Told) :
    (es.foldl Told.hear t).reasoning = t.reasoning ++ es.flatMap thought := by
  induction es generalizing t with
  | nil => exact (List.append_nil _).symm
  | cons e es ih => rw [List.foldl_cons, ih, hear_reasoning, List.flatMap_cons, List.append_assoc]

theorem hear_content_all (es : List ParserEvent) (t : Told) (s : Split) (h : t.content = s.content) :
    (es.foldl Told.hear t).content = (es.foldl splitEvent s).content := by
  induction es generalizing t s with
  | nil => exact h
  | cons e es ih =>
    refine ih _ _ ?_
    rw [hear_content, h]
    cases e with
    | textDelta s => rfl
    | _ => exact List.append_nil _

theorem hear_calls_all (es : List ParserEvent) (t : Told) :
    (es.foldl Told.hear t).calls = es.foldl clientEvent t.calls := by
  induction es generalizing t with
  | nil => rfl
  | cons e es ih => exact ih _

/-- What a client that stays makes of a stream with these events. -/
theorem stream_reading {b : BoxedParser} (hdrain : ∀ l, (drain l).Perm l) (decoded : Nat → Decoded) {request : Request}
    (hids : request.promptIds = some (first :: rest))
    (hes : b.events (request.toolForcePrefix.toList ++ texts) = some es) (horderly : Orderly .start es) :
    ∃ frames, streamMessagesAnthropicSse b drain decoded request texts none = some frames ∧
      (¬ [.reasoning, .answer, .reasoning].Sublist (es.filterMap voice) →
        ∃ r, Reader.start.readAll frames = some r ∧ Received (es.foldl Told.hear .start) (decoded texts.length) r) ∧
      ([.reasoning, .answer, .reasoning].Sublist (es.filterMap voice) → Reader.start.readAll frames = none) := by
  obtain ⟨more, s', hsends, hrun⟩ := streamTask_stays drain decoded .start
    [.messageStart request.id request.model (first :: rest).length] hes
  obtain ⟨hgood, hbad⟩ := shows_start.reads horderly
  refine ⟨(ending drain (decoded texts.length)
    ⟨s', [.messageStart request.id request.model (first :: rest).length] ++ more, none⟩).sent, ?_, fun hno => ?_,
    fun hyes => ?_⟩
  · unfold streamMessagesAnthropicSse
    rw [hids]
    exact congrArg (Option.map Outbox.sent) hrun
  · obtain ⟨fs, b', r', layout, ρ, hsends', hread, hshows⟩ := hgood hno
    obtain ⟨rfl, rfl⟩ := hsends.unique hsends'
    obtain ⟨gs, r, hending, hread', hreceived⟩ := hshows.ending hdrain (decoded texts.length)
      ([.messageStart request.id request.model (first :: rest).length] ++ more)
    refine ⟨r, ?_, hreceived⟩
    rw [hending, List.append_assoc, Reader.readAll_append]
    change (Reader.readAll ⟨.content, [], none, none⟩ (more ++ gs)) = _
    rw [Reader.readAll_append, hread]
    exact hread'
  · obtain ⟨fs, b', hsends', hread⟩ := hbad hyes
    obtain ⟨rfl, rfl⟩ := hsends.unique hsends'
    obtain ⟨gs, s'', hending⟩ := follows_ending drain (decoded texts.length) s'
    rw [(hending _).1]
    change Reader.start.readAll ([_] ++ more ++ gs) = none
    rw [List.append_assoc, Reader.readAll_append]
    change (Reader.readAll ⟨.content, [], none, none⟩ (more ++ gs)) = none
    rw [Reader.readAll_append, hread]
    rfl

theorem called_iff {es : List ParserEvent} (hes : Orderly t es)
    (h : (t.called = true ↔ t.calls ≠ []) ∧ (t.opened ≠ [] → t.calls ≠ [])) :
    (es.foldl Told.hear t).called = true ↔ (es.foldl Told.hear t).calls ≠ [] := by
  induction es generalizing t with
  | nil => exact h.1
  | cons e es ih =>
    obtain ⟨hplaced, hes⟩ := hes
    refine ih hes ?_
    cases e with
    | toolCallOpen n name => exact ⟨iff_of_true rfl (receive_ne_nil _ _), fun _ => receive_ne_nil _ _⟩
    | toolCallArgumentsDelta n arguments =>
      have hcalled : t.called = true := h.1.mpr (h.2 (List.ne_nil_of_mem hplaced))
      exact ⟨iff_of_true hcalled (receive_ne_nil _ _), fun _ => receive_ne_nil _ _⟩
    | toolCallClose n =>
      refine ⟨h.1, fun hopen => h.2 fun hnil => hopen ?_⟩
      change t.opened.filter _ = []
      rw [hnil]
      rfl
    | _ => exact h

/-- By name and arguments. -/
theorem same_named_calls_iff {serde : Gemma4.GemmaSerde} (hserde : serde.Objects)
    (h : (dispatcher serde format startInReasoning).events chunks = some es) :
    (es.foldl clientEvent []).map (fun c => (c.name, c.arguments)) =
        (splitEvents es).2.map (fun c => (c.name, c.arguments)) ↔ ClosesCalls serde format startInReasoning chunks := by
  have hclient : (es.foldl clientEvent []).map (fun c => (c.name, c.arguments)) =
      (clientCalls es).map fun c => (c.name, c.arguments) := by
    unfold clientCalls
    rw [List.map_map]
    rfl
  rw [hclient]
  constructor
  · intro heq
    have hlen := congrArg List.length heq
    rw [List.length_map, List.length_map] at hlen
    cases format with
    | hermes => trivial
    | gemma4 => trivial
    | qwenCoder => exact Classical.byContradiction fun hopen => unclosed_lengths ((qwenCoder_ends h).2 hopen) hlen
  · intro hcloses
    rw [(same_calls_iff hserde h).mpr hcloses]

theorem rethought_events : (dispatcher Gemma4.emptySerde .qwenCoder false).events
    ["<think>a</think>b<think>c</think>".toList] = some [.thinkDelta ['a'], .textDelta ['b'], .thinkDelta ['c']] := by
  with_unfolding_all rfl

theorem hi_read : Reader.start.readAll [.messageStart [] [] 1, .contentBlockStart 0 .text,
    .contentBlockDelta 0 (.textDelta ['h', 'i']), .contentBlockStop 0, .messageDelta .endTurn 1, .messageStop] =
      some ⟨.ended, [⟨.text ['h', 'i'], true⟩], some .endTurn, none⟩ := rfl

theorem hi_events : (dispatcher Gemma4.emptySerde .hermes false).events [['h', 'i']] =
    some [.textDelta ['h', 'i']] := by
  with_unfolding_all rfl

end Flambeau.Server.Messages
