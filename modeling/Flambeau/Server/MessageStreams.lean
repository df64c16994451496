import Flambeau.Server.MessageReader

namespace Flambeau.Server.Messages
open Flambeau.Stream Flambeau.Systems Flambeau.Systems.Outbox ToolCallParser

/-! One event. -/

/-- Reasoning that was started is over. -/
def Blocks.closed (b : Blocks) : Blocks := { b with thinkingClosed := b.thinkingIdx.isSome }

theorem Blocks.closed_same {b : Blocks} (h : b.thinkingIdx.isSome = b.thinkingClosed) : b.closed = b := by
  rw [Blocks.closed, h]

theorem Shows.closeThinking (h : Shows layout ρ t b r) :
    ∃ fs r' ρ', Sends closeThinking b () fs b.closed ∧ r.readAll fs = some r' ∧ Shows layout ρ' t b.closed r' := by
  cases hti : b.thinkingIdx with
  | none =>
    have hsame : b.closed = b := Blocks.closed_same (by rw [hti, (h.noThinking hti).2]; rfl)
    rw [hsame]
    refine ⟨[], r, ρ, Sends.own ?_, rfl, h⟩
    rw [hti]
    exact sends_pure () b
  | some ti =>
    cases hclosed : b.thinkingClosed with
    | true =>
      have hsame : b.closed = b := Blocks.closed_same (by rw [hti, hclosed]; rfl)
      rw [hsame]
      refine ⟨[], r, ρ, Sends.own ?_, rfl, h⟩
      rw [hti, hclosed]
      exact sends_pure () b
    | false =>
      have hi := (h.thinkingIdx ti).mp hti
      have hend : b.closed = { b with thinkingClosed := true } := by
        rw [Blocks.closed, hti]
        rfl
      obtain ⟨r₁, hread₁, hlays₁⟩ := h.lays.change (f := Block.add (.signatureDelta []))
        (x := ⟨.thinking t.reasoning [], false⟩) hi (by rw [h.thinking, hclosed]; rfl)
      obtain ⟨r₂, hread₂, hlays₂⟩ := hlays₁.change (f := Block.stop) (x := ⟨.thinking t.reasoning [], true⟩) hi
        (by rw [Function.update_self]; rfl)
      rw [Function.update_idem] at hlays₂
      rw [hend]
      refine ⟨[.contentBlockDelta ti (.signatureDelta []), .contentBlockStop ti], r₂, _, Sends.own ?_, ?_,
        { h with lays := hlays₂, thinking := Function.update_self .., text := ?_, noThinking := ?_, call := ?_ }⟩
      · rw [hti, hclosed]
        exact Sends.set ((sends_send _ _).bind (sends_send _ _))
      · rw [Reader.readAll_cons]
        change (r.change ti _).bind _ = _
        rw [hread₁, Option.bind_some, Reader.readAll_cons]
        change (r₁.change ti _).bind _ = _
        rw [hread₂]
        rfl
      · rw [Function.update_of_ne (by decide)]
        exact h.text
      · intro hnone
        exact absurd (hti.symm.trans hnone) nofun
      · intro c hc
        rw [Function.update_of_ne (fun heq => by cases heq)]
        exact h.call c hc

/-- A block that is started at the end, of a kind there was not. -/
theorem Shows.thinkingBlock (h : Shows layout ρ t b r) (hopen : b.thinkingClosed = false) :
    ∃ i fs b' r' layout', Sends thinkingBlock b i fs b' ∧ r.readAll fs = some r' ∧ Shows layout' ρ t b' r' ∧
      b'.thinkingIdx = some i ∧ b'.thinkingClosed = false := by
  cases hti : b.thinkingIdx with
  | some i =>
    refine ⟨i, [], b, r, layout, Sends.own ?_, rfl, h, hti, hopen⟩
    rw [hti]
    exact sends_pure i b
  | none =>
    have hnew : Kind.thinking ∉ layout := by
      intro hmem
      obtain ⟨i, hi⟩ := List.getElem?_of_mem hmem
      exact absurd (hti.symm.trans ((h.thinkingIdx i).mpr hi)) nofun
    obtain ⟨r', hread, hlays⟩ := h.lays.start hnew .thinking
    have hρ : Function.update ρ .thinking ⟨ContentBlock.opened .thinking, false⟩ = ρ := by
      rw [Function.update_eq_self_iff, h.thinking, (h.noThinking hti).1, hopen]
      rfl
    rw [hρ] at hlays
    refine ⟨b.nextBlockIndex, [.contentBlockStart b.nextBlockIndex .thinking],
      { b with nextBlockIndex := b.nextBlockIndex + 1, thinkingIdx := some b.nextBlockIndex }, r', _, Sends.own ?_, ?_,
      { h with
        lays := hlays, next := ?_, thinkingIdx := ?_, textIdx := ?_, noThinking := ?_, tools := ?_, toolOpen := ?_ },
      rfl, hopen⟩
    · rw [hti]
      exact Sends.set ((sends_send _ _).bind (sends_pure _ _))
    · rw [h.next, Reader.readAll_cons, hread]
      rfl
    · rw [List.length_append]
      exact congrArg (· + 1) h.next
    · intro i
      rw [getElem?_append_new hnew, ← h.next, Option.some_inj, eq_comm]
    · intro i
      rw [getElem?_append_kind (by decide)]
      exact h.textIdx i
    · exact nofun
    · rw [List.filterMap_append, h.tools]
      exact List.append_nil _
    · intro n i
      rw [getElem?_append_kind (fun heq => by cases heq)]
      exact h.toolOpen n i

theorem Shows.textBlock (h : Shows layout ρ t b r) :
    ∃ i fs b' r' layout', Sends textBlock b i fs b' ∧ r.readAll fs = some r' ∧ Shows layout' ρ t b' r' ∧
      b'.textIdx = some i ∧ b'.thinkingIdx = b.thinkingIdx ∧ b'.thinkingClosed = b.thinkingClosed := by
  cases hti : b.textIdx with
  | some i =>
    refine ⟨i, [], b, r, layout, Sends.own ?_, rfl, h, hti, rfl, rfl⟩
    rw [hti]
    exact sends_pure i b
  | none =>
    have hnew : Kind.text ∉ layout := by
      intro hmem
      obtain ⟨i, hi⟩ := List.getElem?_of_mem hmem
      exact absurd (hti.symm.trans ((h.textIdx i).mpr hi)) nofun
    obtain ⟨r', hread, hlays⟩ := h.lays.start hnew .text
    have hρ : Function.update ρ .text ⟨ContentBlock.opened .text, false⟩ = ρ := by
      rw [Function.update_eq_self_iff, h.text, h.noText hti]
      rfl
    rw [hρ] at hlays
    refine ⟨b.nextBlockIndex, [.contentBlockStart b.nextBlockIndex .text],
      { b with nextBlockIndex := b.nextBlockIndex + 1, textIdx := some b.nextBlockIndex }, r', _, Sends.own ?_, ?_,
      { h with
        lays := hlays, next := ?_, thinkingIdx := ?_, textIdx := ?_, noText := ?_, tools := ?_, toolOpen := ?_ },
      rfl, rfl, rfl⟩
    · rw [hti]
      exact Sends.set ((sends_send _ _).bind (sends_pure _ _))
    · rw [h.next, Reader.readAll_cons, hread]
      rfl
    · rw [List.length_append]
      exact congrArg (· + 1) h.next
    · intro i
      rw [getElem?_append_kind (by decide)]
      exact h.thinkingIdx i
    · intro i
      rw [getElem?_append_new hnew, ← h.next, Option.some_inj, eq_comm]
    · exact nofun
    · rw [List.filterMap_append, h.tools]
      exact List.append_nil _
    · intro n i
      rw [getElem?_append_kind (fun heq => by cases heq)]
      exact h.toolOpen n i

theorem hear_reasoning (t : Told) (e : ParserEvent) : (t.hear e).reasoning = t.reasoning ++ thought e := rfl

theorem hear_content (t : Told) (e : ParserEvent) : (t.hear e).content = t.content ++ said e := rfl

/-- An event the client can read, and what it then has. -/
def Step (e : ParserEvent) (t : Told) (b : Blocks) (r : Reader) (b' : Blocks) : Prop :=
  ∃ fs r' layout ρ, Sends (drainEvent e) b () fs b' ∧ r.readAll fs = some r' ∧ Shows layout ρ (t.hear e) b' r'

theorem sends_markEmitted (b : Blocks) : Sends markEmitted b () [] { b with emittedAny := true } :=
  Sends.own (sends_setOwn _ _)

theorem Shows.think (h : Shows layout ρ t b r) (hopen : b.thinkingClosed = false) (hs : s.isEmpty = false) :
    ∃ b', Step (.thinkDelta s) t b r b' ∧ b'.thinkingIdx.isSome = true ∧ b'.thinkingClosed = false := by
  obtain ⟨i, fs, b₁, r₁, layout₁, hsends, hread, h₁, hidx, hopen₁⟩ := h.thinkingBlock hopen
  obtain ⟨r₂, hread₂, hlays₂⟩ := h₁.lays.change (f := Block.add (.thinkingDelta s))
    (x := ⟨.thinking (t.reasoning ++ s) [], false⟩) ((h₁.thinkingIdx i).mp hidx) (by rw [h₁.thinking, hopen₁]; rfl)
  refine ⟨{ b₁ with emittedAny := true }, ⟨fs ++ ([] ++ [.contentBlockDelta i (.thinkingDelta s)]), r₂, layout₁, _,
    ?_, ?_, { h₁ with lays := hlays₂, thinking := ?_, text := ?_, noThinking := ?_, noText := ?_, call := ?_ }⟩,
    by rw [hidx]; rfl, hopen₁⟩
  · change Sends (if s.isEmpty then _ else _) _ _ _ _
    rw [hs]
    exact hsends.bind ((sends_markEmitted b₁).bind (sends_send _ _))
  · rw [Reader.readAll_append, hread, Option.bind_some, List.nil_append, Reader.readAll_cons]
    change (r₁.change i _).bind _ = _
    rw [hread₂]
    rfl
  · rw [Function.update_self, hopen₁]
    rfl
  · rw [Function.update_of_ne (by decide), h₁.text, hear_content]
    exact congrArg (fun c => (⟨.text c, false⟩ : Block)) (List.append_nil _).symm
  · intro hnone
    exact absurd (hidx.symm.trans hnone) nofun
  · intro hnone
    exact (List.append_nil _).trans (h₁.noText hnone)
  · intro c hc
    rw [Function.update_of_ne (fun heq => by cases heq)]
    exact h₁.call c hc

theorem Shows.say (h : Shows layout ρ t b r) (hs : s.isEmpty = false) :
    ∃ b', Step (.textDelta s) t b r b' ∧ b'.thinkingIdx = b.thinkingIdx ∧ b'.thinkingClosed = b.thinkingIdx.isSome := by
  obtain ⟨fs₁, r₁, ρ₁, hsends₁, hread₁, h₁⟩ := h.closeThinking
  obtain ⟨i, fs₂, b₂, r₂, layout₂, hsends₂, hread₂, h₂, hidx, hti, hclosed⟩ := h₁.textBlock
  obtain ⟨r₃, hread₃, hlays₃⟩ := h₂.lays.change (f := Block.add (.textDelta s))
    (x := ⟨.text (t.content ++ s), false⟩) ((h₂.textIdx i).mp hidx) (by rw [h₂.text]; rfl)
  refine ⟨{ b₂ with emittedAny := true }, ⟨fs₁ ++ (fs₂ ++ ([] ++ [.contentBlockDelta i (.textDelta s)])), r₃, layout₂, _,
    ?_, ?_, { h₂ with lays := hlays₃, thinking := ?_, text := ?_, noThinking := ?_, noText := ?_, call := ?_ }⟩,
    hti, hclosed⟩
  · change Sends (if s.isEmpty then _ else _) _ _ _ _
    rw [hs]
    exact hsends₁.bind (hsends₂.bind ((sends_markEmitted b₂).bind (sends_send _ _)))
  · rw [Reader.readAll_append, hread₁, Option.bind_some, Reader.readAll_append, hread₂, Option.bind_some,
      List.nil_append, Reader.readAll_cons]
    change (r₂.change i _).bind _ = _
    rw [hread₃]
    rfl
  · rw [Function.update_of_ne (by decide), h₂.thinking, hear_reasoning]
    exact congrArg (fun c => (⟨.thinking c [], _⟩ : Block)) (List.append_nil _).symm
  · rw [Function.update_self]
    rfl
  · intro hnone
    exact ⟨(List.append_nil _).trans (h₂.noThinking hnone).1, (h₂.noThinking hnone).2⟩
  · intro hnone
    exact absurd (hidx.symm.trans hnone) nofun
  · intro c hc
    rw [Function.update_of_ne (fun heq => by cases heq)]
    exact h₂.call c hc

/-- An empty delta is passed over. -/
theorem Shows.silent (h : Shows layout ρ t b r) (he : e = .textDelta [] ∨ e = .thinkDelta []) : Step e t b r b := by
  have hsame : t.hear e = t := by
    rcases he with rfl | rfl
    all_goals
      unfold Told.hear thought said
      simp only [List.append_nil]
      rfl
  rw [Step, hsame]
  rcases he with rfl | rfl
  · exact ⟨[], r, layout, ρ, sends_pure () b, rfl, h⟩
  · exact ⟨[], r, layout, ρ, sends_pure () b, rfl, h⟩

theorem Shows.tool_mem (h : Shows layout ρ t b r) : Kind.tool n ∈ layout ↔ n ∈ t.calls.map ClientCall.index :=
  mem_tools h.tools

theorem Shows.opens (h : Shows layout ρ t b r) (hn : n ∉ t.calls.map ClientCall.index) (name : Text) :
    ∃ b', Step (.toolCallOpen n name) t b r b' ∧ b'.thinkingIdx = b.thinkingIdx ∧
      b'.thinkingClosed = b.thinkingIdx.isSome := by
  have hflag : Shows layout ρ { t with called := true } { b with hasToolCalls := true } r :=
    { h with hasToolCalls := rfl }
  obtain ⟨fs, r₁, ρ₁, hsends, hread, h₁⟩ := hflag.closeThinking
  have hnew : Kind.tool n ∉ layout := fun hmem => hn (h.tool_mem.mp hmem)
  have hclosed : n ∉ t.opened := fun hmem => hn (h.opened n hmem)
  obtain ⟨r₂, hread₂, hlays₂⟩ := h₁.lays.start hnew (.toolUse (tooluId b.nextBlockIndex) name)
  have hcalls : clientEvent t.calls (.toolCallOpen n name) = t.calls ++ [⟨n, name, []⟩] :=
    receive_first fun c hc (heq : c.index = n) => hn (heq ▸ List.mem_map_of_mem hc)
  have hheard : (t.hear (.toolCallOpen n name)).calls = t.calls ++ [⟨n, name, []⟩] := hcalls
  refine ⟨({ ({ b with hasToolCalls := true } : Blocks).closed with
      nextBlockIndex := b.nextBlockIndex + 1 } : Blocks).insertTool n b.nextBlockIndex,
    ⟨fs ++ [.contentBlockStart b.nextBlockIndex (.toolUse (tooluId b.nextBlockIndex) name)], r₂, _, _, ?_, ?_,
    { lays := hlays₂, next := ?_, thinkingIdx := ?_, textIdx := ?_, thinking := ?_, text := ?_, noThinking := ?_,
      noText := ?_, tools := ?_, call := ?_, opened := ?_, toolOpen := ?_, toolNodup := ?_, hasToolCalls := rfl }⟩,
    rfl, rfl⟩
  · exact Sends.own (Sends.set (hsends.bind (Sends.own (Sends.set (sends_send _ _)))))
  · rw [← h.next] at hread₂
    rw [Reader.readAll_append, hread, Option.bind_some, Reader.readAll_cons, hread₂]
    rfl
  · rw [List.length_append]
    exact congrArg (· + 1) h.next
  · intro i
    rw [getElem?_append_kind (fun heq => by cases heq)]
    exact h.thinkingIdx i
  · intro i
    rw [getElem?_append_kind (fun heq => by cases heq)]
    exact h.textIdx i
  · rw [Function.update_of_ne (fun heq => by cases heq), h₁.thinking, hear_reasoning]
    exact congrArg (fun c => (⟨.thinking c [], _⟩ : Block)) (List.append_nil _).symm
  · rw [Function.update_of_ne (fun heq => by cases heq), h₁.text, hear_content]
    exact congrArg (fun c => (⟨.text c, false⟩ : Block)) (List.append_nil _).symm
  · intro hnone
    exact ⟨(List.append_nil _).trans (h₁.noThinking hnone).1, (h₁.noThinking hnone).2⟩
  · intro hnone
    exact (List.append_nil _).trans (h₁.noText hnone)
  · rw [hheard, List.filterMap_append, h.tools, List.map_append]
    rfl
  · rw [hheard]
    intro c hc
    rcases List.mem_append.mp hc with hc | hc
    · have hne : c.index ≠ n := fun heq => hn (heq ▸ List.mem_map_of_mem hc)
      obtain ⟨id, hid⟩ := h₁.call c hc
      refine ⟨id, ?_⟩
      rw [Function.update_of_ne (fun heq => hne (by injection heq)), hid]
      simp only [Told.hear, List.mem_cons, hne, false_or]
    · obtain rfl := List.mem_singleton.mp hc
      refine ⟨tooluId b.nextBlockIndex, ?_⟩
      rw [Function.update_self]
      simp [Told.hear, ContentBlock.opened]
  · rw [hheard]
    intro m hm
    rw [List.map_append]
    rcases List.mem_cons.mp hm with rfl | hm
    · exact List.mem_append_right _ List.mem_cons_self
    · exact List.mem_append_left _ (h.opened m hm)
  · intro m i
    simp only [Blocks.insertTool, List.mem_cons, List.mem_filter, Prod.mk.injEq, Told.hear, bne_iff_ne]
    by_cases hm : m = n
    · subst hm
      rw [getElem?_append_new hnew, ← h.next]
      simp
    · rw [getElem?_append_kind (fun heq => hm (by injection heq))]
      simp only [hm, false_and, false_or, ne_eq, not_false_eq_true, and_true]
      exact h.toolOpen m i
  · refine List.nodup_cons.mpr ⟨fun hmem => ?_, h.toolNodup.filter _⟩
    exact absurd (List.mem_filter.mp hmem).2 (by simp)

/-- A delta of arguments changes the call of its number and no other. -/
theorem receive_present {d : ToolCallDelta} (hnodup : (calls.map ClientCall.index).Nodup)
    (hmem : d.index ∈ calls.map ClientCall.index) (hname : d.name = none) (hargs : d.arguments = some more) :
    (receive d calls).map ClientCall.index = calls.map ClientCall.index ∧
      ∀ c ∈ receive d calls, (c ∈ calls ∧ c.index ≠ d.index) ∨
        ∃ c₀ ∈ calls, c₀.index = d.index ∧ c = ⟨d.index, c₀.name, c₀.arguments ++ more⟩ := by
  induction calls with
  | nil => cases hmem
  | cons c₀ calls ih =>
    obtain ⟨hnot, hnodup⟩ := List.nodup_cons.mp hnodup
    unfold receive
    by_cases heq : c₀.index = d.index
    · rw [if_pos heq]
      refine ⟨rfl, fun c hc => ?_⟩
      rcases List.mem_cons.mp hc with rfl | hc
      · refine .inr ⟨c₀, List.mem_cons_self, heq, ?_⟩
        rw [heq, hname, hargs, Option.getD_none, Option.getD_some, List.append_nil]
      · refine .inl ⟨List.mem_cons_of_mem _ hc, fun hci => hnot ?_⟩
        rw [heq, ← hci]
        exact List.mem_map_of_mem hc
    · rw [if_neg heq]
      have hmem' : d.index ∈ calls.map ClientCall.index := by
        rcases List.mem_cons.mp hmem with h | h
        · exact absurd h.symm heq
        · exact h
      obtain ⟨hkeys, hcalls⟩ := ih hnodup hmem'
      refine ⟨congrArg (c₀.index :: ·) hkeys, fun c hc => ?_⟩
      rcases List.mem_cons.mp hc with rfl | hc
      · exact .inl ⟨List.mem_cons_self, heq⟩
      · rcases hcalls c hc with ⟨hin, hne⟩ | ⟨c₁, hin, hidx, hc₁⟩
        · exact .inl ⟨List.mem_cons_of_mem _ hin, hne⟩
        · exact .inr ⟨c₁, List.mem_cons_of_mem _ hin, hidx, hc₁⟩

theorem Shows.keys_nodup (h : Shows layout ρ t b r) : (t.calls.map ClientCall.index).Nodup := by
  rw [← h.tools]
  refine h.lays.nodup.filterMap fun k k' n hk hk' => ?_
  cases k with
  | tool m =>
    cases k' with
    | tool m' =>
      cases hk
      cases hk'
      rfl
    | _ => cases hk'
  | _ => cases hk

/-- `tool_open` has the open calls. -/
theorem Shows.lookup (h : Shows layout ρ t b r) (n : Nat) :
    (∃ i, b.toolOpen.lookup n = some i ∧ layout[i]? = some (.tool n) ∧ n ∈ t.opened) ∨
      (b.toolOpen.lookup n = none ∧ n ∉ t.opened) := by
  cases hi : b.toolOpen.lookup n with
  | some i =>
    obtain ⟨front, back, hsplit, -⟩ := List.lookup_eq_some_iff.mp hi
    have hmem : (n, i) ∈ b.toolOpen := hsplit ▸ List.mem_append_right _ List.mem_cons_self
    exact .inl ⟨i, rfl, (h.toolOpen n i).mp hmem⟩
  | none =>
    refine .inr ⟨rfl, fun hopen => ?_⟩
    obtain ⟨i, hlayout⟩ := List.getElem?_of_mem (h.tool_mem.mpr (h.opened n hopen))
    have hmem := (h.toolOpen n i).mpr ⟨hlayout, hopen⟩
    exact absurd (List.lookup_eq_none_iff.mp hi (n, i) hmem) (by simp)

theorem Shows.answers (h : Shows layout ρ t b r) (hn : n ∈ t.opened) (more : Text) :
    Step (.toolCallArgumentsDelta n more) t b r b := by
  rcases h.lookup n with ⟨i, hi, hlayout, -⟩ | ⟨-, hnot⟩
  · obtain ⟨hkeys, hcalls⟩ := receive_present (d := ⟨n, none, none, some more⟩) h.keys_nodup (h.opened n hn) rfl rfl
    obtain ⟨c₀, hc₀, rfl⟩ := List.mem_map.mp (h.opened n hn)
    obtain ⟨id, hid⟩ := h.call c₀ hc₀
    rw [decide_eq_false (by simpa using hn)] at hid
    obtain ⟨r', hread, hlays⟩ := h.lays.change (f := Block.add (.inputJsonDelta more))
      (x := ⟨.toolUse id c₀.name (c₀.arguments ++ more), false⟩) hlayout (by rw [hid]; rfl)
    refine ⟨[.contentBlockDelta i (.inputJsonDelta more)], r', layout, _, Sends.own ?_, ?_,
      { h with
        lays := hlays, thinking := ?_, text := ?_, noThinking := ?_, noText := ?_, tools := ?_, call := ?_,
        opened := ?_ }⟩
    · rw [hi]
      exact sends_send _ _
    · rw [Reader.readAll_cons]
      change (r.change i _).bind _ = _
      rw [hread]
      rfl
    · rw [Function.update_of_ne (fun heq => by cases heq), h.thinking, hear_reasoning]
      exact congrArg (fun c => (⟨.thinking c [], _⟩ : Block)) (List.append_nil _).symm
    · rw [Function.update_of_ne (fun heq => by cases heq), h.text, hear_content]
      exact congrArg (fun c => (⟨.text c, false⟩ : Block)) (List.append_nil _).symm
    · intro hnone
      exact ⟨(List.append_nil _).trans (h.noThinking hnone).1, (h.noThinking hnone).2⟩
    · intro hnone
      exact (List.append_nil _).trans (h.noText hnone)
    · exact h.tools.trans hkeys.symm
    · intro c hc
      rcases hcalls c hc with ⟨hin, hne⟩ | ⟨c₁, hin, hidx, rfl⟩
      · obtain ⟨id', hid'⟩ := h.call c hin
        refine ⟨id', ?_⟩
        rw [Function.update_of_ne (fun heq => hne (by injection heq)), hid']
        rfl
      · obtain rfl : c₁ = c₀ := List.inj_on_of_nodup_map h.keys_nodup hin hc₀ hidx
        refine ⟨id, ?_⟩
        have hopen : decide (c₁.index ∉ t.opened) = false := decide_eq_false (by simpa using hn)
        rw [Function.update_self]
        exact congrArg (Block.mk _) hopen.symm
    · intro m hm
      rw [show (t.hear (.toolCallArgumentsDelta c₀.index more)).calls.map ClientCall.index =
        t.calls.map ClientCall.index from hkeys]
      exact h.opened m hm
  · exact absurd hn hnot

/-- The close of a call that is not open is passed over. -/
theorem Shows.closes (h : Shows layout ρ t b r) (n : Nat) :
    ∃ b', Step (.toolCallClose n) t b r b' ∧ b'.thinkingIdx = b.thinkingIdx ∧ b'.thinkingClosed = b.thinkingClosed := by
  rcases h.lookup n with ⟨i, hi, hlayout, hn⟩ | ⟨hi, hnot⟩
  · obtain ⟨c₀, hc₀, rfl⟩ := List.mem_map.mp (h.opened n hn)
    obtain ⟨id, hid⟩ := h.call c₀ hc₀
    rw [decide_eq_false (by simpa using hn)] at hid
    obtain ⟨r', hread, hlays⟩ := h.lays.change (f := Block.stop)
      (x := ⟨.toolUse id c₀.name c₀.arguments, true⟩) hlayout (by rw [hid]; rfl)
    refine ⟨b.removeTool c₀.index, ⟨[.contentBlockStop i], r', layout, _, Sends.own ?_, ?_,
      { h with
        lays := hlays, thinking := ?_, text := ?_, noThinking := ?_, noText := ?_, call := ?_,
        opened := ?_, toolOpen := ?_, toolNodup := h.toolNodup.filter _ }⟩, rfl, rfl⟩
    · rw [hi]
      exact Sends.set (sends_send _ _)
    · rw [Reader.readAll_cons]
      change (r.change i _).bind _ = _
      rw [hread]
      rfl
    · rw [Function.update_of_ne (fun heq => by cases heq), h.thinking, hear_reasoning]
      exact congrArg (fun c => (⟨.thinking c [], _⟩ : Block)) (List.append_nil _).symm
    · rw [Function.update_of_ne (fun heq => by cases heq), h.text, hear_content]
      exact congrArg (fun c => (⟨.text c, false⟩ : Block)) (List.append_nil _).symm
    · intro hnone
      exact ⟨(List.append_nil _).trans (h.noThinking hnone).1, (h.noThinking hnone).2⟩
    · intro hnone
      exact (List.append_nil _).trans (h.noText hnone)
    · intro c hc
      by_cases heq : c.index = c₀.index
      · obtain rfl : c = c₀ := List.inj_on_of_nodup_map h.keys_nodup hc hc₀ heq
        refine ⟨id, ?_⟩
        rw [Function.update_self]
        simp [Told.hear]
      · obtain ⟨id', hid'⟩ := h.call c hc
        refine ⟨id', ?_⟩
        rw [Function.update_of_ne (fun hk => heq (by injection hk)), hid']
        simp [Told.hear, heq]
    · intro m hm
      exact h.opened m (List.mem_filter.mp hm).1
    · intro m j
      simp only [Blocks.removeTool, Told.hear, List.mem_filter, bne_iff_ne]
      rw [h.toolOpen m j, and_assoc]
  · have hsame : t.hear (.toolCallClose n) = t := by
      unfold Told.hear thought said
      simp only [List.append_nil]
      have hopened : t.opened.filter (· != n) = t.opened := by
        refine List.filter_eq_self.mpr fun m hm => bne_iff_ne.mpr ?_
        rintro rfl
        exact hnot hm
      rw [hopened]
      rfl
    refine ⟨b, ⟨[], r, layout, ρ, Sends.own ?_, rfl, ?_⟩, rfl, rfl⟩
    · rw [hi]
      exact sends_pure () b
    · rw [hsame]
      exact h

end Flambeau.Server.Messages
