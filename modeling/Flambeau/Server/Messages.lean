import Flambeau.Server.ToolCallParser.Gemma4Chunks
import Flambeau.Server.ToolCalls
import Flambeau.Systems.Outbox

namespace Flambeau.Server.Messages
open Flambeau.Stream Flambeau.Systems Flambeau.Systems.Outbox ToolCallParser

/-! `stream_messages_anthropic_sse`, from the parser's events to the frames of a message. -/

/-- A `content_block`, as it starts. -/
inductive ContentBlock where
  | thinking
  | text
  | toolUse (id name : Text)

/-- The `delta` of a `content_block_delta`. -/
inductive BlockDelta where
  | thinkingDelta (thinking : Text)
  | signatureDelta (signature : Text)
  | textDelta (text : Text)
  | inputJsonDelta (partialJson : Text)

inductive StopReason where
  | endTurn
  | maxTokens
  | toolUse
  | error
deriving DecidableEq

inductive Frame where
  | messageStart (id model : Text) (inputTokens : Nat)
  | contentBlockStart (index : Nat) (contentBlock : ContentBlock)
  | contentBlockDelta (index : Nat) (delta : BlockDelta)
  | contentBlockStop (index : Nat)
  | messageDelta (stopReason : StopReason) (outputTokens : Nat)
  | messageStop
  | error (kind message : Text)

/-- `toolu_{block_idx:08x}`. -/
def tooluId (blockIdx : Nat) : Text := "toolu_".toList ++ (Nat.toDigits 16 blockIdx).leftpad 8 '0'

/-- The variables of the stream. -/
structure Blocks where
  nextBlockIndex : Nat
  thinkingIdx : Option Nat
  thinkingClosed : Bool
  textIdx : Option Nat
  toolOpen : List (Nat × Nat)
  emittedAny : Bool
  hasToolCalls : Bool

def Blocks.start : Blocks := ⟨0, none, false, none, [], false, false⟩

/-- `tool_open.insert`. -/
def Blocks.insertTool (b : Blocks) (index blockIdx : Nat) : Blocks :=
  { b with toolOpen := (index, blockIdx) :: b.toolOpen.filter (·.1 != index) }

/-- `tool_open.remove`. -/
def Blocks.removeTool (b : Blocks) (index : Nat) : Blocks :=
  { b with toolOpen := b.toolOpen.filter (·.1 != index) }

abbrev Streaming := Sending Blocks Frame

def closeThinking : Streaming Unit :=
  getOwn >>= fun b =>
    match b.thinkingIdx with
    | some ti =>
      if b.thinkingClosed then pure ()
      else
        setOwn { b with thinkingClosed := true } >>= fun _ =>
        send (.contentBlockDelta ti (.signatureDelta [])) >>= fun _ =>
        send (.contentBlockStop ti)
    | none => pure ()

/-- The index of the thinking block, which the first delta starts. -/
def thinkingBlock : Streaming Nat :=
  getOwn >>= fun b =>
    match b.thinkingIdx with
    | some i => pure i
    | none =>
      setOwn { b with nextBlockIndex := b.nextBlockIndex + 1, thinkingIdx := some b.nextBlockIndex } >>= fun _ =>
      send (.contentBlockStart b.nextBlockIndex .thinking) >>= fun _ => pure b.nextBlockIndex

def textBlock : Streaming Nat :=
  getOwn >>= fun b =>
    match b.textIdx with
    | some i => pure i
    | none =>
      setOwn { b with nextBlockIndex := b.nextBlockIndex + 1, textIdx := some b.nextBlockIndex } >>= fun _ =>
      send (.contentBlockStart b.nextBlockIndex .text) >>= fun _ => pure b.nextBlockIndex

def markEmitted : Streaming Unit := getOwn >>= fun b => setOwn { b with emittedAny := true }

/-- An event in `drain_events`. -/
def drainEvent : ParserEvent → Streaming Unit
  | .thinkDelta s =>
    if s.isEmpty then pure ()
    else
      thinkingBlock >>= fun idx => markEmitted >>= fun _ =>
      send (.contentBlockDelta idx (.thinkingDelta s))
  | .textDelta s =>
    if s.isEmpty then pure ()
    else
      closeThinking >>= fun _ => textBlock >>= fun idx => markEmitted >>= fun _ =>
      send (.contentBlockDelta idx (.textDelta s))
  | .toolCallOpen index name =>
    getOwn >>= fun b => setOwn { b with hasToolCalls := true } >>= fun _ =>
    closeThinking >>= fun _ => getOwn >>= fun b =>
    setOwn ({ b with nextBlockIndex := b.nextBlockIndex + 1 }.insertTool index b.nextBlockIndex) >>= fun _ =>
    send (.contentBlockStart b.nextBlockIndex (.toolUse (tooluId b.nextBlockIndex) name))
  | .toolCallArgumentsDelta index arguments =>
    getOwn >>= fun b =>
      match b.toolOpen.lookup index with
      | some blockIdx => send (.contentBlockDelta blockIdx (.inputJsonDelta arguments))
      | none => pure ()
  | .toolCallClose index =>
    getOwn >>= fun b =>
      match b.toolOpen.lookup index with
      | some blockIdx => setOwn (b.removeTool index) >>= fun _ => send (.contentBlockStop blockIdx)
      | none => pure ()

def drainEvents (events : List ParserEvent) : Streaming Unit := events.forM drainEvent

/-- The decode loop's calls of `emit_delta`, until one of them cannot send, and their number. -/
def emitDeltas (b : BoxedParser) (o : Outbox Blocks Frame) (p : b.State) :
    List Text → Option (Outbox Blocks Frame × b.State × Nat)
  | [] => some (o, p, 0)
  | text :: rest =>
    (b.push p text).bind fun r =>
      match drainEvents r.1 o with
      | .ok _ o => (emitDeltas b o r.2 rest).map fun e => (e.1, e.2.1, e.2.2 + 1)
      | .error _ o => some (o, r.2, 1)

/-! The end of a stream. Whatever becomes of one frame, the next is tried. -/

/-- `tool_open.drain()`, in the order the map has. -/
def stopTools (drain : List (Nat × Nat) → List (Nat × Nat)) (o : Outbox Blocks Frame) : Outbox Blocks Frame :=
  (drain o.own.toolOpen).foldl (fun o entry => attempt (send (.contentBlockStop entry.2)) o)
    { o with own := { o.own with toolOpen := [] } }

/-- A message of no text and no reasoning has an empty text block. -/
def emptyText (o : Outbox Blocks Frame) : Outbox Blocks Frame :=
  if o.own.textIdx.isNone && !o.own.emittedAny then
    attempt (setOwn { o.own with textIdx := some o.own.nextBlockIndex })
      (attempt (send (.contentBlockStart o.own.nextBlockIndex .text)) o)
  else o

def stopText (o : Outbox Blocks Frame) : Outbox Blocks Frame :=
  match o.own.textIdx with
  | some ti => attempt (send (.contentBlockStop ti)) o
  | none => o

/-- The decode loop's end and its tokens, or its error. -/
abbrev Decoded := Except Text (DecodeEnd × Nat)

def stopReason (b : Blocks) (res : Decoded) : StopReason :=
  if b.hasToolCalls then .toolUse
  else
    match res with
    | .ok (.stop, _) => .endTurn
    | .ok (.length, _) => .maxTokens
    | .error _ => .error

def outputTokens : Decoded → Nat
  | .ok (_, tokens) => tokens
  | .error _ => 0

def conclude (res : Decoded) (o : Outbox Blocks Frame) : Outbox Blocks Frame :=
  attempt (send .messageStop) (attempt (send (.messageDelta (stopReason o.own res) (outputTokens res))) o)

def reportError (res : Decoded) (o : Outbox Blocks Frame) : Outbox Blocks Frame :=
  match res with
  | .ok _ => o
  | .error message => attempt (send (.error "internal_error".toList message)) o

def ending (drain : List (Nat × Nat) → List (Nat × Nat)) (res : Decoded) (o : Outbox Blocks Frame) :
    Outbox Blocks Frame :=
  reportError res (conclude res (stopText (emptyText (attempt closeThinking (stopTools drain o)))))

/-- What a stream is about. -/
structure Request where
  id : Text
  model : Text
  promptIds : Option (List Nat)
  toolForcePrefix : Option Text

/-- The blocking task: the forced opening, the texts of the decode loop, the flush and the end.
How the decode loop ends may depend on how often it emitted. -/
def streamTask (b : BoxedParser) (drain : List (Nat × Nat) → List (Nat × Nat)) (decoded : Nat → Decoded)
    (toolForcePrefix : Option Text) (texts : List Text) (o : Outbox Blocks Frame) : Option (Outbox Blocks Frame) :=
  let forced : Option (Outbox Blocks Frame × b.State) :=
    match toolForcePrefix with
    | some pfx => (b.push b.init pfx).map fun r => (attempt (drainEvents r.1) o, r.2)
    | none => some (o, b.init)
  forced.bind fun r => (emitDeltas b r.1 r.2 texts).bind fun r =>
    (b.finish r.2.1).map fun tail => ending drain (decoded r.2.2) (attempt (drainEvents tail.1) r.1)

/-- The frames a receiver gets of `stream_messages_anthropic_sse`, when it takes so many. -/
def streamMessagesAnthropicSse (b : BoxedParser) (drain : List (Nat × Nat) → List (Nat × Nat))
    (decoded : Nat → Decoded) (request : Request) (texts : List Text) (takes : Option Nat) : Option (List Frame) :=
  match request.promptIds with
  | none | some [] =>
    some (attempt (send (.error "invalid_request_error".toList "prompt tokenized to 0 tokens".toList))
      ⟨Blocks.start, [], takes⟩).sent
  | some (id :: ids) =>
    let o := attempt (send (.messageStart request.id request.model (id :: ids).length)) ⟨Blocks.start, [], takes⟩
    (streamTask b drain decoded request.toolForcePrefix texts o).map Outbox.sent

/-! A receiver that leaves. -/

theorem cuts_closeThinking : Cuts closeThinking := by
  refine cuts_bind cuts_getOwn fun b => ?_
  split
  · split
    · exact cuts_pure ()
    · exact cuts_bind (cuts_setOwn _) fun _ => cuts_bind (cuts_send _) fun _ => cuts_send _
  · exact cuts_pure ()

theorem cuts_thinkingBlock : Cuts thinkingBlock := by
  refine cuts_bind cuts_getOwn fun b => ?_
  split
  · exact cuts_pure _
  · exact cuts_bind (cuts_setOwn _) fun _ => cuts_bind (cuts_send _) fun _ => cuts_pure _

theorem cuts_textBlock : Cuts textBlock := by
  refine cuts_bind cuts_getOwn fun b => ?_
  split
  · exact cuts_pure _
  · exact cuts_bind (cuts_setOwn _) fun _ => cuts_bind (cuts_send _) fun _ => cuts_pure _

theorem cuts_markEmitted : Cuts markEmitted := cuts_bind cuts_getOwn fun _ => cuts_setOwn _

theorem cuts_drainEvent (e : ParserEvent) : Cuts (drainEvent e) := by
  cases e with
  | thinkDelta s =>
    change Cuts (if s.isEmpty then _ else _)
    split
    · exact cuts_pure ()
    · exact cuts_bind cuts_thinkingBlock fun _ => cuts_bind cuts_markEmitted fun _ => cuts_send _
  | textDelta s =>
    change Cuts (if s.isEmpty then _ else _)
    split
    · exact cuts_pure ()
    · exact cuts_bind cuts_closeThinking fun _ => cuts_bind cuts_textBlock fun _ =>
        cuts_bind cuts_markEmitted fun _ => cuts_send _
  | toolCallOpen index name =>
    exact cuts_bind cuts_getOwn fun _ => cuts_bind (cuts_setOwn _) fun _ =>
      cuts_bind cuts_closeThinking fun _ => cuts_bind cuts_getOwn fun _ =>
      cuts_bind (cuts_setOwn _) fun _ => cuts_send _
  | toolCallArgumentsDelta index arguments =>
    refine cuts_bind cuts_getOwn fun b => ?_
    split
    · exact cuts_send _
    · exact cuts_pure ()
  | toolCallClose index =>
    refine cuts_bind cuts_getOwn fun b => ?_
    split
    · exact cuts_bind (cuts_setOwn _) fun _ => cuts_send _
    · exact cuts_pure ()

theorem cuts_drainEvents (events : List ParserEvent) : Cuts (drainEvents events) := cuts_forM cuts_drainEvent events

theorem follows_setOwn (f : Blocks → Blocks) :
    Follows (fun o : Outbox Blocks Frame => { o with own := f o.own }) := by
  intro b
  refine ⟨[], f b, fun sent => ⟨by rw [List.append_nil], fun n hn => ⟨f b, ?_, fun _ => rfl⟩⟩⟩
  rw [List.append_nil, List.take_of_length_le hn]

theorem follows_send (m : Frame) : Follows (attempt (send m : Streaming Unit)) := follows_attempt (cuts_send m)

theorem follows_stopTools (drain : List (Nat × Nat) → List (Nat × Nat)) : Follows (stopTools drain) := by
  refine follows_own (F := fun (b : Blocks) (o : Outbox Blocks Frame) =>
    (drain b.toolOpen).foldl (fun o (entry : Nat × Nat) => attempt (send (.contentBlockStop entry.2)) o)
      { o with own := { o.own with toolOpen := [] } }) fun b => ?_
  exact follows_comp (follows_setOwn fun b => { b with toolOpen := [] })
    (follows_foldl (fun entry => follows_send (.contentBlockStop entry.2)) (drain b.toolOpen))

theorem follows_emptyText : Follows emptyText := by
  refine follows_own (F := fun (b : Blocks) (o : Outbox Blocks Frame) => if b.textIdx.isNone && !b.emittedAny then
    attempt (setOwn { b with textIdx := some b.nextBlockIndex })
      (attempt (send (.contentBlockStart b.nextBlockIndex .text)) o) else o) fun b => ?_
  split
  · exact follows_comp (follows_send _) (follows_attempt (cuts_setOwn _))
  · exact follows_id

theorem follows_stopText : Follows stopText := by
  refine follows_own (F := fun (b : Blocks) (o : Outbox Blocks Frame) => match b.textIdx with
    | some ti => attempt (send (.contentBlockStop ti)) o
    | none => o) fun b => ?_
  split
  · exact follows_send _
  · exact follows_id

theorem follows_conclude (res : Decoded) : Follows (conclude res) :=
  follows_own (F := fun (b : Blocks) (o : Outbox Blocks Frame) => attempt (send .messageStop)
      (attempt (send (.messageDelta (stopReason b res) (outputTokens res))) o))
    fun _ => follows_comp (follows_send _) (follows_send _)

theorem follows_reportError (res : Decoded) : Follows (reportError res) := by
  cases res with
  | ok r => exact follows_id
  | error message => exact follows_send _

theorem follows_ending (drain : List (Nat × Nat) → List (Nat × Nat)) (res : Decoded) : Follows (ending drain res) := by
  have htools := follows_comp (follows_stopTools drain) (follows_attempt cuts_closeThinking)
  have htext := follows_comp (follows_comp htools follows_emptyText) follows_stopText
  have hall := follows_comp (follows_comp htext (follows_conclude res)) (follows_reportError res)
  exact hall

/-! The decode loop. -/

theorem drainEvents_append (es fs : List ParserEvent) :
    drainEvents (es ++ fs) = drainEvents es >>= fun _ => drainEvents fs :=
  List.forM_append

theorem sends_append (hes : Sends (drainEvents es) s () more s₁) (hfs : Sends (drainEvents fs) s₁ () rest s₂) :
    Sends (drainEvents (es ++ fs)) s () (more ++ rest) s₂ := by
  intro sent
  rw [drainEvents_append]
  exact Sends.bind hes hfs sent

/-- For a receiver that stays, the loop sends the frames of the events of all its texts. -/
theorem emitDeltas_stays {b : BoxedParser} {p : b.State} (s : Blocks) (sent : List Frame)
    (h : b.eventsFrom p texts = some es) :
    ∃ front more s' p' tail, emitDeltas b ⟨s, sent, none⟩ p texts = some (⟨s', sent ++ more, none⟩, p', texts.length) ∧
      b.finish p' = some tail ∧ es = front ++ tail.1 ∧ Sends (drainEvents front) s () more s' := by
  induction texts generalizing p s sent es with
  | nil =>
    obtain ⟨tail, hfinish, rfl⟩ := Option.map_eq_some_iff.mp h
    refine ⟨[], [], s, p, tail, ?_, hfinish, rfl, sends_pure () s⟩
    rw [emitDeltas, List.append_nil]
    rfl
  | cons text rest ih =>
    obtain ⟨r, hpush, h⟩ := Option.bind_eq_some_iff.mp h
    obtain ⟨es', hrest, rfl⟩ := Option.map_eq_some_iff.mp h
    obtain ⟨⟨⟩, more₁, s₁, hfirst, -⟩ := cuts_drainEvents r.1 s
    obtain ⟨front, more, s', p', tail, hrun, hfinish, rfl, hsends⟩ := ih s₁ (sent ++ more₁) hrest
    refine ⟨r.1 ++ front, more₁ ++ more, s', p', tail, ?_, hfinish, (List.append_assoc _ _ _).symm, ?_⟩
    · rw [emitDeltas, hpush, Option.bind_some, hfirst]
      dsimp only
      rw [hrun, List.append_assoc]
      rfl
    · exact sends_append hfirst hsends

/-- Where the receiver has left, nothing more is sent. -/
theorem emitDeltas_gone {b : BoxedParser} {p : b.State} {sent : List Frame} {r : Outbox Blocks Frame × b.State × Nat}
    (hlen : sent.length = n) (h : emitDeltas b ⟨s, sent, some n⟩ p texts = some r) :
    r.1.sent = sent ∧ r.1.takes = some n := by
  induction texts generalizing p s r with
  | nil =>
    cases h
    exact ⟨rfl, rfl⟩
  | cons text rest ih =>
    obtain ⟨d, hpush, h⟩ := Option.bind_eq_some_iff.mp h
    obtain ⟨t, hgone⟩ := (follows_attempt (cuts_drainEvents d.1)).gone s hlen
    unfold attempt at hgone
    cases hdrain : drainEvents d.1 ⟨s, sent, some n⟩ with
    | ok u o =>
      rw [hdrain] at h hgone
      obtain rfl : o = ⟨t, sent, some n⟩ := hgone
      obtain ⟨e, hrest, rfl⟩ := Option.map_eq_some_iff.mp h
      exact ih (r := e) hrest
    | error u o =>
      rw [hdrain] at h hgone
      obtain rfl : o = ⟨t, sent, some n⟩ := hgone
      cases h
      exact ⟨rfl, rfl⟩

theorem emitDeltas_grows {b : BoxedParser} {p : b.State} {sent : List Frame} {r : Outbox Blocks Frame × b.State × Nat}
    (h : emitDeltas b ⟨s, sent, none⟩ p texts = some r) : (∃ more, r.1.sent = sent ++ more) ∧ r.1.takes = none := by
  induction texts generalizing p s sent r with
  | nil =>
    cases h
    exact ⟨⟨[], (List.append_nil _).symm⟩, rfl⟩
  | cons text rest ih =>
    obtain ⟨d, hpush, h⟩ := Option.bind_eq_some_iff.mp h
    obtain ⟨⟨⟩, more, s', hsends, -⟩ := cuts_drainEvents d.1 s
    rw [hsends sent] at h
    obtain ⟨e, hrest, rfl⟩ := Option.map_eq_some_iff.mp h
    obtain ⟨⟨more', hmore⟩, hstays⟩ := ih hrest
    exact ⟨⟨more ++ more', by rw [hmore, List.append_assoc]⟩, hstays⟩

/-- The loop for a receiver that leaves, beside the one for a receiver that stays. -/
theorem emitDeltas_cut {b : BoxedParser} {p : b.State} {o o' : Outbox Blocks Frame}
    {r r' : Outbox Blocks Frame × b.State × Nat} (hcut : Cut n o o')
    (h : emitDeltas b o p texts = some r) (h' : emitDeltas b o' p texts = some r') :
    Cut n r.1 r'.1 ∧ (r.1.sent.length ≤ n → r'.2 = r.2) := by
  induction texts generalizing p o o' r r' with
  | nil =>
    cases h
    cases h'
    exact ⟨hcut, fun _ => rfl⟩
  | cons text rest ih =>
    obtain ⟨s, sent, takes⟩ := o
    obtain rfl : takes = none := hcut.stays
    by_cases hlen : sent.length ≤ n
    · obtain rfl := hcut.same hlen
      obtain ⟨d, hpush, h⟩ := Option.bind_eq_some_iff.mp h
      obtain ⟨⟨⟩, more, s', hsends, hdrain⟩ := cuts_drainEvents d.1 s
      have hdrain := hdrain sent n hlen
      rw [hsends sent] at h
      obtain ⟨e, hrest, rfl⟩ := Option.map_eq_some_iff.mp h
      rw [emitDeltas, hpush, Option.bind_some] at h'
      split at hdrain
      · rename_i hroom
        rw [hdrain] at h'
        obtain ⟨e', hrest', rfl⟩ := Option.map_eq_some_iff.mp h'
        have hnext : Cut n (⟨s', sent ++ more, none⟩ : Outbox Blocks Frame) ⟨s', sent ++ more, some n⟩ :=
          ⟨rfl, rfl, (List.take_of_length_le hroom).symm, fun _ => rfl⟩
        obtain ⟨hcut', hsame⟩ := ih hnext hrest hrest'
        exact ⟨hcut', fun hall => by rw [hsame hall]⟩
      · rename_i hfull
        obtain ⟨s'', hdrain⟩ := hdrain
        rw [hdrain] at h'
        cases h'
        obtain ⟨⟨more', hmore⟩, hstays⟩ := emitDeltas_grows hrest
        have hmore' : e.1.sent = sent ++ more ++ more' := hmore
        refine ⟨⟨hstays, rfl, ?_, fun hall => absurd hall ?_⟩, fun hall => absurd hall ?_⟩
        · rw [hmore', List.take_append_of_le_length (Nat.le_of_not_le hfull)]
        · rw [hmore', List.length_append]
          omega
        · rw [hmore', List.length_append]
          omega
    · obtain ⟨hgrows, hstays⟩ := emitDeltas_grows h
      obtain ⟨s', sent', takes'⟩ := o'
      obtain rfl : takes' = some n := hcut.takes
      obtain ⟨hsent, htakes⟩ := emitDeltas_gone (hcut.full hlen) h'
      refine ⟨hcut.grows hlen hgrows hstays hsent htakes, fun hall => absurd hall ?_⟩
      obtain ⟨more, hmore⟩ := hgrows
      rw [hmore, List.length_append]
      omega

theorem streamTask_cut {b : BoxedParser} {o o' last last' : Outbox Blocks Frame} (hcut : Cut n o o')
    (h : streamTask b drain decoded toolForcePrefix texts o = some last)
    (h' : streamTask b drain decoded toolForcePrefix texts o' = some last') : Cut n last last' := by
  obtain ⟨forced, hforced, h⟩ := Option.bind_eq_some_iff.mp h
  obtain ⟨forced', hforced', h'⟩ := Option.bind_eq_some_iff.mp h'
  obtain ⟨loop, hloop, h⟩ := Option.bind_eq_some_iff.mp h
  obtain ⟨loop', hloop', h'⟩ := Option.bind_eq_some_iff.mp h'
  obtain ⟨tail, htail, rfl⟩ := Option.map_eq_some_iff.mp h
  obtain ⟨tail', htail', rfl⟩ := Option.map_eq_some_iff.mp h'
  have hfirst : Cut n forced.1 forced'.1 ∧ forced'.2 = forced.2 := by
    cases toolForcePrefix with
    | none =>
      cases hforced
      cases hforced'
      exact ⟨hcut, rfl⟩
    | some pfx =>
      obtain ⟨d, hpush, rfl⟩ := Option.map_eq_some_iff.mp hforced
      obtain ⟨d', hpush', rfl⟩ := Option.map_eq_some_iff.mp hforced'
      obtain rfl : d = d' := Option.some.inj (hpush.symm.trans hpush')
      exact ⟨(follows_attempt (cuts_drainEvents d.1)).cut hcut, rfl⟩
  rw [hfirst.2] at hloop'
  obtain ⟨hcut₁, hsame⟩ := emitDeltas_cut hfirst.1 hloop hloop'
  have hfollows : ∀ emits events, Follows fun o => ending drain (decoded emits) (attempt (drainEvents events) o) :=
    fun emits events => follows_comp (follows_attempt (cuts_drainEvents events)) (follows_ending drain (decoded emits))
  by_cases hlen : loop.1.sent.length ≤ n
  · have hsame := hsame hlen
    rw [hsame] at htail' ⊢
    obtain rfl : tail = tail' := Option.some.inj (htail.symm.trans htail')
    exact (hfollows _ _).cut hcut₁
  · exact (hfollows _ _).apart (hfollows _ _) hcut₁ hlen

/-- A request with a prompt of one token. -/
def oneToken : Request := ⟨[], [], some [1], none⟩

def stoppedAt (_ : Nat) : Decoded := .ok (.stop, 1)

theorem hi_frames : streamMessagesAnthropicSse (dispatcher Gemma4.emptySerde .hermes false) id stoppedAt oneToken
    [['h', 'i']] none = some [.messageStart [] [] 1, .contentBlockStart 0 .text,
      .contentBlockDelta 0 (.textDelta ['h', 'i']), .contentBlockStop 0, .messageDelta .endTurn 1, .messageStop] := by
  with_unfolding_all rfl

theorem hi_left : streamMessagesAnthropicSse (dispatcher Gemma4.emptySerde .hermes false) id stoppedAt oneToken
    [['h', 'i']] (some 2) = some [.messageStart [] [] 1, .contentBlockStart 0 .text] := by
  with_unfolding_all rfl

end Flambeau.Server.Messages
