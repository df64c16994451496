import Flambeau.Server.ToolCallParser.Gemma4Chunks
import Flambeau.Server.ToolCallParser.Pieces

namespace Flambeau.Server.ToolCallParser.Gemma4
open Flambeau.Stream Flambeau.Stream.Machine

/-! The guard as a first step. -/

theorem consumeEcho_drop (fin : Bool) (buf : Text) : ∃ n, (consumeEcho fin buf).1 = buf.drop n := by
  rw [consumeEcho]
  split
  · rename_i nl hnl
    split
    · have hle := find_le hnl
      have hlt : (buf.drop (nl + 1)).length < buf.length := by
        rw [List.length_singleton] at hle
        rw [List.length_drop]
        omega
      obtain ⟨n, hn⟩ := consumeEcho_drop fin (buf.drop (nl + 1))
      exact ⟨nl + 1 + n, by rw [hn, List.drop_drop]⟩
    · exact ⟨0, rfl⟩
  · split
    · exact ⟨0, rfl⟩
    split
    · exact ⟨buf.length, List.drop_length.symm⟩
    · exact ⟨0, rfl⟩
termination_by buf.length

/-- The end of the input decides. -/
theorem consumeEcho_decides (buf : Text) : (consumeEcho true buf).2 = false := by
  rw [consumeEcho]
  split
  · rename_i nl hnl
    split
    · have hle := find_le hnl
      have hlt : (buf.drop (nl + 1)).length < buf.length := by
        rw [List.length_singleton] at hle
        rw [List.length_drop]
        omega
      exact consumeEcho_decides (buf.drop (nl + 1))
    · rfl
  · simp only [Bool.not_true, Bool.false_and, Bool.false_eq_true, if_false, Bool.true_and]
    split <;> rfl
termination_by buf.length

/-- The guard is resolved before any other step. -/
def guardedStep (serde : GemmaSerde) (fin : Bool) (p : Gemma4ToolCallParser) : Option Step :=
  if p.pendingThoughtEcho then
    let q := tryConsumeEchoPrefix p fin
    some ([], q, !q.pendingThoughtEcho)
  else step serde fin p

theorem guardedStep_descends (serde : GemmaSerde) (h : guardedStep serde fin p = some (es, p', true)) :
    rank p' + (if p'.pendingThoughtEcho then 1 else 0) < rank p + if p.pendingThoughtEcho then 1 else 0 := by
  unfold guardedStep at h
  split at h
  · rename_i hpending
    obtain ⟨n, hn⟩ := consumeEcho_drop fin p.buf
    have hle : rank (tryConsumeEchoPrefix p fin) ≤ rank p := by
      have hbuf : (tryConsumeEchoPrefix p fin).buf = p.buf.drop n := by
        unfold tryConsumeEchoPrefix
        rw [if_pos hpending]
        exact hn
      have hstate : (tryConsumeEchoPrefix p fin).state = p.state := by
        unfold tryConsumeEchoPrefix
        rw [if_pos hpending]
      unfold rank
      rw [hbuf, hstate, List.length_drop]
      omega
    simp only [Option.some.injEq, Prod.mk.injEq, Bool.not_eq_true'] at h
    obtain ⟨-, rfl, hoff⟩ := h
    rw [hoff, if_pos hpending]
    simp only [Bool.false_eq_true, if_false]
    omega
  · rename_i hoff
    have hkeep := (step_frame serde h).1
    have hlt := step_descends serde h
    rw [hkeep, if_neg hoff]
    omega

theorem buf_feeds (p : Gemma4ToolCallParser) (x y : Text) :
    { p with buf := p.buf ++ x ++ y } = { p with buf := p.buf ++ (x ++ y) } := by
  rw [List.append_assoc]

/-- `Gemma4ToolCallParser` with its guard, as a push parser. -/
def guarded (serde : GemmaSerde) : Machine Char ParserEvent Gemma4ToolCallParser where
  feed p chunk := { p with buf := p.buf ++ chunk }
  step := guardedStep serde
  flush := flush
  rank p := rank p + if p.pendingThoughtEcho then 1 else 0
  descends := guardedStep_descends serde
  feed_feed := fun {p x y} => buf_feeds p x y

variable {serde : GemmaSerde}

theorem guardedStep_off (h : p.pendingThoughtEcho = false) (fin : Bool) :
    guardedStep serde fin p = step serde fin p := by
  unfold guardedStep
  rw [h]
  rfl

theorem guarded_drain (h : p.pendingThoughtEcho = false) (fin : Bool) :
    (guarded serde).drain fin p = (machine serde).drain fin p := by
  have hoff := @guardedStep_off serde _ h fin
  cases hs : step serde fin p with
  | none => rw [drain_fault (m := guarded serde) (hoff.trans hs), drain_fault (m := machine serde) hs]
  | some o =>
    obtain ⟨es, p', b⟩ := o
    have hp' : p'.pendingThoughtEcho = false := (step_frame serde hs).1.trans h
    cases b with
    | false => rw [drain_stop (m := guarded serde) (hoff.trans hs), drain_stop (m := machine serde) hs]
    | true =>
      have hlt := step_descends serde hs
      rw [drain_step (m := guarded serde) (hoff.trans hs), drain_step (m := machine serde) hs,
        guarded_drain hp' fin]
termination_by rank p

theorem guarded_push (p : Gemma4ToolCallParser) (chunk : Text) :
    push serde p chunk = (guarded serde).push p chunk := by
  unfold push Machine.push
  split
  · rfl
  · dsimp only
    generalize hfed : (machine serde).feed p chunk = r
    have hfed' : (guarded serde).feed p chunk = r := hfed
    rw [hfed']
    cases hpending : r.pendingThoughtEcho with
    | false =>
      rw [echo_off hpending, hpending, guarded_drain hpending]
      rfl
    | true =>
      have hstep : (guarded serde).step false r =
          some ([], tryConsumeEchoPrefix r false, !(tryConsumeEchoPrefix r false).pendingThoughtEcho) := by
        change guardedStep serde false r = _
        unfold guardedStep
        rw [hpending]
        rfl
      cases hstill : (tryConsumeEchoPrefix r false).pendingThoughtEcho with
      | true =>
        rw [hstill] at hstep
        rw [drain_stop hstep]
        rfl
      | false =>
        rw [hstill] at hstep
        rw [drain_step hstep, guarded_drain hstill]
        simp

theorem guarded_finish (p : Gemma4ToolCallParser) : finish serde p = (guarded serde).finish p := by
  unfold finish Machine.finish
  cases hpending : p.pendingThoughtEcho with
  | false =>
    rw [echo_off hpending, guarded_drain hpending]
    rfl
  | true =>
    have hoff : (tryConsumeEchoPrefix p true).pendingThoughtEcho = false := by
      unfold tryConsumeEchoPrefix
      rw [hpending]
      exact consumeEcho_decides p.buf
    have hstep : (guarded serde).step true p = some ([], tryConsumeEchoPrefix p true, true) := by
      change guardedStep serde true p = _
      unfold guardedStep
      rw [hpending]
      simp [hoff]
    rw [drain_step hstep, guarded_drain hoff, Option.map_map]
    rfl

/-- The parser's streams are the guarded machine's. -/
theorem guarded_stream (p : Gemma4ToolCallParser) (chunks : List Text) :
    stream serde p chunks = (guarded serde).stream p chunks := by
  induction chunks generalizing p with
  | nil =>
    unfold stream Machine.stream
    rw [guarded_finish]
  | cons c cs ih =>
    unfold stream Machine.stream
    rw [guarded_push]
    simp only [ih]

/-! Pieces. -/

/-- A block of code is a call's body if it can be read as a call. -/
def blockRole (serde : GemmaSerde) (block : Text) : Role :=
  if (parseToolCodeBlock serde block).isSome then .callBody else .text

/-- What the steps take off the buffer. -/
def pieces (serde : GemmaSerde) (p p' : Gemma4ToolCallParser) : List Piece :=
  if p.pendingThoughtEcho then [⟨.scaffolding, taken p.buf p'.buf⟩]
  else
    match p.state with
    | .text =>
      match earliest textOpenTags p.buf with
      | some (pos, tag) => [⟨.text, p.buf.take pos⟩, ⟨.marker, tag⟩]
      | none => [⟨.text, taken p.buf p'.buf⟩]
    | .inChannel =>
      match earliest channelClosers p.buf with
      | some (pos, tag) => [⟨.think, p.buf.take pos⟩, ⟨.marker, tag⟩]
      | none => [⟨.think, taken p.buf p'.buf⟩]
    | .inCallHeader => [⟨.callHeader, taken p.buf p'.buf⟩]
    | .inArgs => [⟨.callBody, taken p.buf p'.buf⟩]
    | .awaitingClose =>
      match earliest callClosers p.buf with
      | some (pos, tag) => [gap (p.buf.take pos), ⟨.marker, tag⟩]
      | none => []
    | .inToolCode =>
      match earliest codeClosers p.buf with
      | some (pos, tag) => [⟨blockRole serde (p.buf.take pos), p.buf.take pos⟩, ⟨.marker, tag⟩]
      | none => [⟨blockRole serde p.buf, taken p.buf p'.buf⟩]
    | .inTurnHeader | .inToolResponse => [⟨.scaffolding, taken p.buf p'.buf⟩]

/-- What is left behind a header is given out; what is left behind arguments is kept. -/
def flushed (p : Gemma4ToolCallParser) : List Piece :=
  if p.state = .inCallHeader then [⟨.text, p.buf⟩] else []

def account (serde : GemmaSerde) : Account Gemma4ToolCallParser Piece := ⟨pieces serde, flushed⟩

/-- Only white space stands between a call's arguments and its close. -/
def Tidy (p : Gemma4ToolCallParser) : Prop :=
  p.pendingThoughtEcho = false → p.state = .awaitingClose → ∀ pos tag,
    earliest callClosers p.buf = some (pos, tag) → (p.buf.take pos).all isWhitespace = true

/-- What a step takes is in its pieces, and what they owe is given out if the step is tidy. -/
def Accounted (serde : GemmaSerde) (p : Gemma4ToolCallParser) (es : List ParserEvent) (p' : Gemma4ToolCallParser) :
    Prop :=
  p.buf = (pieces serde p p').flatMap Piece.part ++ p'.buf ∧ (Given ⟨es, pieces serde p p'⟩ ↔ Tidy p)

/-- Away from the end of a call every step is tidy. -/
theorem tidy_of (hs : p.state ≠ .awaitingClose) : Tidy p := fun _ h => absurd h hs

theorem emitBuffered_takes {p : Gemma4ToolCallParser} (hempty : emit [] = [])
    (h : emitBuffered emit tags p fin = (es, p', b)) : ∃ a, p.buf = a ++ p'.buf ∧ es = emit a := by
  unfold emitBuffered at h
  generalize (if fin then p.buf.length else ambiguousTailStart p.buf tags) = n at h
  dsimp only at h
  split at h
  · cases h
    exact ⟨_, (List.take_append_drop ..).symm, rfl⟩
  · cases h
    exact ⟨[], rfl, hempty.symm⟩

/-- One piece that owes nothing, in any step. -/
theorem taken_accounted {role : Role} (hrole : ∀ s, (⟨role, s⟩ : Piece).owed = [])
    (hpieces : pieces serde p p' = [⟨role, taken p.buf p'.buf⟩]) (htidy : Tidy p) (hbuf : ∃ n, p'.buf = p.buf.drop n)
    (es : List ParserEvent) : Accounted serde p es p' := by
  obtain ⟨n, hn⟩ := hbuf
  unfold Accounted
  rw [hpieces, iff_true_right htidy]
  refine ⟨?_, ?_⟩
  · rw [hn]
    simp only [List.flatMap_cons, List.flatMap_nil, List.append_nil]
    exact (taken_drop p.buf n).symm
  · unfold Given
    simp only [List.flatMap_cons, List.flatMap_nil, List.append_nil, hrole]
    exact List.nil_sublist _

section Steps

variable {p : Gemma4ToolCallParser} (hoff : p.pendingThoughtEcho = false)
include hoff

theorem stepText_accounted (hs : p.state = .text) (h : stepText p fin = (es, p', b)) :
    Accounted serde p es p' := by
  unfold Accounted pieces
  rw [hoff, hs, iff_true_right (tidy_of (by rw [hs]; decide))]
  simp only [Bool.false_eq_true, if_false]
  unfold stepText at h
  cases he : earliest textOpenTags p.buf with
  | some r =>
    rw [he] at h
    cases h
    refine ⟨?_, ?_⟩
    · simp only [List.flatMap_cons, List.flatMap_nil, List.append_nil, List.append_assoc]
      exact (earliest_parts he).symm
    · simp [Given, Piece.owed]
  | none =>
    rw [he] at h
    obtain ⟨a, hbuf, rfl⟩ := emitBuffered_takes rfl h
    rw [hbuf, taken_append]
    exact ⟨by simp, by simp [Given, Piece.owed]⟩

theorem stepInChannel_accounted (hs : p.state = .inChannel) (h : stepInChannel p fin = (es, p', b)) :
    Accounted serde p es p' := by
  unfold Accounted pieces
  rw [hoff, hs, iff_true_right (tidy_of (by rw [hs]; decide))]
  simp only [Bool.false_eq_true, if_false]
  unfold stepInChannel at h
  cases he : earliest channelClosers p.buf with
  | some r =>
    rw [he] at h
    cases h
    refine ⟨?_, ?_⟩
    · simp only [List.flatMap_cons, List.flatMap_nil, List.append_nil, List.append_assoc]
      exact (earliest_parts he).symm
    · simp [Given, Piece.owed]
  | none =>
    rw [he] at h
    obtain ⟨a, hbuf, rfl⟩ := emitBuffered_takes rfl h
    rw [hbuf, taken_append]
    exact ⟨by simp, by simp [Given, Piece.owed]⟩

theorem stepAwaitingClose_accounted (hs : p.state = .awaitingClose) (h : stepAwaitingClose p = (es, p', b)) :
    Accounted serde p es p' := by
  unfold Accounted pieces Tidy
  rw [hoff, hs]
  simp only [Bool.false_eq_true, if_false, forall_const]
  unfold stepAwaitingClose at h
  cases he : earliest callClosers p.buf with
  | none =>
    rw [he] at h
    cases h
    exact ⟨rfl, iff_of_true (List.Sublist.refl _) nofun⟩
  | some r =>
    obtain ⟨pos, tag⟩ := r
    rw [he] at h
    cases h
    refine ⟨?_, ?_⟩
    · simp only [List.flatMap_cons, List.flatMap_nil, List.append_nil, List.append_assoc]
      exact (earliest_parts he).symm
    · rw [given_gap rfl rfl]
      simp

omit hoff in
/-- A block that is no call is given out behind its marker. -/
theorem toolCodeBlock_given (index : Nat) (block : Text) :
    (⟨blockRole serde block, block⟩ : Piece).owed.Sublist ((toolCodeBlock serde index block).1.flatMap shown) := by
  unfold blockRole toolCodeBlock
  cases parseToolCodeBlock serde block with
  | some call => exact List.nil_sublist _
  | none => simp [Piece.owed]

theorem stepInToolCode_accounted (hs : p.state = .inToolCode) (h : stepInToolCode serde p fin = (es, p', b)) :
    Accounted serde p es p' := by
  unfold Accounted pieces
  rw [hoff, hs, iff_true_right (tidy_of (by rw [hs]; decide))]
  simp only [Bool.false_eq_true, if_false]
  unfold stepInToolCode at h
  cases he : earliest codeClosers p.buf with
  | some r =>
    rw [he] at h
    cases h
    refine ⟨?_, ?_⟩
    · simp only [List.flatMap_cons, List.flatMap_nil, List.append_nil, List.append_assoc]
      exact (earliest_parts he).symm
    · unfold Given
      simp only [List.flatMap_cons, List.flatMap_nil, List.append_nil]
      rw [show (⟨.marker, r.2⟩ : Piece).owed = [] from rfl, List.append_nil]
      exact toolCodeBlock_given _ _
  | none =>
    rw [he] at h
    dsimp only at h
    split at h
    · cases h
      have htaken : taken p.buf [] = p.buf := by simp [taken]
      rw [htaken]
      refine ⟨by simp, ?_⟩
      unfold Given
      simp only [List.flatMap_cons, List.flatMap_nil, List.append_nil]
      exact toolCodeBlock_given _ _
    · cases h
      refine ⟨by simp [taken], ?_⟩
      unfold Given
      have hnone : (⟨blockRole serde p.buf, taken p.buf p.buf⟩ : Piece).owed = [] := by
        unfold taken Piece.owed
        rw [Nat.sub_self, List.take_zero]
        split <;> rfl
      simp only [List.flatMap_cons, List.flatMap_nil, List.append_nil, hnone]
      exact List.nil_sublist _

theorem step_accounted (h : step serde fin p = some (es, p', b)) : Accounted serde p es p' := by
  have hbuf := (step_frame serde h).2
  have hpieces : ∀ role, (pieces serde p p' = if p.pendingThoughtEcho then [⟨.scaffolding, taken p.buf p'.buf⟩]
      else [⟨role, taken p.buf p'.buf⟩]) → pieces serde p p' = [⟨role, taken p.buf p'.buf⟩] := by
    intro role hr
    rw [hr, hoff]
    rfl
  unfold step at h
  split at h
  · rename_i hs
    exact stepText_accounted hoff hs (Option.some.inj h)
  · rename_i hs
    exact stepInChannel_accounted hoff hs (Option.some.inj h)
  · rename_i hs
    refine taken_accounted (fun _ => rfl) (hpieces .callHeader ?_) (tidy_of (by rw [hs]; decide)) hbuf es
    unfold pieces
    rw [hs]
  · rename_i hs
    refine taken_accounted (fun _ => rfl) (hpieces .callBody ?_) (tidy_of (by rw [hs]; decide)) hbuf es
    unfold pieces
    rw [hs]
  · rename_i hs
    exact stepAwaitingClose_accounted hoff hs (Option.some.inj h)
  · rename_i hs
    exact stepInToolCode_accounted hoff hs (Option.some.inj h)
  · rename_i hs
    refine taken_accounted (fun _ => rfl) (hpieces .scaffolding ?_) (tidy_of (by rw [hs]; decide)) hbuf es
    unfold pieces
    rw [hs]
  · rename_i hs
    refine taken_accounted (fun _ => rfl) (hpieces .scaffolding ?_) (tidy_of (by rw [hs]; decide)) hbuf es
    unfold pieces
    rw [hs]

end Steps

theorem guardedStep_accounted (h : guardedStep serde fin p = some (es, p', b)) : Accounted serde p es p' := by
  cases hpending : p.pendingThoughtEcho with
  | false =>
    rw [guardedStep_off hpending] at h
    exact step_accounted hpending h
  | true =>
    unfold guardedStep at h
    rw [hpending] at h
    cases h
    have hpieces : pieces serde p (tryConsumeEchoPrefix p fin) =
        [⟨.scaffolding, taken p.buf (tryConsumeEchoPrefix p fin).buf⟩] := by
      unfold pieces
      rw [hpending]
      rfl
    refine taken_accounted (fun _ => rfl) hpieces ?_ ?_ []
    · intro hoff
      rw [hpending] at hoff
      cases hoff
    · unfold tryConsumeEchoPrefix
      rw [hpending]
      exact consumeEcho_drop fin p.buf

/-- Text again, with nothing held and the guard resolved. -/
def Clean (p : Gemma4ToolCallParser) : Prop := p.state = .text ∧ p.buf = [] ∧ p.pendingThoughtEcho = false

/-- What is held behind arguments or a call stays held. -/
def EndsClean (p : Gemma4ToolCallParser) : Prop :=
  p.pendingThoughtEcho = false ∧
    (p.state = .inCallHeader ∨ (p.state = .text ∨ p.state = .inArgs ∨ p.state = .awaitingClose) ∧ p.buf = [])

theorem flush_accounted (serde : GemmaSerde) (p : Gemma4ToolCallParser) :
    p.buf = ((account serde).flush p).flatMap Piece.part ++ (flush p).2.buf ∧
      (Given ⟨(flush p).1, (account serde).flush p⟩ ∧ Clean (flush p).2 ↔ EndsClean p) := by
  unfold flush account flushed Clean EndsClean
  cases hs : p.state <;> simp [Given, Piece.owed, shown, hs, and_comm]

theorem conserves (serde : GemmaSerde) :
    Conserves (guarded serde) (account serde) Gemma4ToolCallParser.buf Piece.part where
  feed := rfl
  step h := (guardedStep_accounted h).1
  flush p := (flush_accounted serde p).1

theorem finish_silent (serde : GemmaSerde) {q : Gemma4ToolCallParser} (h : Clean q) :
    (guarded serde).finish q = some ([], q) := by
  obtain ⟨state, buf, index, name, body, depth, inString, pending⟩ := q
  obtain ⟨hs, hbuf, hoff⟩ := h
  dsimp only at hs hbuf hoff
  subst hs hbuf hoff
  unfold Machine.finish
  rw [drain_stop rfl]
  rfl

theorem settled (h : ((guarded serde).logged (account serde)).run p chunks = some (log, q)) :
    Settled (guarded serde) Clean log q ↔ Throughout (guarded serde) Tidy EndsClean p chunks := by
  rw [settled_iff (fun q => finish_silent serde)]
  exact run_given (fun _ _ _ _ _ hs => (guardedStep_accounted hs).2) (fun p => (flush_accounted serde p).2) h

end Flambeau.Server.ToolCallParser.Gemma4
