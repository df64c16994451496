import Flambeau.Server.StopStrings
import Flambeau.Server.LoopsAgree

namespace Flambeau.Server.Generation
open Flambeau.Runtime
open ToolCallParser (Text byteLen byteLen_pos splitByte splitByte_append splitByte_all trimEnd)
open Flambeau.Stream

/-- The tokenizer decodes a sequence piece by piece: a piece whose text does not
end in a replacement character stands by itself, and a longer piece keeps what a
shorter one shows before its trailing replacement characters. -/
structure DecodesByPieces (decode : List Nat → Option Text) (tokens : List Nat) : Prop where
  nothing : decode [] = some []
  joins : ∀ a b ta tb, a ++ b <:+: tokens → decode a = some ta → trimReplacement ta = ta →
    decode b = some tb → decode (a ++ b) = some (ta ++ tb)
  grows : ∀ a b ta t, a ++ b <:+: tokens → decode a = some ta → decode (a ++ b) = some t →
    trimReplacement ta <+: t

/-- The streamed text of the tokens so far: the closed segments, and the open one
without its trailing replacement characters. -/
def Emitted (decode : List Nat → Option Text) (tokens : List Nat) (st : StreamState) : Prop :=
  ∃ a b ta tb, tokens = a ++ b ∧ st.decodeCursor = a.length ∧ decode a = some ta ∧
    trimReplacement ta = ta ∧ decode b = some tb ∧ st.pending = byteLen (trimReplacement tb) ∧
    st.emittedText = ta ++ trimReplacement tb

theorem emitted_start {decode : List Nat → Option Text} (h : decode [] = some []) :
    Emitted decode [] ⟨0, 0, []⟩ :=
  ⟨[], [], [], [], rfl, rfl, h, rfl, h, rfl, rfl⟩

/-- The streamed text is the text of the tokens without its trailing replacement
characters. -/
theorem Emitted.text {decode : List Nat → Option Text} (h : Emitted decode tokens st)
    (hdec : DecodesByPieces decode kept) (hin : tokens <:+: kept) :
    ∃ t, decode tokens = some t ∧ st.emittedText = trimReplacement t := by
  obtain ⟨a, b, ta, tb, rfl, -, ha, hta, hb, -, hemitted⟩ := h
  refine ⟨ta ++ tb, hdec.joins a b ta tb hin ha hta hb, ?_⟩
  rw [hemitted, trimReplacement_eq, trimReplacement_eq,
    rdropWhile_append ((trimReplacement_eq ta).symm.trans hta)]

theorem splitByte_front {u v : Text} : splitByte (byteLen u) (u ++ v) = some (u, v) := by
  induction u with
  | nil => cases v <;> simp [splitByte, byteLen]
  | cons c u ih =>
    have hpos := Char.utf8Size_pos c
    rw [List.cons_append, ToolCallParser.byteLen_cons]
    unfold splitByte
    rw [if_neg (by omega), if_pos (by omega), Nat.add_sub_cancel_left, ih]
    rfl

theorem byteLen_append (u v : Text) : byteLen (u ++ v) = byteLen u + byteLen v := by
  simp [byteLen]

/-- A front of the same number of bytes is the whole text. -/
theorem prefix_byteLen {u t : Text} (h : u <+: t) (hlen : byteLen t ≤ byteLen u) : u = t := by
  obtain ⟨v, rfl⟩ := h
  rw [byteLen_append] at hlen
  cases v with
  | nil => rw [List.append_nil]
  | cons c v =>
    have := byteLen_pos (List.cons_ne_nil c v)
    omega

/-- The open segment once its pieces are `raw`. -/
theorem Emitted.push {decode : List Nat → Option Text} {a b : List Nat} {ta tb raw delta : Text}
    {token : Nat} (hdec : DecodesByPieces decode kept) (hin : a ++ (b ++ [token]) <:+: kept)
    (ha : decode a = some ta) (hta : trimReplacement ta = ta) (hraw : decode (b ++ [token]) = some raw)
    (hsafe : trimReplacement raw = trimReplacement tb ++ delta) :
    Emitted decode (a ++ (b ++ [token]))
      (if byteLen (trimReplacement raw) = byteLen raw then
        ⟨(a ++ (b ++ [token])).length, 0, ta ++ trimReplacement tb ++ delta⟩
      else ⟨a.length, byteLen (trimReplacement raw), ta ++ trimReplacement tb ++ delta⟩) := by
  have htext : ta ++ trimReplacement tb ++ delta = ta ++ trimReplacement raw := by
    rw [hsafe, List.append_assoc]
  rw [htext]
  split
  · rename_i hclosed
    have hwhole : trimReplacement raw = raw :=
      prefix_byteLen (List.rdropWhile_prefix _ _) (Nat.le_of_eq hclosed.symm)
    refine ⟨a ++ (b ++ [token]), [], ta ++ raw, [], (List.append_nil _).symm, rfl,
      hdec.joins _ _ _ _ hin ha hta hraw, ?_, hdec.nothing, rfl, ?_⟩
    · rw [trimReplacement_eq, rdropWhile_append ((trimReplacement_eq ta).symm.trans hta),
        ← trimReplacement_eq, hwhole]
    · rw [hwhole]
      exact (List.append_nil _).symm
  · exact ⟨a, b ++ [token], ta, raw, rfl, rfl, ha, hta, hraw, rfl, rfl⟩

/-- With a client that reads on, only a stop token ends the loop in a push. -/
theorem push_shape {e : Engine} {client : Text → Text → Bool} (hclient : ∀ a b, client a b = true)
    (token : Nat) (s : State) :
    pushAndEmit e client token s = .fail ∨ pushAndEmit e client token s = .panic ∨
      ∃ stream, pushAndEmit e client token s =
        if isStop e token then .finish "stop" { s with stream := stream }
        else .go { s with stream := stream } := by
  cases hst : isStop e token
  all_goals
    unfold pushAndEmit
    simp only [hst, hclient, Bool.not_true, Bool.not_false, Bool.false_eq_true, if_true, if_false]
    split
    · exact .inr (.inr ⟨_, rfl⟩)
    · split
      · exact .inl rfl
      · split
        · split
          · exact .inr (.inl rfl)
          · exact .inr (.inr ⟨_, rfl⟩)
        · exact .inr (.inr ⟨_, rfl⟩)

theorem push_go {e : Engine} {client : Text → Text → Bool} (hclient : ∀ a b, client a b = true)
    {s s' : State} (hnot : isStop e token = false) (hgen : s.generated = tokens ++ [token])
    (hem : Emitted e.tokenizer.decode tokens s.stream)
    (hdec : DecodesByPieces e.tokenizer.decode kept) (hin : s.generated <:+: kept)
    (h : pushAndEmit e client token s = .go s') :
    Emitted e.tokenizer.decode s.generated s'.stream := by
  obtain ⟨rng, closer, generated, json, cursor, pending, emitted⟩ := s
  obtain ⟨a, b, ta, tb, rfl, hcursor, ha, hta, hb, hpending, hemitted⟩ := hem
  dsimp only at hgen hcursor hpending hemitted hin ⊢
  rw [List.append_assoc] at hgen
  subst hgen hcursor hpending hemitted
  unfold pushAndEmit at h
  simp only [hnot, hclient, Bool.false_eq_true, if_false, Bool.not_false, Bool.not_true, if_true] at h
  have hopen : ¬ (a ++ (b ++ [token])).length ≤ a.length := by
    simp only [List.length_append, List.length_cons, List.length_nil]
    omega
  rw [if_neg hopen, List.take_length, List.drop_left] at h
  cases hraw : e.tokenizer.decode (b ++ [token]) with
  | none =>
    rw [hraw] at h
    cases h
  | some raw =>
    rw [hraw] at h
    obtain ⟨delta, hsafe⟩ : trimReplacement tb <+: trimReplacement raw :=
      rdropWhile_grows (hdec.grows b [token] tb raw
        ((List.suffix_append a (b ++ [token])).isInfix.trans hin) hb hraw)
    have hpush := Emitted.push hdec hin ha hta hraw hsafe.symm
    dsimp only at h
    split at h
    · rw [← hsafe, splitByte_front] at h
      cases h
      rw [← hsafe] at hpush
      exact hpush
    · rename_i hsame
      have hnil : trimReplacement tb = trimReplacement raw :=
        prefix_byteLen ⟨delta, hsafe⟩ (Nat.le_of_not_lt hsame)
      have hdelta : delta = [] := by
        rw [hnil, List.append_right_eq_self] at hsafe
        exact hsafe
      cases h
      rw [hdelta, List.append_nil] at hpush
      rw [hnil] at hpush ⊢
      exact hpush

/-- The push of a stop token streams nothing new. -/
theorem push_stop {e : Engine} {client : Text → Text → Bool} (hclient : ∀ a b, client a b = true)
    {s s' : State} (hstop : isStop e token = true) (hgen : s.generated = tokens ++ [token])
    (hem : Emitted e.tokenizer.decode tokens s.stream)
    (h : pushAndEmit e client token s = .finish reason s') :
    s'.stream.emittedText = s.stream.emittedText := by
  obtain ⟨rng, closer, generated, json, cursor, pending, emitted⟩ := s
  obtain ⟨a, b, ta, tb, rfl, hcursor, ha, hta, hb, hpending, hemitted⟩ := hem
  dsimp only at hgen hcursor hpending hemitted ⊢
  subst hgen hcursor hpending hemitted
  have hlast : (a ++ b ++ [token]).take ((a ++ b ++ [token]).length - 1) = a ++ b := by
    rw [List.length_append, List.length_singleton, Nat.add_sub_cancel, List.take_left]
  unfold pushAndEmit at h
  simp only [hstop, hclient, Bool.false_eq_true, if_false, Bool.not_true, if_true] at h
  rw [hlast, List.drop_left, hb] at h
  dsimp only at h
  rw [if_neg (Nat.lt_irrefl (byteLen (trimReplacement tb)))] at h
  split at h
  · cases h
    rfl
  · cases h
    dsimp only
    split <;> rfl

theorem kept_self {e : Engine} {tokens : List Nat} (h : ∀ t ∈ tokens, isStop e t = false) :
    keptTokens e tokens = tokens :=
  List.filter_eq_self.mpr fun t ht => by rw [h t ht]; rfl

theorem kept_stop {e : Engine} {tokens : List Nat} (h : ∀ t ∈ tokens, isStop e t = false)
    (hstop : isStop e token = true) : keptTokens e (tokens ++ [token]) = tokens := by
  have hself := kept_self h
  unfold keptTokens at hself ⊢
  rw [List.filter_append, hself]
  simp [hstop]

/-- The reply that `s` has begun ends in `s'`: it keeps the tokens, and what it has
streamed by then is the text of all of them without its trailing replacement
characters. -/
def Streams (e : Engine) (s s' : State) : Prop :=
  s.generated <+: keptTokens e s'.generated ∧
    (DecodesByPieces e.tokenizer.decode (keptTokens e s'.generated) →
      Emitted e.tokenizer.decode s.generated s.stream →
      ∃ text, e.tokenizer.decode (keptTokens e s'.generated) = some text ∧
        s'.stream.emittedText = trimReplacement text)

/-- A reply that ends where it is. -/
theorem streams_end {e : Engine} {s : State} (h : ∀ t ∈ s.generated, isStop e t = false) :
    Streams e s s := by
  have hself := kept_self h
  unfold Streams
  rw [hself]
  refine ⟨List.prefix_refl _, ?_⟩
  intro hdec hem
  exact hem.text hdec (List.infix_refl _)

section Turn

variable {e : Engine} {client : Text → Text → Bool} (hclient : ∀ a b, client a b = true)
  {s t : State} (hopen : ∀ id ∈ s.generated, isStop e id = false)
  (hgen : t.generated = s.generated ++ [token]) (hstream : t.stream = s.stream)
include hclient hopen hgen

theorem push_open {s' : State} (h : pushAndEmit e client token t = .go s') :
    s'.generated = t.generated ∧ (∀ id ∈ s'.generated, isStop e id = false) ∧
      isStop e token = false := by
  rcases push_shape hclient token t with hfail | hpanic | ⟨stream, hshape⟩
  · rw [hfail] at h
    cases h
  · rw [hpanic] at h
    cases h
  · rw [hshape] at h
    cases hstop : isStop e token with
    | true =>
      rw [hstop] at h
      cases h
    | false =>
      rw [hstop] at h
      cases h
      refine ⟨rfl, ?_, rfl⟩
      intro id hid
      dsimp only at hid
      rw [hgen] at hid
      rcases List.mem_append.mp hid with hid | hid
      · exact hopen id hid
      · rw [List.mem_singleton.mp hid, hstop]

include hstream

/-- A turn, and the reply from there. -/
theorem turn_streams {s₁ s' : State} (h : pushAndEmit e client token t = .go s₁)
    (hrest : Streams e s₁ s') : Streams e s s' := by
  obtain ⟨hsame, -, hnot⟩ := push_open hclient hopen hgen h
  obtain ⟨hfront, htext⟩ := hrest
  rw [hsame] at hfront
  refine ⟨?_, ?_⟩
  · rw [hgen] at hfront
    exact (List.prefix_append _ _).trans hfront
  · intro hdec hem
    refine htext hdec ?_
    rw [hsame]
    exact push_go hclient hnot hgen (hstream ▸ hem) hdec hfront.isInfix h

/-- A stop token's turn ends the reply. -/
theorem stop_streams {s' : State} (h : pushAndEmit e client token t = .finish reason s') :
    Streams e s s' := by
  rcases push_shape hclient token t with hfail | hpanic | ⟨stream, hshape⟩
  · rw [hfail] at h
    cases h
  · rw [hpanic] at h
    cases h
  · cases hstop : isStop e token with
    | false =>
      rw [hshape, hstop] at h
      cases h
    | true =>
      have hsame : s'.generated = t.generated := by
        rw [hshape, hstop] at h
        cases h
        rfl
      have hkept : keptTokens e s'.generated = s.generated := by
        rw [hsame, hgen, kept_stop hopen hstop]
      refine ⟨hkept ▸ List.prefix_refl _, ?_⟩
      intro hdec hem
      rw [hkept] at hdec ⊢
      rw [push_stop hclient hstop hgen (hstream ▸ hem) h, hstream]
      exact hem.text hdec (List.infix_refl _)

end Turn

theorem turn_stream (loop : Loop) (e : Engine) (params : SamplingParams) (relax : Bool) (step : Nat)
    (s : State) (logits : List F32) :
    (loop.turn e params relax step s logits).2.stream = s.stream := by
  cases hf : forcedAt params step s with
  | some token => rw [turn_forced loop e relax logits hf]; rfl
  | none => rw [turn_sampled loop e relax logits hf]; rfl

/-- The streaming loop's check ends the reply after the push, or lets it go on. -/
theorem streaming_step {e : Engine} {params : SamplingParams} {client : Text → Text → Bool}
    {relax : Bool} {s : State} :
    (∀ s', Loop.streaming.afterStep e params client relax step token s = .go s' →
      pushAndEmit e client token s = .go s') ∧
    (∀ reason s', Loop.streaming.afterStep e params client relax step token s = .finish reason s' →
      pushAndEmit e client token s = .finish reason s' ∨ pushAndEmit e client token s = .go s') := by
  rw [Loop.afterStep]
  constructor
  · intro s' h
    split at h
    · rename_i s'' hpush
      split at h
      · cases h
      · rw [hpush, h]
    · exact h
  · intro reason s' h
    split at h
    · rename_i s'' hpush
      split at h
      · cases h
        exact .inr hpush
      · cases h
    · exact .inl h

theorem steps_streams {r : Request} (hclient : ∀ a b, r.client a b = true) {s' : State} (n : Nat)
    {step : Nat} (hstep : step ≠ 0) {s : State}
    (hopen : ∀ id ∈ s.generated, isStop r.engine id = false)
    (h : (r.steps .streaming s step n).2 = .finish reason s') : Streams r.engine s s' := by
  induction n generalizing step s with
  | zero =>
    cases h
    exact streams_end hopen
  | succ n ih =>
    rw [Request.steps] at h
    cases hforward : r.engine.forward (r.promptIds ++ s.generated) with
    | none =>
      rw [hforward] at h
      cases h
    | some logits =>
      rw [hforward] at h
      have hturn : Loop.streaming.stepTurn r.engine r.params r.relaxStopMask step s logits =
          Loop.streaming.turn r.engine r.params r.relaxStopMask step s logits := by
        rw [Loop.turn, if_neg hstep]
      dsimp only at h
      rw [hturn] at h
      have hgen := (turn_after .streaming r.engine r.params r.relaxStopMask step s logits).1
      have hstream := turn_stream .streaming r.engine r.params r.relaxStopMask step s logits
      split at h
      · rename_i s₁ hgo
        have hpush := streaming_step.1 s₁ hgo
        have hopen₁ := (push_open hclient hopen hgen hpush).2.1
        exact turn_streams hclient hopen hgen hstream hpush (ih (Nat.succ_ne_zero step) hopen₁ h)
      · dsimp only at h
        rcases streaming_step.2 reason s' h with hpush | hpush
        · exact stop_streams hclient hopen hgen hstream hpush
        · have hopen' := (push_open hclient hopen hgen hpush).2.1
          exact turn_streams hclient hopen hgen hstream hpush (streams_end hopen')

theorem run_streams {r : Request} (hclient : ∀ a b, r.client a b = true) {s' : State}
    (h : (r.run .streaming).2 = .finish reason s') :
    Streams r.engine (start r.engine r.params) s' := by
  have hopen : ∀ id ∈ (start r.engine r.params).generated, isStop r.engine id = false := by
    intro id hid
    cases hid
  unfold Request.run at h
  split at h
  · cases h
  cases hforward : r.engine.forward r.promptIds with
  | none =>
    rw [hforward] at h
    cases h
  | some logits =>
    rw [hforward] at h
    have hturn : Loop.streaming.firstTurn r.engine r.params r.relaxStopMask
        (start r.engine r.params) logits =
        Loop.streaming.turn r.engine r.params r.relaxStopMask 0 (start r.engine r.params) logits := rfl
    dsimp only at h
    rw [hturn] at h
    have hgen := (turn_after .streaming r.engine r.params r.relaxStopMask 0
      (start r.engine r.params) logits).1
    have hstream := turn_stream .streaming r.engine r.params r.relaxStopMask 0
      (start r.engine r.params) logits
    split at h
    · rename_i s₁ hgo
      have hopen₁ := (push_open hclient hopen hgen hgo).2.1
      exact turn_streams hclient hopen hgen hstream hgo
        (steps_streams hclient _ (by decide) hopen₁ h)
    · dsimp only at h
      exact stop_streams hclient hopen hgen hstream h

/-- The reply has no reasoning to lift out: a `<think>` family with thinking off, or
a channel family whose text never closes a channel. -/
def NoSplit (e : Engine) (enableThinking : Bool) (text : Text) : Prop :=
  match (reasoningMarkersFor e.gemmaFamily).style with
  | .thinkTag => enableThinking = false
  | .channel => contains text (reasoningMarkersFor e.gemmaFamily).closing = false

theorem noSplit_truncates {e : Engine} {enableThinking : Bool} {text : Text}
    (h : NoSplit e enableThinking text) :
    splitReasoning e enableThinking text = (truncateLeakedReasoning e text, none) := by
  unfold NoSplit at h
  unfold splitReasoning
  split at h
  · rename_i hstyle
    simp [hstyle, h]
  · rename_i hstyle
    have hfind : find (reasoningMarkersFor e.gemmaFamily).closing text = none := by
      simpa [contains] using h
    simp [hstyle, splitChannelReasoning, hfind]

/-- The streamed text has no stop string, and it is the text that `finalise` makes
of the same tokens, up to trailing blanks. -/
def StopsHonoured (r : Request) (s : State) : Prop :=
  (∀ stop ∈ r.params.stopStrings, contains s.stream.emittedText stop = false) ∧
    ∃ out, finalise r.engine r.params s.generated = some out ∧
      trimEnd s.stream.emittedText = trimEnd out.text

/-- A tokenizer with one letter a token. -/
def letterTokenizer : GgufTokenizer := ⟨[], [], fun ids => some (ids.map fun _ => 'a'), fun _ => none⟩

theorem letters_by_pieces (tokens : List Nat) : DecodesByPieces letterTokenizer.decode tokens where
  nothing := rfl
  joins a b ta tb _ ha _ hb := by
    cases ha
    cases hb
    exact congrArg some (List.map_append)
  grows a b ta t _ ha ht := by
    cases ha
    cases ht
    rw [List.map_append]
    exact (List.rdropWhile_prefix _ _).trans (List.prefix_append _ _)

/-- A reply of two letters. -/
def letterRequest (stop : Text) : Request where
  engine := { stopFirstEngine with tokenizer := letterTokenizer, gemmaFamily := false }
  params := { greedyParams with maxTokens := 2, stopStrings := [stop] }
  relaxStopMask := true
  promptIds := [1]
  client _ _ := true

end Flambeau.Server.Generation
