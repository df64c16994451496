import Flambeau.Quant.LossyText
import Flambeau.Server.StreamedText

namespace Flambeau.Server.Generation
open Flambeau.Quant (fromUtf8Lossy fromUtf8Lossy_toList lossy lossy_grows lossy_joins)
open ToolCallParser (Text byteLen)
open Flambeau.Stream

/-- The tokenizer's `decode` is the lossy decoding of the tokens' bytes. -/
def DecodesLossily (bytesOf : Nat → List UInt8) (decode : List Nat → Option Text) : Prop :=
  ∀ tokens, decode tokens = some (fromUtf8Lossy (tokens.flatMap bytesOf)).toList

theorem DecodesLossily.eq (h : DecodesLossily bytesOf decode) (tokens : List Nat) :
    decode tokens = some (lossy (tokens.flatMap bytesOf)) := by
  rw [h, fromUtf8Lossy_toList]

theorem DecodesLossily.byPieces (h : DecodesLossily bytesOf decode) (tokens : List Nat) :
    DecodesByPieces decode tokens where
  nothing := h.eq []
  joins a b ta tb _ ha hta hb := by
    rw [h.eq] at ha hb ⊢
    cases ha
    cases hb
    rw [List.flatMap_append, lossy_joins hta]
  grows a b ta t _ ha ht := by
    rw [h.eq] at ha ht
    cases ha
    cases ht
    rw [List.flatMap_append]
    exact lossy_grows _ _

section Push

variable {e : Engine} {client : Text → Text → Bool} (hclient : ∀ a b, client a b = true)
  {bytesOf : Nat → List UInt8} (hdec : DecodesLossily bytesOf e.tokenizer.decode) {s : State}
include hclient hdec

/-- The slice of the open segment starts at a char boundary. -/
theorem push_total (hgen : s.generated = tokens ++ [token])
    (hem : Emitted e.tokenizer.decode tokens s.stream) :
    pushAndEmit e client token s ≠ .fail ∧ pushAndEmit e client token s ≠ .panic := by
  obtain ⟨rng, closer, generated, json, cursor, pending, emitted⟩ := s
  obtain ⟨a, b, ta, tb, rfl, hcursor, -, -, hb, hpending, hemitted⟩ := hem
  dsimp only at hgen hcursor hpending hemitted
  rw [List.append_assoc] at hgen
  subst hgen hcursor hpending hemitted
  unfold pushAndEmit
  cases hstop : isStop e token with
  | true =>
    have hlast : (a ++ (b ++ [token])).take ((a ++ (b ++ [token])).length - 1) = a ++ b := by
      rw [← List.append_assoc, List.length_append, List.length_singleton, Nat.add_sub_cancel,
        List.take_left]
    simp only [if_true, Bool.not_true]
    rw [hlast, List.drop_left, hb]
    dsimp only
    rw [if_neg (Nat.lt_irrefl (byteLen (trimReplacement tb)))]
    split <;> exact ⟨nofun, nofun⟩
  | false =>
    have hopen : ¬ (a ++ (b ++ [token])).length ≤ a.length := by
      simp only [List.length_append, List.length_cons, List.length_nil]
      omega
    have hraw := hdec.eq (b ++ [token])
    obtain ⟨delta, hsafe⟩ : trimReplacement tb <+:
        trimReplacement (lossy ((b ++ [token]).flatMap bytesOf)) :=
      rdropWhile_grows ((hdec.byPieces (b ++ [token])).grows b [token] tb _ (List.infix_refl _) hb hraw)
    simp only [Bool.false_eq_true, if_false, Bool.not_false, hclient, Bool.not_true, if_true]
    rw [if_neg hopen, List.take_length, List.drop_left, hraw]
    dsimp only
    rw [← hsafe]
    split
    · rw [splitByte_front]
      exact ⟨nofun, nofun⟩
    · exact ⟨nofun, nofun⟩

/-- The state after a call: it goes on behind a token that is no stop token, and ends
the reply at one. -/
theorem push_emitted (hgen : s.generated = tokens ++ [token])
    (hem : Emitted e.tokenizer.decode tokens s.stream) :
    ∃ s', s'.generated = s.generated ∧
      if isStop e token then pushAndEmit e client token s = .finish "stop" s' ∧
        s'.stream.emittedText = s.stream.emittedText
      else pushAndEmit e client token s = .go s' ∧ Emitted e.tokenizer.decode s.generated s'.stream := by
  obtain ⟨hfail, hpanic⟩ := push_total hclient hdec hgen hem
  rcases push_shape hclient token s with h | h | ⟨stream, hshape⟩
  · exact absurd h hfail
  · exact absurd h hpanic
  · refine ⟨{ s with stream := stream }, rfl, ?_⟩
    cases hstop : isStop e token with
    | true =>
      rw [hstop, if_pos rfl] at hshape
      rw [if_pos rfl]
      exact ⟨hshape, push_stop hclient hstop hgen hem hshape⟩
    | false =>
      rw [hstop, if_neg Bool.false_ne_true] at hshape
      rw [if_neg Bool.false_ne_true]
      exact ⟨hshape, push_go hclient hstop hgen hem (hdec.byPieces _) (List.infix_refl _) hshape⟩

end Push

/-- The calls of `push_and_emit` for a list of tokens, as long as they go on. -/
def pushAll (e : Engine) (client : Text → Text → Bool) (s : State) : List Nat → After
  | [] => .go s
  | token :: tokens =>
    match pushAndEmit e client token { s with generated := s.generated ++ [token] } with
    | .go s => pushAll e client s tokens
    | stopped => stopped

/-- What the calls made for a list of tokens have sent: the text of the tokens that
are no stop tokens, without its trailing replacement characters. -/
structure Sent (e : Engine) (bytesOf : Nat → List UInt8) (tokens : List Nat) (after : After)
    (s : State) : Prop where
  text : s.stream.emittedText =
    trimReplacement (fromUtf8Lossy ((keptTokens e s.generated).flatMap bytesOf)).toList
  ends : (after = .go s ∧ s.generated = tokens ∧ ∀ t ∈ tokens, isStop e t = false) ∨
    (after = .finish "stop" s ∧ ∃ front stop, s.generated = front ++ [stop] ∧
      s.generated <+: tokens ∧ isStop e stop = true ∧ ∀ t ∈ front, isStop e t = false)

theorem emitted_text {e : Engine} {bytesOf : Nat → List UInt8}
    (hdec : DecodesLossily bytesOf e.tokenizer.decode)
    (hem : Emitted e.tokenizer.decode tokens st) :
    st.emittedText = trimReplacement (fromUtf8Lossy (tokens.flatMap bytesOf)).toList := by
  obtain ⟨t, ht, htext⟩ := hem.text (hdec.byPieces tokens) (List.infix_refl _)
  rw [hdec tokens] at ht
  cases ht
  exact htext

theorem pushAll_sent {e : Engine} {client : Text → Text → Bool} {bytesOf : Nat → List UInt8}
    (hclient : ∀ a b, client a b = true) (hdec : DecodesLossily bytesOf e.tokenizer.decode)
    (tokens : List Nat) {s : State} (hem : Emitted e.tokenizer.decode s.generated s.stream)
    (hopen : ∀ t ∈ s.generated, isStop e t = false) :
    ∃ s', Sent e bytesOf (s.generated ++ tokens) (pushAll e client s tokens) s' := by
  induction tokens generalizing s with
  | nil =>
    refine ⟨s, ?_, .inl ⟨rfl, (List.append_nil _).symm, ?_⟩⟩
    · rw [kept_self hopen]
      exact emitted_text hdec hem
    · rw [List.append_nil]
      exact hopen
  | cons token tokens ih =>
    obtain ⟨s₁, hgen, hpush⟩ := @push_emitted _ _ hclient _ hdec
      ({ s with generated := s.generated ++ [token] }) _ token rfl hem
    cases hstop : isStop e token with
    | true =>
      rw [hstop, if_pos rfl] at hpush
      have hrun : pushAll e client s (token :: tokens) = .finish "stop" s₁ := by
        rw [pushAll, hpush.1]
      rw [hrun]
      refine ⟨s₁, ?_, .inr ⟨rfl, s.generated, token, hgen, ?_, hstop, hopen⟩⟩
      · rw [hpush.2, hgen, kept_stop hopen hstop]
        exact emitted_text hdec hem
      · rw [hgen]
        exact ⟨tokens, by simp⟩
    | false =>
      rw [hstop, if_neg Bool.false_ne_true] at hpush
      have hrun : pushAll e client s (token :: tokens) = pushAll e client s₁ tokens := by
        rw [pushAll, hpush.1]
      have hopen₁ : ∀ t ∈ s₁.generated, isStop e t = false := by
        rw [hgen]
        intro t ht
        rcases List.mem_append.mp ht with ht | ht
        · exact hopen t ht
        · rw [List.mem_singleton.mp ht, hstop]
      have hlist : s.generated ++ token :: tokens = s₁.generated ++ tokens := by
        rw [hgen, List.append_assoc, List.singleton_append]
      rw [hrun, hlist]
      exact ih (hgen ▸ hpush.2) hopen₁

/-- From the first call to any later one the client has been sent the text of the
tokens so far, and no call fails or cuts inside a character. -/
theorem streaming_lossless {e : Engine} {client : Text → Text → Bool} {bytesOf : Nat → List UInt8}
    (hdec : DecodesLossily bytesOf e.tokenizer.decode) (hclient : ∀ a b, client a b = true)
    (params : SamplingParams) (tokens : List Nat) :
    ∃ s, Sent e bytesOf tokens (pushAll e client (start e params) tokens) s :=
  pushAll_sent hclient hdec tokens (s := start e params) (emitted_start (hdec.eq [])) nofun

/-- A tokenizer with one byte a token. -/
def byteTokenizer : GgufTokenizer :=
  ⟨[], [], fun ids => some (fromUtf8Lossy (ids.flatMap fun id => [UInt8.ofNat id])).toList, fun _ => none⟩

/-- A stop-first engine over those bytes. -/
def byteEngine : Engine := { stopFirstEngine with tokenizer := byteTokenizer, gemmaFamily := false }

/-- A character over three tokens, with a stray byte behind it. -/
theorem split_character_streamed : ∃ s,
    pushAll byteEngine (fun _ _ => true) (start byteEngine greedyParams) [0xE2, 0x82, 0xAC, 0xFF] = .go s ∧
      s.stream.emittedText = ['€'] := by
  have hopen : ∀ t ∈ [0xE2, 0x82, 0xAC, 0xFF], isStop byteEngine t = false := by decide
  obtain ⟨s, htext, ⟨hgo, hgen, -⟩ | ⟨-, front, stop, hgen, hfront, hstop, -⟩⟩ :=
    @streaming_lossless byteEngine _ (fun id => [UInt8.ofNat id]) (fun _ => rfl)
      (fun _ _ => rfl) greedyParams [0xE2, 0x82, 0xAC, 0xFF]
  · refine ⟨s, hgo, ?_⟩
    rw [htext, hgen, kept_self hopen]
    decide +kernel
  · have hin : stop ∈ [0xE2, 0x82, 0xAC, 0xFF] := hfront.subset (by rw [hgen]; simp)
    rw [hopen stop hin] at hstop
    cases hstop

end Flambeau.Server.Generation
