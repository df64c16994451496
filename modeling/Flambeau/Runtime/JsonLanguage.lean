import Flambeau.Json.Relaxed
import Flambeau.Runtime.JsonReader

namespace Flambeau.Runtime.JsonReader
open Flambeau.Json

/-! Literals. -/

theorem lit_takes_cons (e b : UInt8) (expected w : Bytes) (next : Option UInt8) :
    toks.Takes (.lit e expected) (b :: w) next ↔
    (isWs b = true ∧ toks.Takes (.lit e expected) w next) ∨
    (isWs b = false ∧ e = b ∧
      match expected with
      | [] => w = []
      | e' :: expected => toks.Takes (.lit e' expected) w next) := by
  cases hb : isWs b with
  | true => simp [Tokens.Takes, toks, tokStep, hb]
  | false =>
    by_cases he : e = b
    · cases expected <;> simp [Tokens.Takes, toks, tokStep, hb, he]
    · simp [Tokens.Takes, toks, tokStep, hb, he]

theorem lit_takes (e : UInt8) (expected w : Bytes) (next : Option UInt8) :
    toks.Takes (.lit e expected) w next ↔ Spread (e :: expected) w := by
  induction w generalizing e expected with
  | nil =>
    constructor
    · intro h
      cases next with
      | none => cases h
      | some b =>
        simp only [Tokens.Takes, toks, tokStep] at h
        split at h
        · cases h
        split at h
        · cases h
        · cases expected <;> cases h
    · intro h
      cases h
  | cons b w ih =>
    rw [lit_takes_cons]
    constructor
    · rintro (⟨hb, ht⟩ | ⟨hb, rfl, ht⟩)
      · exact .ws hb ((ih e expected).mp ht)
      · cases expected with
        | nil =>
          subst ht
          exact .take hb .nil
        | cons e' expected => exact .take hb ((ih e' expected).mp ht)
    · intro h
      cases h with
      | ws hb ht => exact .inl ⟨hb, (ih e expected).mpr ht⟩
      | take hb ht =>
        refine .inr ⟨hb, rfl, ?_⟩
        cases expected with
        | nil =>
          cases ht
          rfl
        | cons e' expected => exact (ih e' expected).mpr ht

/-! Strings and keys. -/

theorem strByte_close : strByte escape u b = .close ↔ escape = false ∧ u = 0 ∧ b = 0x22 := by
  constructor
  · intro h
    have hf := feed_string escape u false [] b
    rw [h] at hf
    exact hf
  · rintro ⟨rfl, rfl, rfl⟩
    rfl

theorem strByte_stay {b : UInt8} (h : Body escape u (b :: w)) :
    ∃ escape' u', strByte escape u b = .stay escape' u' ∧ Body escape' u' w := by
  cases hb : isWs b with
  | true =>
    refine ⟨escape, u, by simp [strByte, hb], ?_⟩
    cases h with
    | ws _ ht => exact ht
    | hex hx _ => simp [hexDigit_not_ws hx] at hb
    | escaped he _ => simp [escape_not_ws he] at hb
    | unicode _ => cases hb
    | backslash _ => cases hb
    | plain _ _ _ ht => exact ht
  | false =>
    cases h with
    | ws hw _ => simp [hb] at hw
    | @hex _ _ u _ hx ht => exact ⟨escape, u, by simp [strByte, charByte, hb, hx], ht⟩
    | escaped he ht => exact ⟨false, 0, by simp [strByte, charByte, hb, he], ht⟩
    | unicode ht => exact ⟨false, 4, by simp [strByte, charByte, isWs, isEscape], ht⟩
    | backslash ht => exact ⟨true, 0, by simp [strByte, charByte, isWs], ht⟩
    | plain hge hq hs ht =>
      have hlt : ¬ b < 0x20 := UInt8.not_lt.mpr hge
      exact ⟨false, 0, by simp [strByte, charByte, hb, hq, hs, hlt], ht⟩

theorem stay_body {b : UInt8} (h : strByte escape u b = .stay escape' u') (ht : Body escape' u' w) :
    Body escape u (b :: w) := by
  unfold strByte charByte at h
  split at h
  · cases h
    exact .ws ‹_› ht
  split at h
  · rename_i hu
    split at h
    · cases h
      obtain ⟨v, rfl⟩ : ∃ v, u = v + 1 := ⟨u - 1, by omega⟩
      exact .hex ‹_› ht
    · cases h
  rename_i hu
  obtain rfl : u = 0 := by omega
  split at h
  · rename_i hesc
    subst hesc
    split at h
    · cases h
      exact .escaped ‹_› ht
    split at h
    · rename_i hu
      cases h
      subst hu
      exact .unicode ht
    · cases h
  rename_i hesc
  obtain rfl : escape = false := by simpa using hesc
  split at h
  · rename_i hs
    cases h
    subst hs
    exact .backslash ht
  split at h
  · cases h
  split at h
  · cases h
  · rename_i hs hq hlt
    cases h
    exact .plain (UInt8.not_lt.mp hlt) hq hs ht

theorem str_takes (escape : Bool) (u : Nat) (w : Bytes) (next : Option UInt8) :
    toks.Takes (.str escape u) w next ↔ ∃ body, w = body ++ [0x22] ∧ Body escape u body := by
  induction w generalizing escape u with
  | nil =>
    constructor
    · intro h
      cases next with
      | none => cases h
      | some b =>
        simp only [Tokens.Takes, toks, tokStep] at h
        split at h <;> cases h
    · rintro ⟨body, hbody, -⟩
      cases body <;> cases hbody
  | cons b w ih =>
    constructor
    · intro h
      simp only [Tokens.Takes, toks, tokStep] at h
      cases hs : strByte escape u b with
      | stay escape' u' =>
        rw [hs] at h
        obtain ⟨body, rfl, hbody⟩ := (ih escape' u').mp h
        exact ⟨b :: body, rfl, stay_body hs hbody⟩
      | close =>
        rw [hs] at h
        obtain rfl : w = [] := h
        obtain ⟨rfl, rfl, rfl⟩ := strByte_close.mp hs
        exact ⟨[], rfl, .nil⟩
      | fail =>
        rw [hs] at h
        exact h.elim
    · rintro ⟨body, hw, hbody⟩
      cases body with
      | nil =>
        cases hw
        cases hbody
        rfl
      | cons c body =>
        cases hw
        obtain ⟨escape', u', hs, hbody⟩ := strByte_stay hbody
        simp only [Tokens.Takes, toks, tokStep, hs]
        exact (ih escape' u').mpr ⟨body, rfl, hbody⟩

theorem key_takes (escape : Bool) (u : Nat) (body : Bytes) :
    reader.KeyTakes (escape, u) body () () ↔ Body escape u body := by
  induction body generalizing escape u with
  | nil =>
    constructor
    · intro h
      simp only [Reader.KeyTakes, reader] at h
      cases hs : strByte escape u 0x22 with
      | stay escape' u' => simp [hs] at h
      | close =>
        obtain ⟨rfl, rfl, -⟩ := strByte_close.mp hs
        exact .nil
      | fail => simp [hs] at h
    · intro h
      cases h
      rfl
  | cons b body ih =>
    constructor
    · rintro ⟨⟨escape', u'⟩, hs, hk⟩
      simp only [reader] at hs
      cases hb : strByte escape u b with
      | stay e v =>
        rw [hb] at hs
        cases hs
        exact stay_body hb ((ih _ _).mp hk)
      | close => simp [hb] at hs
      | fail => simp [hb] at hs
    · intro h
      obtain ⟨escape', u', hs, hbody⟩ := strByte_stay h
      exact ⟨(escape', u'), by simp only [reader, hs], (ih escape' u').mpr hbody⟩

theorem start_num (h : isDigit b = true ∨ b = 0x2D) :
    start b = some (.tok (.num (.opened b))) := by
  have hne : b ≠ 0x7B ∧ b ≠ 0x5B ∧ b ≠ 0x22 ∧ b ≠ 0x74 ∧ b ≠ 0x66 ∧ b ≠ 0x6E := by
    refine ⟨?_, ?_, ?_, ?_, ?_, ?_⟩ <;> rintro rfl <;> simp [isDigit] at h
  simp [start, hne, h.symm]

theorem start_cases (h : start b = some x) :
    (b = 0x7B ∧ x = .obj ()) ∨ (b = 0x5B ∧ x = .arr ()) ∨ (b = 0x22 ∧ x = .tok (.str false 0)) ∨
      (∃ e es, IsLiteral (b :: e :: es) ∧ x = .tok (.lit e es)) ∨
      ((isDigit b = true ∨ b = 0x2D) ∧ x = .tok (.num (.opened b))) := by
  unfold start at h
  split at h
  · exact .inl ⟨‹_›, by cases h; rfl⟩
  split at h
  · exact .inr (.inl ⟨‹_›, by cases h; rfl⟩)
  split at h
  · exact .inr (.inr (.inl ⟨‹_›, by cases h; rfl⟩))
  split at h
  · rename_i hb
    cases h
    exact .inr (.inr (.inr (.inl ⟨_, _, .inl (by rw [hb]; rfl), rfl⟩)))
  split at h
  · rename_i hb
    cases h
    exact .inr (.inr (.inr (.inl ⟨_, _, .inr (.inl (by rw [hb]; rfl)), rfl⟩)))
  split at h
  · rename_i hb
    cases h
    exact .inr (.inr (.inr (.inl ⟨_, _, .inr (.inr (by rw [hb]; rfl)), rfl⟩)))
  split at h
  · rename_i hb
    cases h
    exact .inr (.inr (.inr (.inr ⟨hb.symm, rfl⟩)))
  · cases h

theorem num_token (h : isDigit b = true ∨ b = 0x2D) (hf : Follows next) :
    toks.Takes (.num (.opened b)) w next ↔ LooseNumber (b :: w) next := by
  rw [Tokens.takes_map Tok.num (fun _ _ => rfl) (fun _ => rfl)]
  exact number_token h hf

theorem leaf_token (w : Bytes) (hf : Follows next) :
    reader.Token () w next ↔ ∃ d : Doc, d.bytes = w ∧ RelaxedLeaf d next := by
  constructor
  · rintro ⟨b, u, rfl, ht⟩
    cases hs : start b with
    | none => simp [reader, hs] at ht
    | some x =>
      rcases start_cases hs with ⟨-, rfl⟩ | ⟨-, rfl⟩ | ⟨rfl, rfl⟩ | ⟨e, es, hl, rfl⟩ | ⟨hd, rfl⟩
      · simp [reader, hs] at ht
      · simp [reader, hs] at ht
      · have ht' : toks.Takes (.str false 0) u next := by simpa [reader, hs] using ht
        obtain ⟨body, rfl, hbody⟩ := (str_takes false 0 u next).mp ht'
        exact ⟨.str body, rfl, hbody⟩
      · have ht' : toks.Takes (.lit e es) u next := by simpa [reader, hs] using ht
        exact ⟨.lit (b :: u), rfl, b, e :: es, u, hl, rfl, (lit_takes e es u next).mp ht'⟩
      · have ht' : toks.Takes (.num (.opened b)) u next := by simpa [reader, hs] using ht
        exact ⟨.num (b :: u), rfl, (num_token hd hf).mp ht'⟩
  · rintro ⟨d, rfl, hd⟩
    cases d with
    | lit t =>
      obtain ⟨e, es, t, hl, rfl, hs⟩ := hd
      refine ⟨e, t, rfl, ?_⟩
      rcases hl with hl | hl | hl <;> cases hl <;> exact (lit_takes _ _ t next).mpr hs
    | num t =>
      obtain ⟨b, t, rfl, hb⟩ := looseNumber_first hd
      refine ⟨b, t, rfl, ?_⟩
      have hs : reader.start () b = some (.tok (.num (.opened b))) := start_num hb
      rw [hs]
      exact (num_token hb hf).mpr hd
    | str body => exact ⟨0x22, body ++ [0x22], rfl, (str_takes false 0 _ next).mpr ⟨body, rfl, hd⟩⟩
    | arr items => exact hd.elim
    | obj members => exact hd.elim

theorem start_first (h : start b = some x) : isWs b = false ∧ b ≠ 0x5D := by
  rcases start_cases h with ⟨rfl, -⟩ | ⟨rfl, -⟩ | ⟨rfl, -⟩ | ⟨e, es, hl, -⟩ | ⟨hd, -⟩
  · exact ⟨rfl, by decide⟩
  · exact ⟨rfl, by decide⟩
  · exact ⟨rfl, by decide⟩
  · rcases hl with hl | hl | hl <;> cases hl <;> exact ⟨rfl, by decide⟩
  · rcases hd with hd | rfl
    · refine ⟨digit_not_ws hd, ?_⟩
      rintro rfl
      cases hd
    · exact ⟨rfl, by decide⟩

theorem reader_recognises : Recognises reader relaxed where
  first _ _ _ := start_first
  leaf _ w _ hf := leaf_token w hf
  arr v b v' := by
    constructor
    · intro h
      rcases start_cases h with ⟨-, h⟩ | ⟨hb, -⟩ | ⟨-, h⟩ | ⟨_, _, -, h⟩ | ⟨-, h⟩
      all_goals first
        | cases h
        | exact ⟨hb, trivial⟩
    · rintro ⟨rfl, -⟩
      rfl
  obj v b o := by
    constructor
    · intro h
      rcases start_cases h with ⟨hb, -⟩ | ⟨-, h⟩ | ⟨-, h⟩ | ⟨_, _, -, h⟩ | ⟨-, h⟩
      all_goals first
        | cases h
        | exact ⟨hb, trivial⟩
    · rintro ⟨rfl, -⟩
      rfl
  quote k b o v h := by
    simp only [reader] at h
    split at h
    · cases h
    · rename_i hs
      exact (strByte_close.mp hs).2.2
    · cases h
  entry _ body _ _ := key_takes false 0 body
  close _ := by simp [reader, relaxed]
  comma _ := by simp [reader, relaxed]
  trailing := rfl

/-- `JsonState` accepts exactly the texts of the relaxed grammar. -/
theorem accepts_iff_relaxed (w : Bytes) : JsonState.new.Accepts w ↔ Text relaxed () w := by
  rw [accepts_iff_acc .root w, Reader.acc_iff_text reader_recognises]

end Flambeau.Runtime.JsonReader
