import Flambeau.Json.Automaton
import Flambeau.Json.Relaxed
import Flambeau.Runtime.NumberFlags

namespace Flambeau.Runtime
open Flambeau.Json

/-- Run the flags over a token; `none` as soon as a byte closes the number. -/
def NumFlags.scan (integer : Bool) (f : NumFlags) : Bytes → Option NumFlags
  | [] => some f
  | b :: t => (f.accept integer b).bind (fun f' => f'.scan integer t)

@[simp] theorem scan_nil (integer : Bool) (f : NumFlags) : f.scan integer [] = some f := rfl

theorem scan_append (integer : Bool) (f : NumFlags) (t u : Bytes) :
    f.scan integer (t ++ u) = (f.scan integer t).bind (fun f' => f'.scan integer u) := by
  induction t generalizing f with
  | nil => rfl
  | cons b t ih =>
    simp only [List.cons_append, NumFlags.scan]
    cases ha : f.accept integer b with
    | none => rfl
    | some f' => exact ih f'

/-- The flags of a number given by its parts. -/
def flagsOf (n : Json.Num) : NumFlags where
  seenDigit := !n.int.isEmpty
  seenDot := n.frac.isSome
  seenExp := n.exp.isSome
  seenExpSign := n.exp.any (fun e => e.sign.isSome)
  seenExpDigit := n.exp.any (fun e => !e.digits.isEmpty)

theorem partial_loose {n : Json.Num} (h : n.Partial) (hd : (flagsOf n).seenDigit = true) :
    n.Loose := by
  refine ⟨⟨h.int, ?_⟩, fun ds hf => (h.frac ds hf).1, fun e he => (h.exp e he).1⟩
  intro he
  simp [flagsOf, he] at hd

theorem flagsOf_openExp (n : Json.Num) :
    ((flagsOf n).seenExp && !(flagsOf n).seenExpDigit) = true ↔ n.openExp := by
  cases he : n.exp with
  | none => simp [flagsOf, Num.openExp, he]
  | some e => simp [flagsOf, Num.openExp, he]

theorem closable_iff {n : Json.Num} (h : n.Loose) : (flagsOf n).closable = true ↔ ¬ n.openExp := by
  have hd : (flagsOf n).seenDigit = true := by simp [flagsOf, h.int.2]
  rw [← flagsOf_openExp]
  simp only [NumFlags.closable, hd, Bool.not_true, Bool.false_or, Bool.not_eq_true']
  exact Bool.not_eq_true _ |>.symm.to_iff

theorem accept_digit {n : Json.Num} (integer : Bool) (hn : n.Partial) (hd : isDigit b = true) :
    ∃ n', n'.Partial ∧ n'.bytes = n.bytes ++ [b] ∧
      (flagsOf n).accept integer b = some (flagsOf n') ∧ (n.Whole → n'.Whole) := by
  obtain ⟨minus, int, frac, exp⟩ := n
  obtain ⟨hi, hf, he⟩ := hn
  dsimp only at hi hf he
  cases exp with
  | some e =>
    obtain ⟨hed, hne⟩ := he e rfl
    refine ⟨⟨minus, int, frac, some { e with digits := e.digits ++ [b] }⟩, ⟨hi, hf, ?_⟩, ?_, ?_, ?_⟩
    · rintro e' ⟨rfl⟩
      exact ⟨by simp [hed, hd], hne⟩
    · simp [Num.bytes, Expo.bytes, signBytes]
    · simp [NumFlags.accept, hd, flagsOf, hne]
    · simp [Num.Whole]
  | none =>
    cases frac with
    | some ds =>
      obtain ⟨hds, hne⟩ := hf ds rfl
      refine ⟨⟨minus, int, some (ds ++ [b]), none⟩, ⟨hi, ?_, by simp⟩, ?_, ?_, ?_⟩
      · rintro ds' ⟨rfl⟩
        exact ⟨by simp [hds, hd], hne⟩
      · simp [Num.bytes]
      · simp [NumFlags.accept, hd, flagsOf, hne]
      · simp [Num.Whole]
    | none =>
      refine ⟨⟨minus, int ++ [b], none, none⟩, ⟨by simp [hi, hd], by simp, by simp⟩, ?_, ?_, ?_⟩
      · simp [Num.bytes]
      · simp [NumFlags.accept, hd, flagsOf]
      · simp [Num.Whole]

/-- One accepted byte lengthens the number by that byte. -/
theorem partial_accept {n : Json.Num} (hn : n.Partial)
    (ha : (flagsOf n).accept integer b = some f) :
    ∃ n', n'.Partial ∧ n'.bytes = n.bytes ++ [b] ∧ flagsOf n' = f ∧
      (integer = true → n.Whole → n'.Whole) := by
  by_cases hd : isDigit b = true
  · obtain ⟨n', hp, hb, hacc, hw⟩ := accept_digit integer hn hd
    rw [hacc] at ha
    exact ⟨n', hp, hb, Option.some.inj ha, fun _ => hw⟩
  obtain ⟨minus, int, frac, exp⟩ := n
  obtain ⟨hi, hf, he⟩ := hn
  dsimp only at hi hf he
  simp only [NumFlags.accept, hd, if_false, Bool.false_eq_true] at ha
  split at ha
  · cases ha
  rename_i hint
  split at ha
  · rename_i hdot
    simp only [flagsOf, Bool.and_eq_true, beq_iff_eq, Bool.not_eq_true', List.isEmpty_eq_false_iff,
      Option.isSome_eq_false_iff, Option.isNone_iff_eq_none] at hdot
    obtain ⟨⟨⟨rfl, rfl⟩, rfl⟩, hne⟩ := hdot
    refine ⟨⟨minus, int, some [], none⟩, ⟨hi, ?_, by simp⟩, ?_, ?_, fun h => absurd h hint⟩
    · rintro ds ⟨rfl⟩
      exact ⟨by simp, hne⟩
    · simp [Num.bytes]
    · simpa [flagsOf] using ha
  split at ha
  · rename_i _ hexp
    simp only [flagsOf, Bool.and_eq_true, Bool.or_eq_true, beq_iff_eq, Bool.not_eq_true',
      List.isEmpty_eq_false_iff, Option.isSome_eq_false_iff, Option.isNone_iff_eq_none] at hexp
    obtain ⟨⟨hb, rfl⟩, hne⟩ := hexp
    refine ⟨⟨minus, int, frac, some ⟨b == 0x45, none, []⟩⟩, ⟨hi, hf, ?_⟩, ?_, ?_,
      fun h => absurd h hint⟩
    · rintro e ⟨rfl⟩
      exact ⟨by simp, hne⟩
    · rcases hb with rfl | rfl <;> simp [Num.bytes, Expo.bytes, signBytes]
    · simpa [flagsOf] using ha
  split at ha
  · rename_i _ _ hsign
    cases exp with
    | none => simp [flagsOf] at hsign
    | some e =>
      obtain ⟨hed, hne⟩ := he e rfl
      obtain ⟨upper, sign, digits⟩ := e
      simp only [flagsOf, Bool.and_eq_true, Bool.or_eq_true, beq_iff_eq, Bool.not_eq_true',
        Option.any_some, Bool.not_eq_false', List.isEmpty_iff, Option.isSome_some, and_true,
        Option.isSome_eq_false_iff, Option.isNone_iff_eq_none] at hsign
      obtain ⟨⟨hb, rfl⟩, rfl⟩ := hsign
      refine ⟨⟨minus, int, frac, some ⟨upper, some (b == 0x2D), []⟩⟩, ⟨hi, hf, ?_⟩, ?_, ?_,
        fun h => absurd h hint⟩
      · rintro e' ⟨rfl⟩
        exact ⟨by simp, hne⟩
      · rcases hb with rfl | rfl <;> simp [Num.bytes, Expo.bytes, signBytes]
      · simpa [flagsOf] using ha
  · cases ha

/-- The bytes of an open number frame, from the byte that opened it. -/
theorem scan_partial (h : isDigit b = true ∨ b = 0x2D)
    (hs : (NumFlags.opened b).scan integer t = some f) :
    ∃ n : Json.Num, n.Partial ∧ n.bytes = b :: t ∧ flagsOf n = f ∧ (integer = true → n.Whole) := by
  have first : ∃ n : Json.Num, n.Partial ∧ n.bytes = [b] ∧ flagsOf n = .opened b ∧ n.Whole := by
    by_cases hd : isDigit b = true
    · exact ⟨⟨false, [b], none, none⟩, ⟨by simp [hd], by simp, by simp⟩, by simp [Num.bytes],
        by simp [flagsOf, NumFlags.opened, hd], rfl, rfl⟩
    · obtain rfl := h.resolve_left hd
      exact ⟨⟨true, [], none, none⟩, ⟨by simp, by simp, by simp⟩, by simp [Num.bytes],
        by simp [flagsOf, NumFlags.opened, hd], rfl, rfl⟩
  obtain ⟨n, hp, hb, hf, hw⟩ := first
  rw [← hf] at hs
  suffices ∀ (u : Bytes) (n : Json.Num), n.Partial → (flagsOf n).scan integer u = some f →
      (integer = true → n.Whole) →
      ∃ n' : Json.Num, n'.Partial ∧ n'.bytes = n.bytes ++ u ∧ flagsOf n' = f ∧
        (integer = true → n'.Whole) by
    obtain ⟨n', hp', hb', hf', hw'⟩ := this t n hp hs (fun _ => hw)
    exact ⟨n', hp', by rw [hb', hb]; rfl, hf', hw'⟩
  intro u
  induction u with
  | nil =>
    intro n hp hs hw
    exact ⟨n, hp, by simp, Option.some.inj hs, hw⟩
  | cons c u ih =>
    intro n hp hs hw
    simp only [NumFlags.scan, Option.bind_eq_some_iff] at hs
    obtain ⟨g, hacc, hs⟩ := hs
    obtain ⟨n₁, hp₁, hb₁, hf₁, hw₁⟩ := partial_accept hp hacc
    rw [← hf₁] at hs
    obtain ⟨n', hp', hb', hf', hw'⟩ := ih n₁ hp₁ hs (fun hi => hw₁ hi (hw hi))
    exact ⟨n', hp', by rw [hb', hb₁]; simp, hf', hw'⟩

theorem scan_digits (f : NumFlags) (hd : Digits ds) :
    f.scan integer ds = some { f with
      seenDigit := f.seenDigit || !ds.isEmpty
      seenExpDigit := f.seenExpDigit || (f.seenExp && !ds.isEmpty) } := by
  induction ds generalizing f with
  | nil => simp
  | cons d ds ih =>
    obtain ⟨h, hds⟩ := digits_cons.mp hd
    simp only [NumFlags.scan, NumFlags.accept, h, if_true, Option.bind_some]
    rw [ih _ hds]
    cases f.seenExp <;> simp

theorem scan_frac (hf : ∀ ds, frac = some ds → Digits ds) :
    (NumFlags.mk true false false false false).scan false (fracBytes frac) =
      some ⟨true, frac.isSome, false, false, false⟩ := by
  cases frac with
  | none => rfl
  | some ds =>
    have hdot : (NumFlags.mk true false false false false).accept false 0x2E =
        some ⟨true, true, false, false, false⟩ := by decide
    rw [fracBytes_some, NumFlags.scan, hdot, Option.bind_some, scan_digits _ (hf ds rfl)]
    simp

theorem scan_expo (dot : Bool) {e : Expo} (hd : Digits e.digits) :
    (NumFlags.mk true dot false false false).scan false e.bytes =
      some ⟨true, dot, true, e.sign.isSome, !e.digits.isEmpty⟩ := by
  obtain ⟨upper, sign, digits⟩ := e
  have hmark : (NumFlags.mk true dot false false false).accept false
      (if upper then 0x45 else 0x65) = some ⟨true, dot, true, false, false⟩ := by
    cases upper <;> cases dot <;> decide
  simp only [Expo.bytes, NumFlags.scan, hmark, Option.bind_some]
  cases sign with
  | none =>
    rw [signBytes, List.nil_append, scan_digits _ hd]
    simp
  | some m =>
    have hsign : (NumFlags.mk true dot true false false).scan false (signBytes (some m)) =
        some ⟨true, dot, true, true, false⟩ := by
      cases m <;> cases dot <;> decide
    rw [scan_append, hsign, Option.bind_some, scan_digits _ hd]
    simp

/-- A number frame opened on its first byte takes the rest of the token. -/
theorem loose_scan {n : Json.Num} (h : n.Loose) :
    ∃ b t, n.bytes = b :: t ∧ (isDigit b = true ∨ b = 0x2D) ∧
      (NumFlags.opened b).scan false t = some (flagsOf n) := by
  obtain ⟨minus, int, frac, exp⟩ := n
  obtain ⟨⟨hi, hne⟩, hf, he⟩ := h
  dsimp only at hi hne hf he
  have tail : (NumFlags.mk true false false false false).scan false
      (fracBytes frac ++ expBytes exp) = some (flagsOf ⟨minus, int, frac, exp⟩) := by
    rw [scan_append, scan_frac hf, Option.bind_some]
    cases exp with
    | none => simp [flagsOf, hne]
    | some e =>
      rw [expBytes_some, scan_expo _ (he e rfl)]
      simp [flagsOf, hne]
  cases minus with
  | true =>
    refine ⟨0x2D, int ++ (fracBytes frac ++ expBytes exp), rfl, .inr rfl, ?_⟩
    have hint : (NumFlags.opened 0x2D).scan false int = some ⟨true, false, false, false, false⟩ := by
      rw [scan_digits _ hi]
      cases int with
      | nil => exact absurd rfl hne
      | cons d ds => rfl
    rw [scan_append, hint]
    exact tail
  | false =>
    cases int with
    | nil => exact absurd rfl hne
    | cons d ds =>
      obtain ⟨hd, hds⟩ := digits_cons.mp hi
      refine ⟨d, ds ++ (fracBytes frac ++ expBytes exp), rfl, .inl hd, ?_⟩
      have hint : (NumFlags.opened d).scan false ds = some ⟨true, false, false, false, false⟩ := by
        rw [scan_digits _ hds]
        simp [NumFlags.opened, hd]
      rw [scan_append, hint]
      exact tail

theorem whole_scan {n : Json.Num} (h : n.Loose) (hw : n.Whole) :
    ∃ b t, n.bytes = b :: t ∧ (isDigit b = true ∨ b = 0x2D) ∧
      (NumFlags.opened b).scan true t = some (flagsOf n) := by
  obtain ⟨minus, int, frac, exp⟩ := n
  obtain ⟨⟨hi, hne⟩, -, -⟩ := h
  obtain ⟨rfl, rfl⟩ := hw
  dsimp only at hi hne
  cases minus with
  | true =>
    refine ⟨0x2D, int, by simp [Num.bytes], .inr rfl, ?_⟩
    rw [scan_digits _ hi]
    cases int with
    | nil => exact absurd rfl hne
    | cons d ds => rfl
  | false =>
    cases int with
    | nil => exact absurd rfl hne
    | cons d ds =>
      obtain ⟨hd, hds⟩ := digits_cons.mp hi
      refine ⟨d, ds, by simp [Num.bytes], .inl hd, ?_⟩
      rw [scan_digits _ hds]
      simp [flagsOf, NumFlags.opened, hd]

/-- An open number frame: whitespace ends it once a digit is seen, any other
byte outside it needs the frame closable. -/
def numbers (integer : Bool) : Tokens NumFlags where
  step f b :=
    if isWs b then if f.seenDigit then .over else .fail
    else
      match f.accept integer b with
      | some f' => .stay f'
      | none => if f.closable then .over else .fail
  eos f := f.closable

/-- A number with these flags may be over before the byte `next`. -/
def NumEnds (f : NumFlags) (next : Option UInt8) : Prop :=
  f.seenDigit = true ∧ ((∃ b, next = some b ∧ isWs b = true) ∨ f.closable = true)

theorem follows_not_num (h : Follows (some b)) : isWs b = true ∨ isNumByte b = false := by
  rcases h b rfl with hb | rfl | rfl | rfl
  · exact .inl hb
  all_goals exact .inr rfl

theorem closable_digit {f : NumFlags} (h : f.closable = true) : f.seenDigit = true := by
  simp only [NumFlags.closable, Bool.not_eq_true', Bool.or_eq_false_iff] at h
  simpa using h.1

theorem num_ends (integer : Bool) (f : NumFlags) (hf : Follows next) :
    (numbers integer).Takes f [] next ↔ NumEnds f next := by
  cases next with
  | none =>
    simp only [Tokens.Takes, numbers, NumEnds]
    constructor
    · intro h
      exact ⟨closable_digit h, .inr h⟩
    · rintro ⟨-, ⟨b, hb, -⟩ | h⟩
      · cases hb
      · exact h
  | some b =>
    simp only [Tokens.Takes, numbers, NumEnds, Option.some.injEq, exists_eq_left']
    cases hb : isWs b with
    | true => cases f.seenDigit <;> simp
    | false =>
      have hn : f.accept integer b = none := by
        cases ha : f.accept integer b with
        | none => rfl
        | some f' =>
          have h := accept_numByte ha
          rcases follows_not_num hf with hw | hn
          · simp [hb] at hw
          · simp [hn] at h
      cases hc : f.closable with
      | true => simp [hn, closable_digit hc]
      | false => simp [hn]

theorem num_takes (integer : Bool) (f : NumFlags) (w : Bytes) (hf : Follows next) :
    (numbers integer).Takes f w next ↔ ∃ f', f.scan integer w = some f' ∧ NumEnds f' next := by
  induction w generalizing f with
  | nil => simpa using num_ends integer f hf
  | cons b w ih =>
    simp only [Tokens.Takes, NumFlags.scan, Option.bind_eq_some_iff]
    cases ha : f.accept integer b with
    | some g =>
      have hb : isWs b = false := numByte_not_ws (accept_numByte ha)
      have hstay : (numbers integer).step f b = .stay g := by simp [numbers, hb, ha]
      simp only [hstay]
      rw [ih g]
      simp
    | none =>
      cases hb : isWs b with
      | true => cases hd : f.seenDigit <;> simp [numbers, hb, hd]
      | false => cases hc : f.closable <;> simp [numbers, hb, ha, hc]

theorem numEnds_iff {n : Json.Num} (hn : n.Loose) :
    NumEnds (flagsOf n) next ↔ (n.openExp → ∃ b, next = some b ∧ isWs b = true) := by
  have hd : (flagsOf n).seenDigit = true := by simp [flagsOf, hn.int.2]
  simp only [NumEnds, hd, true_and, closable_iff hn]
  constructor
  · rintro (h | h) ho
    · exact h
    · exact absurd ho h
  · intro h
    by_cases ho : n.openExp
    · exact .inl (h ho)
    · exact .inr ho

theorem number_token (h : isDigit b = true ∨ b = 0x2D) (hf : Follows next) :
    (numbers false).Takes (.opened b) w next ↔ LooseNumber (b :: w) next := by
  rw [num_takes _ _ _ hf]
  constructor
  · rintro ⟨f, hs, he⟩
    obtain ⟨n, hp, hb, rfl, -⟩ := scan_partial h hs
    have hn := partial_loose hp he.1
    exact ⟨n, hn, hb, (numEnds_iff hn).mp he⟩
  · rintro ⟨n, hn, hb, ho⟩
    obtain ⟨b', t, hb', -, hs⟩ := loose_scan hn
    rw [hb] at hb'
    cases hb'
    exact ⟨flagsOf n, hs, (numEnds_iff hn).mpr ho⟩

end Flambeau.Runtime
