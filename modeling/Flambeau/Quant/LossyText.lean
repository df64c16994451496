import Flambeau.Quant.Gguf
import Flambeau.Stream.Trailing

namespace Flambeau.Quant
open Stream (rdropWhile_append_run rdropWhile_append)

theorem secondOk_iff (lead b : UInt8) : secondOk lead b = true ↔
    (lead.toNat = 0xE0 ∧ 0xA0 ≤ b.toNat ∧ b.toNat ≤ 0xBF) ∨
    (lead.toNat = 0xED ∧ 0x80 ≤ b.toNat ∧ b.toNat ≤ 0x9F) ∨
    (lead.toNat = 0xF0 ∧ 0x90 ≤ b.toNat ∧ b.toNat ≤ 0xBF) ∨
    (lead.toNat = 0xF4 ∧ 0x80 ≤ b.toNat ∧ b.toNat ≤ 0x8F) ∨
    (lead.toNat ≠ 0xE0 ∧ lead.toNat ≠ 0xED ∧ lead.toNat ≠ 0xF0 ∧ lead.toNat ≠ 0xF4 ∧
      0x80 ≤ b.toNat ∧ b.toNat ≤ 0xBF) := by
  simp only [secondOk, ← UInt8.toNat_inj, UInt8.le_iff_toNat_le]
  simp only [UInt8.reduceToNat]
  split
  · simp [*]
  · split
    · simp [*]
    · split
      · simp [*]
      · split
        · simp [*]
        · simp [*]

theorem invalidLen_cons (lead b : UInt8) (rest : List UInt8) : invalidLen (lead :: b :: rest) =
    if 0xE0 ≤ lead && lead ≤ 0xEF && secondOk lead b then 2
    else if 0xF0 ≤ lead && lead ≤ 0xF4 && secondOk lead b then
      match rest with
      | b' :: _ => if 0x80 ≤ b' && b' ≤ 0xBF then 3 else 2
      | [] => 2
    else 1 := rfl

theorem invalidLen_three (hlo : 0xE0 ≤ lead.toNat) (hhi : lead.toNat ≤ 0xEF)
    (hb : secondOk lead b = true) (rest : List UInt8) : invalidLen (lead :: b :: rest) = 2 := by
  rw [invalidLen_cons, if_pos]
  simp [UInt8.le_iff_toNat_le, hlo, hhi, hb]

/-- Four bytes of which two or three are there. -/
theorem invalidLen_four (hlo : 0xF0 ≤ lead.toNat) (hhi : lead.toNat ≤ 0xF4)
    (hb : secondOk lead b = true) :
    invalidLen [lead, b] = 2 ∧
      ∀ b', 0x80 ≤ b'.toNat → b'.toNat ≤ 0xBF → invalidLen [lead, b, b'] = 3 := by
  have hnot : ¬((decide (0xE0 ≤ lead) && decide (lead ≤ 0xEF) && secondOk lead b) = true) := by
    simp only [Bool.and_eq_true, decide_eq_true_eq, UInt8.le_iff_toNat_le]
    simp only [UInt8.reduceToNat]
    omega
  have hpos : (decide (0xF0 ≤ lead) && decide (lead ≤ 0xF4) && secondOk lead b) = true := by
    simp [UInt8.le_iff_toNat_le, hlo, hhi, hb]
  constructor
  · rw [invalidLen_cons, if_neg hnot, if_pos hpos]
  · intro b' hlo' hhi'
    rw [invalidLen_cons, if_neg hnot, if_pos hpos]
    simp [UInt8.le_iff_toNat_le, hlo', hhi']

/-- What is there of a character cut short is one invalid piece. -/
theorem front_invalid {c : Char} {front back : List UInt8} (hne : front ≠ [])
    (h : String.utf8EncodeChar c = front ++ b :: back) : invalidLen front = front.length := by
  have hvalid : c.val.toNat < 0xd800 ∨ 0xdfff < c.val.toNat ∧ c.val.toNat < 0x110000 := c.valid
  cases front with
  | nil => exact absurd rfl hne
  | cons lead front =>
    cases front with
    | nil => rfl
    | cons second front =>
      unfold String.utf8EncodeChar at h
      dsimp only at h
      split at h
      · simp at h
      · split at h
        · simp at h
        · split at h
          · simp only [List.cons_append, List.cons.injEq] at h
            obtain ⟨rfl, rfl, hrest⟩ := h
            cases front with
            | nil =>
              refine invalidLen_three ?_ ?_ ?_ []
              · rw [UInt8.toNat_ofNat']
                omega
              · rw [UInt8.toNat_ofNat']
                omega
              · rw [secondOk_iff, UInt8.toNat_ofNat', UInt8.toNat_ofNat']
                omega
            | cons third front => simp at hrest
          · simp only [List.cons_append, List.cons.injEq] at h
            obtain ⟨rfl, rfl, hrest⟩ := h
            have hfour := @invalidLen_four (UInt8.ofNat (c.val.toNat / 262144 % 0x08 + 0xf0)) (UInt8.ofNat
              (c.val.toNat / 4096 % 0x40 + 0x80)) (by rw [UInt8.toNat_ofNat']; omega)
              (by rw [UInt8.toNat_ofNat']; omega)
              (by rw [secondOk_iff, UInt8.toNat_ofNat', UInt8.toNat_ofNat']; omega)
            cases front with
            | nil => exact hfour.1
            | cons third front =>
              simp only [List.cons_append, List.cons.injEq] at hrest
              obtain ⟨rfl, hrest⟩ := hrest
              cases front with
              | nil =>
                refine hfour.2 _ ?_ ?_
                · rw [UInt8.toNat_ofNat']
                  omega
                · rw [UInt8.toNat_ofNat']
                  omega
              | cons fourth front => simp at hrest

variable {a b : List UInt8}

theorem decodeChar_append (h : a.toByteArray.utf8DecodeChar? 0 = some c) (b : List UInt8) :
    (a ++ b).toByteArray.utf8DecodeChar? 0 = some c := by
  rw [List.toByteArray_append]
  exact ByteArray.utf8DecodeChar?_append_eq_some h _

theorem decodeChar_le (h : a.toByteArray.utf8DecodeChar? 0 = some c) : c.utf8Size ≤ a.length := by
  have hle := ByteArray.le_size_of_utf8DecodeChar?_eq_some h
  rwa [List.size_toByteArray, Nat.zero_add] at hle

theorem decodeChar_front (h : a = String.utf8EncodeChar c ++ rest) :
    a.toByteArray.utf8DecodeChar? 0 = some c := by
  rw [h, List.toByteArray_append]
  exact ByteArray.utf8DecodeChar?_utf8EncodeChar_append

theorem decodeChar_some (h : a.toByteArray.utf8DecodeChar? 0 = some c) :
    ∃ rest, a = String.utf8EncodeChar c ++ rest := by
  obtain ⟨l, hl⟩ := ByteArray.exists_of_utf8DecodeChar?_eq_some h
  refine ⟨l.data.toList, ?_⟩
  have hlist := congrArg (fun x : ByteArray => x.data.toList) hl
  simpa using hlist

/-- A piece that is no character, and does not reach the end, stays so behind it. -/
theorem invalid_append (hne : a ≠ []) (h : a.toByteArray.utf8DecodeChar? 0 = none)
    (hlen : invalidLen a < a.length) (b : List UInt8) :
    (a ++ b).toByteArray.utf8DecodeChar? 0 = none ∧ invalidLen (a ++ b) = invalidLen a := by
  constructor
  · cases hd : (a ++ b).toByteArray.utf8DecodeChar? 0 with
    | none => rfl
    | some c =>
      obtain ⟨rest, hrest⟩ := decodeChar_some hd
      rcases List.append_eq_append_iff.mp hrest with ⟨back, hc, -⟩ | ⟨back, ha, -⟩
      · cases back with
        | nil =>
          rw [List.append_nil] at hc
          have hsome := @decodeChar_front a c [] (by rw [hc, List.append_nil])
          rw [h] at hsome
          cases hsome
        | cons x back =>
          have hwhole := front_invalid hne hc
          omega
      · have hsome := decodeChar_front ha
        rw [h] at hsome
        cases hsome
  · cases a with
    | nil => exact absurd rfl hne
    | cons lead a =>
      cases a with
      | nil => exact absurd hlen (Nat.lt_irrefl 1)
      | cons second a =>
        rw [List.cons_append, List.cons_append, invalidLen_cons, invalidLen_cons]
        rw [invalidLen_cons] at hlen
        cases a with
        | cons third a => rfl
        | nil =>
          by_cases hthree : (decide (0xE0 ≤ lead) && decide (lead ≤ 0xEF) && secondOk lead second) = true
          · rw [if_pos hthree, if_pos hthree]
          · rw [if_neg hthree] at hlen ⊢
            rw [if_neg hthree]
            by_cases hfour : (decide (0xF0 ≤ lead) && decide (lead ≤ 0xF4) && secondOk lead second) = true
            · rw [if_pos hfour] at hlen
              exact absurd hlen (Nat.lt_irrefl 2)
            · rw [if_neg hfour, if_neg hfour]

theorem invalidLen_pos (a : List UInt8) : 0 < invalidLen a := by
  unfold invalidLen
  split
  · split
    · decide
    · split
      · split
        · split <;> decide
        · decide
      · decide
  · decide

/-- Each step takes a byte at least, so as much fuel as there are bytes is enough. -/
theorem lossyChars_fuel (hn : a.length ≤ n) (hm : a.length ≤ m) : lossyChars n a = lossyChars m a := by
  induction n generalizing a m with
  | zero =>
    obtain rfl := List.length_eq_zero_iff.mp (Nat.le_zero.mp hn)
    cases m <;> rfl
  | succ n ih =>
    cases a with
    | nil => cases m <;> rfl
    | cons x a =>
      cases m with
      | zero => cases hm
      | succ m =>
        have hdrop : ∀ k, 0 < k → lossyChars n ((x :: a).drop k) = lossyChars m ((x :: a).drop k) := by
          intro k hk
          have hlen := List.length_drop (l := x :: a) (i := k)
          rw [List.length_cons] at hlen hn hm
          exact ih (by omega) (by omega)
        unfold lossyChars
        split
        · rename_i c hc
          rw [hdrop _ c.utf8Size_pos]
        · rw [hdrop _ (invalidLen_pos _)]

/-- The characters of `from_utf8_lossy`. -/
def lossy (a : List UInt8) : List Char := lossyChars a.length a

theorem fromUtf8Lossy_toList (a : List UInt8) : (fromUtf8Lossy a).toList = lossy a := String.toList_ofList

theorem lossy_nil : lossy [] = [] := rfl

theorem lossy_step (hne : a ≠ []) : lossy a =
    match a.toByteArray.utf8DecodeChar? 0 with
    | some c => c :: lossy (a.drop c.utf8Size)
    | none => Char.ofNat 0xFFFD :: lossy (a.drop (invalidLen a)) := by
  cases a with
  | nil => exact absurd rfl hne
  | cons x a =>
    have hdrop : ∀ k, 0 < k → lossyChars a.length ((x :: a).drop k) = lossy ((x :: a).drop k) := by
      intro k hk
      refine lossyChars_fuel ?_ (Nat.le_refl _)
      rw [List.length_drop, List.length_cons]
      omega
    change lossyChars (a.length + 1) (x :: a) = _
    rw [lossyChars]
    · cases hd : (x :: a).toByteArray.utf8DecodeChar? 0 with
      | some c =>
        dsimp only
        rw [hdrop _ c.utf8Size_pos]
      | none =>
        dsimp only
        rw [hdrop _ (invalidLen_pos _)]
    · simp

theorem lossy_char (h : a.toByteArray.utf8DecodeChar? 0 = some c) :
    lossy a = c :: lossy (a.drop c.utf8Size) := by
  have hne : a ≠ [] := by
    rintro rfl
    have hle := decodeChar_le h
    exact absurd hle (Nat.not_le.mpr c.utf8Size_pos)
  rw [lossy_step hne, h]

theorem lossy_invalid (hne : a ≠ []) (h : a.toByteArray.utf8DecodeChar? 0 = none) :
    lossy a = Char.ofNat 0xFFFD :: lossy (a.drop (invalidLen a)) := by
  rw [lossy_step hne, h]

/-- Wherever bytes are cut, what is decoded before the cut stays, up to one piece
that the cut leaves open. -/
theorem lossy_cut (n : Nat) (a : List UInt8) (hn : a.length ≤ n) : ∃ out left,
    (∀ b, lossy (a ++ b) = out ++ lossy (left ++ b)) ∧
      (left = [] ∨ lossy left = [Char.ofNat 0xFFFD]) := by
  induction n generalizing a with
  | zero =>
    obtain rfl := List.length_eq_zero_iff.mp (Nat.le_zero.mp hn)
    exact ⟨[], [], fun b => rfl, .inl rfl⟩
  | succ n ih =>
    by_cases hne : a = []
    · exact ⟨[], [], fun b => by rw [hne]; rfl, .inl rfl⟩
    cases hd : a.toByteArray.utf8DecodeChar? 0 with
    | some c =>
      have hle := decodeChar_le hd
      have hpos := c.utf8Size_pos
      obtain ⟨out, left, hcut, hleft⟩ := ih (a.drop c.utf8Size) (by rw [List.length_drop]; omega)
      refine ⟨c :: out, left, ?_, hleft⟩
      intro b
      rw [lossy_char (decodeChar_append hd b), List.drop_append_of_le_length hle, hcut]
      rfl
    | none =>
      by_cases hlen : invalidLen a < a.length
      · have hpos := invalidLen_pos a
        obtain ⟨out, left, hcut, hleft⟩ := ih (a.drop (invalidLen a)) (by rw [List.length_drop]; omega)
        refine ⟨Char.ofNat 0xFFFD :: out, left, ?_, hleft⟩
        intro b
        obtain ⟨hnone, hsame⟩ := invalid_append hne hd hlen b
        have happ : a ++ b ≠ [] := by simp [hne]
        rw [lossy_invalid happ hnone, hsame, List.drop_append_of_le_length (Nat.le_of_lt hlen), hcut]
        rfl
      · refine ⟨[], a, fun b => rfl, .inr ?_⟩
        rw [lossy_invalid hne hd, List.drop_of_length_le (Nat.not_lt.mp hlen)]
        rfl

/-- Without its trailing replacement characters. -/
def settled (text : List Char) : List Char := text.rdropWhile (· == Char.ofNat 0xFFFD)

theorem lossy_grows (a b : List UInt8) : settled (lossy a) <+: lossy (a ++ b) := by
  obtain ⟨out, left, hcut, hleft⟩ := lossy_cut a.length a (Nat.le_refl _)
  have hself := hcut []
  rw [List.append_nil, List.append_nil] at hself
  have hout : settled (lossy a) <+: out := by
    rw [hself]
    unfold settled
    rcases hleft with rfl | hleft
    · rw [lossy_nil, List.append_nil]
      exact List.rdropWhile_prefix _ _
    · rw [hleft, rdropWhile_append_run _ (by simp)]
      exact List.rdropWhile_prefix _ _
  rw [hcut]
  exact hout.trans (List.prefix_append _ _)

/-- A text that ends in no replacement character stands by itself. -/
theorem lossy_joins (h : settled (lossy a) = lossy a) (b : List UInt8) :
    lossy (a ++ b) = lossy a ++ lossy b := by
  obtain ⟨out, left, hcut, hleft⟩ := lossy_cut a.length a (Nat.le_refl _)
  have hself := hcut []
  rw [List.append_nil, List.append_nil] at hself
  rcases hleft with rfl | hleft
  · rw [hcut, hself, List.nil_append, lossy_nil, List.append_nil]
  · rw [hself, hleft] at h
    unfold settled at h
    rw [rdropWhile_append_run _ (by simp)] at h
    have hlen := (List.rdropWhile_prefix (p := (· == Char.ofNat 0xFFFD)) out).length_le
    rw [h, List.length_append, List.length_singleton] at hlen
    omega

end Flambeau.Quant
