import Flambeau.Runtime.JsonLanguage

namespace Flambeau.Runtime.JsonReader
open Flambeau.Json

/-- A value has been opened. -/
def Begun : Mode Unit Unit Tok (Bool × Nat) → Prop
  | .value _ [] => False
  | _ => True

/-- A number or a literal that is no part of a container, or what is behind it. -/
def Bare : Mode Unit Unit Tok (Bool × Nat) → Prop
  | .after [] => True
  | .tok (.num _) [] => True
  | .tok (.lit e expected) [] => 0x7B ∉ e :: expected
  | _ => False

theorem begun_started (h : Rep m s) (hm : Begun m) : s.hasStarted = true := by
  cases h with
  | root => exact absurd hm id
  | after =>
    rename_i cs
    cases cs <;> rfl
  | _ => rfl

theorem afterAny_begun (h : reader.afterAny cs b = some m) : Begun m := by
  unfold Reader.afterAny at h
  split at h
  · cases h
    trivial
  · cases cs with
    | nil => cases h
    | cons c cs =>
      cases c with
      | obj o =>
        simp only [Reader.afterStep] at h
        split at h
        · split at h
          · cases h
            trivial
          · cases h
        · split at h
          · split at h
            · cases h
              trivial
            · cases h
          · cases h
      | arr v =>
        simp only [Reader.afterStep] at h
        split at h
        · cases h
          trivial
        · split at h
          · cases h
            trivial
          · cases h

theorem opened_begun (cs : List (Ctx Unit Unit)) (x : Opening Unit Unit Tok) :
    Begun (Reader.opened cs x) := by
  cases x <;> trivial

theorem step_begun (hm : Begun m) (h : reader.step m b = some m') : Begun m' := by
  cases m with
  | after cs => exact afterAny_begun h
  | tok t cs =>
    simp only [Reader.step, Reader.tokStep] at h
    split at h
    · cases h
      trivial
    · cases h
      trivial
    · exact afterAny_begun h
    · cases h
  | key k cs =>
    simp only [Reader.step, Reader.keyStep] at h
    split at h
    · cases h
      trivial
    · cases h
      trivial
    · cases h
  | value v cs =>
    simp only [Reader.step] at h
    split at h
    · cases h
      exact hm
    · obtain ⟨x, -, rfl⟩ := Option.map_eq_some_iff.mp h
      exact opened_begun cs x
  | member mayClose o cs =>
    simp only [Reader.step] at h
    split at h
    · cases h
      trivial
    · split at h
      · cases h
        trivial
      · split at h
        · split at h
          · cases h
            trivial
          · cases h
        · cases h
  | colon o v cs =>
    simp only [Reader.step] at h
    split at h
    · cases h
      trivial
    · split at h
      · cases h
        trivial
      · cases h
  | item mayClose v cs =>
    simp only [Reader.step] at h
    split at h
    · cases h
      trivial
    · split at h
      · cases h
        trivial
      · obtain ⟨x, -, rfl⟩ := Option.map_eq_some_iff.mp h
        exact opened_begun _ x

theorem afterAny_bare (h : reader.afterAny [] b = some m) : b ≠ 0x7B ∧ Bare m := by
  unfold Reader.afterAny at h
  split at h
  · rename_i hws
    cases h
    refine ⟨?_, trivial⟩
    rintro rfl
    exact absurd hws (by decide)
  · cases h

theorem lit_step (e b : UInt8) (expected : Bytes) : reader.step (.tok (.lit e expected) []) b =
    if isWs b then some (.tok (.lit e expected) [])
    else if e ≠ b then none
    else match expected with
      | [] => some (.after [])
      | e' :: expected => some (.tok (.lit e' expected) []) := by
  simp only [Reader.step, Reader.tokStep, reader, toks, tokStep]
  by_cases hws : isWs b = true
  · simp [hws]
  · by_cases he : e = b
    · cases expected <;> simp [hws, he]
    · simp [hws, he]

/-- Outside a container no `{` is taken. -/
theorem step_bare (hm : Bare m) (h : reader.step m b = some m') : b ≠ 0x7B ∧ Bare m' := by
  cases m with
  | after cs =>
    cases cs with
    | nil => exact afterAny_bare h
    | cons c cs => exact absurd hm id
  | tok t cs =>
    cases cs with
    | cons c cs => cases t <;> exact absurd hm id
    | nil =>
      cases t with
      | str escape u => exact absurd hm id
      | num f =>
        by_cases hb : b = 0x7B
        · subst hb
          have hclosed : reader.step (.tok (.num f) []) 0x7B = none := by
            have haccept : f.accept false 0x7B = none := by
              cases hf : f.accept false 0x7B with
              | none => rfl
              | some f' => exact absurd (accept_numByte hf) (by decide)
            simp only [Reader.step, Reader.tokStep, reader, toks, tokStep, numbers, haccept]
            cases f.closable <;> rfl
          rw [hclosed] at h
          cases h
        · refine ⟨hb, ?_⟩
          simp only [Reader.step, Reader.tokStep] at h
          split at h
          · rename_i t' ht
            cases h
            change (((numbers false).step f b).map Tok.num) = .stay t' at ht
            cases hn : (numbers false).step f b <;> rw [hn] at ht <;> cases ht
            trivial
          · cases h
            trivial
          · exact (afterAny_bare h).2
          · cases h
      | lit e expected =>
        rw [lit_step] at h
        split at h
        · rename_i hws
          cases h
          refine ⟨?_, hm⟩
          rintro rfl
          exact absurd hws (by decide)
        · split at h
          · cases h
          · rename_i he
            have heb : e = b := Decidable.not_not.mp he
            subst heb
            refine ⟨fun heq => hm (heq ▸ List.mem_cons_self), ?_⟩
            cases expected with
            | nil =>
              cases h
              trivial
            | cons e' expected =>
              cases h
              exact fun hin => hm (List.mem_cons_of_mem _ hin)
  | _ => exact absurd hm id

/-- What every step keeps, and shows of its byte, a slice that is accepted keeps and
shows of all its bytes. -/
theorem feedSlice_keeps {P : Mode Unit Unit Tok (Bool × Nat) → Prop} {Q : UInt8 → Prop}
    (hstep : ∀ m b m', P m → reader.step m b = some m' → Q b ∧ P m') (h : Rep m s) (hm : P m)
    (hfed : (s.feedSlice w).1 = true) :
    (∀ b ∈ w, Q b) ∧ ∃ m', Rep m' (s.feedSlice w).2 ∧ P m' := by
  induction w generalizing m s with
  | nil => exact ⟨by simp, m, h, hm⟩
  | cons b w ih =>
    have hagree := feed_agrees h b
    rw [JsonState.feedSlice] at hfed ⊢
    rcases hs : s.feed b with ⟨fed, s'⟩
    rw [hs] at hfed hagree
    cases fed with
    | false => cases hfed
    | true =>
      cases hr : reader.step m b with
      | none =>
        rw [hr] at hagree
        cases hagree
      | some m' =>
        rw [hr] at hagree
        obtain ⟨hq, hm'⟩ := hstep m b m' hm hr
        obtain ⟨hall, hrest⟩ := ih hagree.2 hm' hfed
        exact ⟨List.forall_mem_cons.mpr ⟨hq, hall⟩, hrest⟩

theorem feed_blank (h : isWs b = true) : JsonState.new.feed b = (true, .new) := by
  rw [JsonState.feed]
  simp [JsonState.new, h]

/-- White space before the value changes nothing. -/
theorem feedSlice_blank (w : Bytes) :
    JsonState.new.feedSlice w = JsonState.new.feedSlice (w.dropWhile isWs) := by
  induction w with
  | nil => rfl
  | cons b w ih =>
    rw [List.dropWhile_cons]
    split
    · rename_i hb
      rw [JsonState.feedSlice, feed_blank hb]
      exact ih
    · rfl

/-- The first byte of an accepted slice opens a value; a `{` behind any other opener
than `{` stands in an array or a string. -/
theorem opener_cases (hfed : (JsonState.new.feedSlice (b :: w)).1 = true) (hb : isWs b = false) :
    (JsonState.new.feedSlice (b :: w)).2.hasStarted = true ∧
      (b = 0x7B ∨ b = 0x5B ∨ b = 0x22 ∨ 0x7B ∉ b :: w) := by
  have hagree := feed_agrees .root b
  rw [JsonState.feedSlice] at hfed ⊢
  rcases hs : JsonState.new.feed b with ⟨fed, s'⟩
  rw [hs] at hfed hagree
  cases fed with
  | false => cases hfed
  | true =>
    simp only [Reader.step, hb, Bool.false_eq_true, if_false] at hagree
    change Agrees _ ((start b).map (Reader.opened [])) at hagree
    cases hx : start b with
    | none =>
      rw [hx] at hagree
      cases hagree
    | some x =>
      rw [hx] at hagree
      constructor
      · obtain ⟨-, m', hrep, hbegun⟩ := feedSlice_keeps (P := Begun) (Q := fun _ => True)
          (fun m b m' hm h => ⟨trivial, step_begun hm h⟩) hagree.2 (opened_begun [] x) hfed
        exact begun_started hrep hbegun
      · have hbare : ∀ hm : Bare (Reader.opened [] x), b ≠ 0x7B → 0x7B ∉ b :: w := by
          intro hm hne hin
          obtain ⟨hall, -⟩ := feedSlice_keeps (P := Bare) (Q := (· ≠ 0x7B))
            (fun m b m' hm h => step_bare hm h) hagree.2 hm hfed
          rcases List.mem_cons.mp hin with heq | hin
          · exact hne heq.symm
          · exact hall _ hin rfl
        rcases start_cases hx with ⟨rfl, -⟩ | ⟨rfl, -⟩ | ⟨rfl, -⟩ | ⟨e, es, hlit, rfl⟩ | ⟨hnum, rfl⟩
        · exact .inl rfl
        · exact .inr (.inl rfl)
        · exact .inr (.inr (.inl rfl))
        · refine .inr (.inr (.inr (hbare ?_ ?_)))
          · change 0x7B ∉ e :: es
            rcases hlit with h | h | h <;> cases h <;> decide
          · rcases hlit with h | h | h <;> cases h <;> decide
        · refine .inr (.inr (.inr (hbare trivial ?_)))
          rintro rfl
          rcases hnum with h | h <;> exact absurd h (by decide)

end Flambeau.Runtime.JsonReader
