import Flambeau.Runtime.JsonOpener
import Flambeau.Server.JsonMask

namespace Flambeau.Server
open Flambeau.Runtime
open Flambeau.Json (Bytes isWs)

/-- The first byte behind the white space. -/
def opener (bytes : Bytes) : Option UInt8 := (bytes.dropWhile isWs).head?

/-- A text that opens an array or a string and holds a `{` further on. -/
def HidesBrace (bytes : Bytes) : Prop :=
  (opener bytes = some 0x5B ∨ opener bytes = some 0x22) ∧ 0x7B ∈ bytes

/-- The sampler can still take the token. -/
def Unmasked (logits : List F32) (id : Nat) : Prop := ∃ v, logits[id]? = some v ∧ v ≠ .negInf

theorem JsonConstraint.not_started {s : JsonState} (h : (JsonConstraint.object s).hasStarted = false) :
    s = .new ∨ ∃ finished, s = ⟨[], finished, true⟩ := by
  obtain ⟨stack, finished, invalid⟩ := s
  simp only [hasStarted, JsonState.hasStarted, Bool.or_eq_false_iff, Bool.not_eq_false',
    List.isEmpty_iff] at h
  obtain ⟨rfl, rfl⟩ := h
  cases invalid with
  | true => exact .inr ⟨false, rfl⟩
  | false => exact .inl rfl

theorem JsonState.feedSlice_invalid {s : JsonState} (h : s.invalid = true) (hne : bytes ≠ []) :
    (s.feedSlice bytes).1 = false := by
  cases bytes with
  | nil => exact absurd rfl hne
  | cons b bytes =>
    have hfeed : s.feed b = (false, s) := by
      rw [JsonState.feed, if_pos h]
    rw [JsonState.feedSlice, hfeed]

theorem dropWhile_opener {bytes : Bytes} (h : opener bytes = some b) :
    ∃ rest, bytes.dropWhile isWs = b :: rest ∧ isWs b = false := by
  unfold opener at h
  cases hd : bytes.dropWhile isWs with
  | nil =>
    rw [hd] at h
    cases h
  | cons x rest =>
    rw [hd] at h
    cases h
    refine ⟨rest, rfl, ?_⟩
    have hhead := List.head_dropWhile_not isWs (l := bytes) (by rw [hd]; exact List.cons_ne_nil _ _)
    simpa [hd] using hhead

/-- A `{` stands in a text where it stands behind its white space. -/
theorem brace_dropWhile (bytes : Bytes) : 0x7B ∈ bytes.dropWhile isWs ↔ 0x7B ∈ bytes := by
  constructor
  · exact fun h => (List.dropWhile_suffix _).subset h
  · intro h
    rw [← List.takeWhile_append_dropWhile (p := isWs) (l := bytes)] at h
    rcases List.mem_append.mp h with h | h
    · exact absurd (List.all_eq_true.mp List.all_takeWhile _ h) (by decide)
    · exact h

/-- What the constraint makes of a text before any value. -/
theorem slice_opens {s : JsonState} (hs : (JsonConstraint.object s).hasStarted = false)
    (hfed : (s.feedSlice bytes).1 = true) (hopen : opener bytes = some b) :
    (s.feedSlice bytes).2.hasStarted = true ∧ (b = 0x7B ∨ 0x7B ∈ bytes → b = 0x7B ∨ HidesBrace bytes) := by
  have hne : bytes ≠ [] := by
    rintro rfl
    cases hopen
  rcases JsonConstraint.not_started hs with rfl | ⟨finished, rfl⟩
  · obtain ⟨rest, hdrop, hb⟩ := dropWhile_opener hopen
    rw [JsonReader.feedSlice_blank, hdrop] at hfed ⊢
    obtain ⟨hstarted, hcases⟩ := JsonReader.opener_cases hfed hb
    refine ⟨hstarted, ?_⟩
    rintro (hb | hin)
    · exact .inl hb
    · rcases hcases with rfl | rfl | rfl | hnot
      · exact .inl rfl
      · exact .inr ⟨.inl hopen, hin⟩
      · exact .inr ⟨.inr hopen, hin⟩
      · rw [← brace_dropWhile, hdrop] at hin
        exact absurd hin hnot
  · rw [JsonState.feedSlice_invalid rfl hne] at hfed
    cases hfed

/-- Before any value a token is allowed exactly where its text is accepted, opens a
value and holds a `{`. -/
theorem jsonAllows_object {s : JsonState} (hs : (JsonConstraint.object s).hasStarted = false)
    (tokenizer : GgufTokenizer) (id : Nat) :
    jsonAllows (.object s) tokenizer id = true ↔ ∃ text, tokenizer.decode [id] = some text ∧
      (s.feedSlice (asBytes text)).1 = true ∧ (∃ b, opener (asBytes text) = some b) ∧
      0x7B ∈ asBytes text := by
  have hcomplete : (JsonConstraint.object s).isComplete = false := by
    rcases JsonConstraint.not_started hs with rfl | ⟨finished, rfl⟩ <;> rfl
  unfold jsonAllows
  cases hdecode : tokenizer.decode [id] with
  | none => simp
  | some text =>
    simp only [Option.some.injEq, exists_eq_left']
    by_cases hempty : asBytes text = []
    · simp [hempty, hcomplete]
    · have hnot : (asBytes text).isEmpty = false := by
        simpa [List.isEmpty_iff] using hempty
      rw [hnot, if_neg Bool.false_ne_true]
      simp only [JsonConstraint.feedSlice, JsonConstraint.topMustBeObject, hs]
      cases hfed : (s.feedSlice (asBytes text)).1 with
      | false => simp
      | true =>
        have hall : ((asBytes text).all fun x => x != 0x7B) = false ↔ 0x7B ∈ asBytes text := by
          rw [← Bool.not_eq_true, List.all_eq_true]
          simp
        cases hopen : opener (asBytes text) with
        | none =>
          have hblank : (asBytes text).dropWhile isWs = [] := List.head?_eq_none_iff.mp hopen
          have hno : 0x7B ∉ asBytes text := by
            rw [← brace_dropWhile, hblank]
            exact List.not_mem_nil
          have htrue : ((asBytes text).all fun x => x != 0x7B) = true := by
            rw [← Bool.not_eq_false, hall]
            exact hno
          cases hst : (JsonConstraint.object (s.feedSlice (asBytes text)).2).hasStarted <;>
            simp [htrue]
        | some b =>
          have hst : (JsonConstraint.object (s.feedSlice (asBytes text)).2).hasStarted = true :=
            (slice_opens hs hfed hopen).1
          rw [← hall]
          simp [hst]

theorem jsonMasked_iff {U : UnstableDesc} {js : JsonConstraint} {tokenizer : GgufTokenizer}
    {logits : List F32} {maxCandidates : Nat} (hp : p ∈ jsonCandidates U logits maxCandidates) :
    p.1 ∈ jsonMasked U js tokenizer logits maxCandidates ↔ jsonAllows js tokenizer p.1 = false := by
  unfold jsonMasked
  constructor
  · intro h
    obtain ⟨q, hq, heq⟩ := List.mem_map.mp h
    have hnot := (List.mem_filter.mp hq).2
    rw [heq] at hnot
    simpa using hnot
  · intro h
    exact List.mem_map.mpr ⟨p, List.mem_filter.mpr ⟨hp, by simp [h]⟩, rfl⟩

/-- A candidate's logit after the mask. -/
theorem masked_candidate {U : UnstableDesc} {js : JsonConstraint} {tokenizer : GgufTokenizer}
    {logits : List F32} {maxCandidates : Nat} (hp : p ∈ jsonCandidates U logits maxCandidates) :
    (applyJsonMaskToLogits U js tokenizer logits maxCandidates)[p.1]? =
      if jsonAllows js tokenizer p.1 then logits[p.1]? else logits[p.1]?.map fun _ => .negInf := by
  rw [applyJsonMask_eq, maskStopIds_get]
  cases hallow : jsonAllows js tokenizer p.1 with
  | true =>
    rw [if_neg, if_pos rfl]
    rw [jsonMasked_iff hp, hallow]
    exact nofun
  | false => rw [if_pos ((jsonMasked_iff hp).mpr hallow), if_neg Bool.false_ne_true]

theorem unmasked_iff {U : UnstableDesc} {js : JsonConstraint} {tokenizer : GgufTokenizer}
    {logits : List F32} {maxCandidates : Nat} (hp : p ∈ jsonCandidates U logits maxCandidates) :
    Unmasked (applyJsonMaskToLogits U js tokenizer logits maxCandidates) p.1 ↔
      jsonAllows js tokenizer p.1 = true ∧ Unmasked logits p.1 := by
  unfold Unmasked
  rw [masked_candidate hp]
  cases jsonAllows js tokenizer p.1 with
  | true => simp
  | false => simp

/-- JSON-object mode opens with an object: what is left of the candidates is blank or
opens with `{`, and a candidate that opens so and is accepted keeps its logit. -/
def OpensObject (U : UnstableDesc) (s : JsonState) (tokenizer : GgufTokenizer) (logits : List F32)
    (maxCandidates : Nat) : Prop :=
  let masked := applyJsonMaskToLogits U (.object s) tokenizer logits maxCandidates
  ∀ p ∈ jsonCandidates U logits maxCandidates,
    (Unmasked masked p.1 → ∃ text, tokenizer.decode [p.1] = some text ∧
      ((∀ b ∈ asBytes text, isWs b = true) ∨ opener (asBytes text) = some 0x7B)) ∧
    ∀ text, tokenizer.decode [p.1] = some text → opener (asBytes text) = some 0x7B →
      (s.feedSlice (asBytes text)).1 = true → masked[p.1]? = logits[p.1]?

/-- It does exactly where no candidate opens an array or a string with a `{` further
on that the constraint accepts. -/
theorem opens_object_iff {s : JsonState} (hs : (JsonConstraint.object s).hasStarted = false)
    (U : UnstableDesc) (tokenizer : GgufTokenizer) (logits : List F32) (maxCandidates : Nat) :
    OpensObject U s tokenizer logits maxCandidates ↔
      ∀ p ∈ jsonCandidates U logits maxCandidates, Unmasked logits p.1 →
        ∀ text, tokenizer.decode [p.1] = some text → (s.feedSlice (asBytes text)).1 = true →
          ¬ HidesBrace (asBytes text) := by
  constructor
  · intro h p hp hlogit text hdecode hfed hhides
    obtain ⟨b, hopen⟩ : ∃ b, opener (asBytes text) = some b := hhides.1.elim (⟨_, ·⟩) (⟨_, ·⟩)
    have hallow := (jsonAllows_object hs tokenizer p.1).mpr ⟨text, hdecode, hfed, ⟨b, hopen⟩, hhides.2⟩
    obtain ⟨text', hdecode', hcases⟩ := (h p hp).1 ((unmasked_iff hp).mpr ⟨hallow, hlogit⟩)
    rw [hdecode] at hdecode'
    cases hdecode'
    rcases hcases with hblank | hobject
    · exact absurd (hblank _ hhides.2) (by decide)
    · rcases hhides.1 with hother | hother
      · rw [hobject] at hother
        cases hother
      · rw [hobject] at hother
        cases hother
  · intro h p hp
    constructor
    · intro hun
      obtain ⟨hallow, hlogit⟩ := (unmasked_iff hp).mp hun
      obtain ⟨text, hdecode, hfed, ⟨b, hopen⟩, hbrace⟩ := (jsonAllows_object hs tokenizer p.1).mp hallow
      refine ⟨text, hdecode, .inr ?_⟩
      rcases (slice_opens hs hfed hopen).2 (.inr hbrace) with rfl | hhides
      · exact hopen
      · exact absurd hhides (h p hp hlogit text hdecode hfed)
    · intro text hdecode hopen hfed
      have hbrace : 0x7B ∈ asBytes text := by
        obtain ⟨rest, hdrop, -⟩ := dropWhile_opener hopen
        rw [← brace_dropWhile, hdrop]
        exact List.mem_cons_self
      have hallow := (jsonAllows_object hs tokenizer p.1).mpr ⟨text, hdecode, hfed, ⟨_, hopen⟩, hbrace⟩
      rw [masked_candidate hp, if_pos hallow]

/-- A vocabulary of one token. -/
def oneToken (text : ToolCallParser.Text) : GgufTokenizer := ⟨[], [], fun _ => some text, fun _ => none⟩

theorem brace_token_opens : OpensObject stableDesc .new (oneToken ['{', '"']) [.fin 1] 2048 := by
  refine (opens_object_iff rfl stableDesc _ _ _).mpr ?_
  intro p _ _ text hdecode _ hhides
  cases hdecode
  rcases hhides.1 with h | h <;> exact absurd h (by decide)

/-- The token opens an array and stays. -/
theorem array_token_unmasked :
    (JsonConstraint.object .new).hasStarted = false ∧
    ∀ U, ¬ OpensObject U .new (oneToken ['[', '{']) [.fin 1] 2048 := by
  refine ⟨rfl, ?_⟩
  intro U h
  obtain ⟨p, hp, hid⟩ := @candidates_all U [.fin 1] 2048 (by decide) 0 _ rfl
  have hallow : jsonAllows (.object .new) (oneToken ['[', '{']) p.1 = true := by
    change jsonAllows (.object .new) (oneToken ['[', '{']) 0 = true
    decide +kernel
  obtain ⟨text, hdecode, hcases⟩ := (h p hp).1
    ((unmasked_iff hp).mpr ⟨hallow, .fin 1, by rw [hid]; rfl, nofun⟩)
  cases hdecode
  rcases hcases with hblank | hobject
  · exact absurd (hblank 0x5B (by decide)) (by decide)
  · exact absurd hobject (by decide)

end Flambeau.Server
