import Flambeau.Json.Unambiguous
import Flambeau.Runtime.SchemaReader

namespace Flambeau.Runtime.SchemaReader
open Flambeau.Json Flambeau.Runtime.JsonSchema

/-- An integer token: no fraction, no exponent, any leading zeros. -/
def WholeNumber (w : Bytes) : Prop := ∃ n : Json.Num, n.Loose ∧ n.Whole ∧ n.bytes = w

def AnyLeaf : Doc → Option UInt8 → Prop
  | .lit w, _ => IsLiteral w
  | .num w, next => LooseNumber w next
  | .str body, _ => Chars body
  | _, _ => False

/-- One of the literals, and none of which it is a proper prefix unless the
input ends here. -/
def EnumLeaf (candidates : List Literal) (d : Doc) (next : Option UInt8) : Prop :=
  d.Ok rfc8259 () none ∧ (∃ c ∈ candidates, c.bytes = d.bytes) ∧
    (next = none ∨ ∀ c ∈ candidates, d.bytes <+: c.bytes → c.bytes = d.bytes)

def SchemaLeaf : Node → Doc → Option UInt8 → Prop
  | .any, d, next => AnyLeaf d next
  | .bool, d, _ => d = .lit trueBytes ∨ d = .lit falseBytes
  | .null, d, _ => d = .lit nullBytes
  | .int, d, _ => ∃ w, d = .num w ∧ WholeNumber w
  | .num, d, next => ∃ w, d = .num w ∧ LooseNumber w next
  | .str, d, _ => ∃ body, d = .str body ∧ Chars body
  | .enum candidates, d, next => EnumLeaf candidates d next
  | _, _, _ => False

/-- The bytes an open key takes: no quote, no backslash, no control byte but
the whitespace ones. -/
def KeyBytes (key : Bytes) : Prop :=
  ∀ b ∈ key, b ≠ 0x22 ∧ b ≠ 0x5C ∧ (isWs b = true ∨ 0x20 ≤ b)

/-- A key as the machine reads it: whitespace dropped, the rest byte by byte. -/
def keyText (key : Bytes) : Name := (key.filter fun b => !isWs b).map byteChar

/-- The object after a key. -/
def see (o : ObjectFrame) (name : Name) : ObjectFrame :=
  { o with seen := name :: o.seen, pendingKey := name }

/-- The language `SchemaState` reads. -/
def schemaGrammar : Grammar Node ObjectFrame where
  leaf := SchemaLeaf
  arr v items := v = .array items ∨ v = .any ∧ items = .any
  obj v o := (∃ properties required additional, v = .object properties required additional ∧
    o = ⟨properties, required, additional, [], []⟩) ∨ v = .any ∧ o = anyFrame
  entry o key o' v := KeyBytes key ∧ o.allows (keyText key) = true ∧ o' = see o (keyText key) ∧
    v = o'.valueNode
  close o := o.complete = true
  comma o := o.canAdd = true
  trailing := false

/-! Enums. -/

theorem mem_alive {candidates : List Literal} :
    c ∈ SchemaState.alive candidates pos b ↔ c ∈ candidates ∧ c.bytes[pos]? = some b := by
  simp [SchemaState.alive]

theorem prefix_next {p s : Bytes} (hp : p <+: s) : s[p.length]? = some b ↔ (p ++ [b]) <+: s := by
  obtain ⟨t, rfl⟩ := hp
  rw [List.getElem?_append_right (Nat.le_refl _), Nat.sub_self, List.prefix_append_right_inj]
  cases t with
  | nil => simp
  | cons x t => simp [List.cons_prefix_cons, eq_comm]

theorem prefix_length {p c : Bytes} (hp : p <+: c) (hl : c.length = p.length) : c = p :=
  (hp.eq_of_length hl.symm).symm

/-- What an open enum frame takes, once all its literals begin with `p`. -/
theorem enum_takes {candidates : List Literal} (p w : Bytes) (next : Option UInt8)
    (hp : ∀ c ∈ candidates, p <+: c.bytes) :
    enumTokens.Takes (candidates, p.length) w next ↔
      (∃ c ∈ candidates, c.bytes = p ++ w) ∧
        (next = none ∨
          w ≠ [] ∧ ∀ c ∈ candidates, (p ++ w) <+: c.bytes → c.bytes = p ++ w) := by
  induction w generalizing candidates p with
  | nil =>
    cases next with
    | none =>
      simp only [Tokens.Takes, enumTokens, List.any_eq_true, beq_iff_eq, List.append_nil, true_or,
        and_true]
      constructor
      · rintro ⟨c, hc, hl⟩
        exact ⟨c, hc, prefix_length (hp c hc) hl⟩
      · rintro ⟨c, hc, hb⟩
        exact ⟨c, hc, by rw [hb]⟩
    | some b =>
      simp only [Tokens.Takes, enumTokens]
      constructor
      · intro h
        split at h
        · cases h
        · split at h <;> cases h
      · rintro ⟨-, hn | ⟨hn, -⟩⟩
        · cases hn
        · exact absurd rfl hn
  | cons b w ih =>
    have hmem : ∀ c, c ∈ SchemaState.alive candidates p.length b ↔
        c ∈ candidates ∧ (p ++ [b]) <+: c.bytes := by
      intro c
      rw [mem_alive]
      constructor
      · rintro ⟨hc, hb⟩
        exact ⟨hc, (prefix_next (hp c hc)).mp hb⟩
      · rintro ⟨hc, hb⟩
        exact ⟨hc, (prefix_next (hp c hc)).mpr hb⟩
    have halive : ∀ c ∈ SchemaState.alive candidates p.length b, (p ++ [b]) <+: c.bytes :=
      fun c hc => ((hmem c).mp hc).2
    have hrest : (p ++ [b]) ++ w = p ++ b :: w := by simp
    have hlen : (p ++ [b]).length = p.length + 1 := by simp
    have hex : (∃ c ∈ SchemaState.alive candidates p.length b, c.bytes = p ++ b :: w) ↔
        ∃ c ∈ candidates, c.bytes = p ++ b :: w := by
      constructor
      · rintro ⟨c, hc, hb⟩
        exact ⟨c, ((hmem c).mp hc).1, hb⟩
      · rintro ⟨c, hc, hb⟩
        exact ⟨c, (hmem c).mpr ⟨hc, ⟨w, by rw [hb, hrest]⟩⟩, hb⟩
    have hall : (∀ c ∈ SchemaState.alive candidates p.length b, (p ++ b :: w) <+: c.bytes →
          c.bytes = p ++ b :: w) ↔
        ∀ c ∈ candidates, (p ++ b :: w) <+: c.bytes → c.bytes = p ++ b :: w := by
      constructor
      · intro h c hc hpre
        refine h c ((hmem c).mpr ⟨hc, ?_⟩) hpre
        exact List.IsPrefix.trans ⟨w, hrest⟩ hpre
      · intro h c hc hpre
        exact h c ((hmem c).mp hc).1 hpre
    by_cases hempty : (SchemaState.alive candidates p.length b).isEmpty = true
    · have hs : enumTokens.step (candidates, p.length) b = .fail := if_pos hempty
      simp only [Tokens.Takes, hs]
      rw [List.isEmpty_iff] at hempty
      rw [← hex, hempty]
      simp
    by_cases hdone : ((SchemaState.alive candidates p.length b).any
          (fun c => c.bytes.length == p.length + 1) &&
        (SchemaState.alive candidates p.length b).all
          (fun c => c.bytes.length == p.length + 1)) = true
    · have hs : enumTokens.step (candidates, p.length) b = .last :=
        (if_neg hempty).trans (if_pos hdone)
      simp only [Tokens.Takes, hs]
      simp only [Bool.and_eq_true, List.any_eq_true, List.all_eq_true, beq_iff_eq] at hdone
      obtain ⟨⟨c, hc, hcl⟩, hl⟩ := hdone
      have heq : ∀ c ∈ SchemaState.alive candidates p.length b, c.bytes = p ++ [b] :=
        fun c hc => prefix_length (halive c hc) (by rw [hlen, hl c hc])
      rw [← hex, ← hall]
      constructor
      · rintro rfl
        exact ⟨⟨c, hc, heq c hc⟩, .inr ⟨by simp, fun c hc _ => heq c hc⟩⟩
      · rintro ⟨⟨c, hc, hb⟩, -⟩
        rw [heq c hc] at hb
        simpa using hb.symm
    · have hs : enumTokens.step (candidates, p.length) b =
          .stay (SchemaState.alive candidates p.length b, p.length + 1) :=
        (if_neg hempty).trans (if_neg hdone)
      simp only [Tokens.Takes, hs]
      have hstep := ih (p ++ [b]) halive
      rw [hlen] at hstep
      rw [hstep, hrest, hex, hall]
      refine and_congr_right fun hc => or_congr_right ?_
      constructor
      · rintro ⟨-, h⟩
        exact ⟨by simp, h⟩
      · rintro ⟨-, h⟩
        refine ⟨?_, h⟩
        rintro rfl
        refine hdone ?_
        simp only [Bool.and_eq_true, List.any_eq_true, List.all_eq_true, beq_iff_eq]
        obtain ⟨c, hcc, hb⟩ := hex.mpr hc
        refine ⟨⟨c, hcc, by rw [hb]; simp⟩, fun c' hc' => ?_⟩
        have hb' := hall.mpr h c' hc' (by simpa using halive c' hc')
        rw [hb']
        simp

theorem enum_tok (candidates : List Literal) (pos : Nat) (w : Bytes) (next : Option UInt8) :
    toks.Takes (.enum candidates pos) w next ↔ enumTokens.Takes (candidates, pos) w next :=
  Tokens.takes_map (fun k : List Literal × Nat => Tok.enum k.1 k.2) (fun _ _ => rfl)
    (fun _ => rfl) (candidates, pos) w next

theorem rfc_next {d : Doc} (h : d.Ok rfc8259 v next) : d.Ok rfc8259 v' next' := by
  cases d <;> exact h

theorem literal_bytes_ne (c : Literal) : ∃ b t, c.bytes = b :: t ∧ isWs b = false ∧ b ≠ 0x5D := by
  obtain ⟨d, hd, hok⟩ := c.text
  obtain ⟨b, t, hb, -, hw, hne⟩ := doc_first (doc_sim rfc_relaxed trivial hok : d.Ok relaxed () none)
  exact ⟨b, t, by rw [← hd, hb], hw, hne⟩

/-- An enum starts with a step of its literals. -/
theorem enum_start : reader.start (.enum candidates) b =
    match enumTokens.step (candidates, 0) b with
    | .stay k => some (.tok (.enum k.1 k.2))
    | .last => some .done
    | _ => none := rfl

theorem enum_token (candidates : List Literal) (w : Bytes) (next : Option UInt8) :
    reader.Token (.enum candidates) w next ↔
      ∃ d : Doc, d.bytes = w ∧ EnumLeaf candidates d next := by
  have htoken : reader.Token (.enum candidates) w next ↔
      w ≠ [] ∧ enumTokens.Takes (candidates, 0) w next := by
    cases w with
    | nil => simp [Reader.token_nil]
    | cons b u =>
      rw [Reader.token_cons]
      rw [enum_start]
      cases hs : enumTokens.step (candidates, 0) b with
      | stay k =>
        simp only [ne_eq, reduceCtorEq, not_false_eq_true, true_and, Tokens.Takes, hs]
        exact enum_tok k.1 k.2 u next
      | _ => simp [Tokens.Takes, hs]
  have hnil : ∀ c ∈ candidates, ([] : Bytes) <+: c.bytes := by simp
  have htakes := enum_takes [] w next hnil
  simp only [List.length_nil, List.nil_append] at htakes
  rw [htoken, htakes]
  constructor
  · rintro ⟨-, ⟨c, hc, rfl⟩, hn⟩
    obtain ⟨d, hd, hok⟩ := c.text
    refine ⟨d, hd, hok, ⟨c, hc, hd.symm⟩, ?_⟩
    rw [hd]
    exact hn.imp_right And.right
  · rintro ⟨d, rfl, hok, ⟨c, hc, hb⟩, hn⟩
    have hne : d.bytes ≠ [] := by
      obtain ⟨b, t, hbt, -⟩ := literal_bytes_ne c
      rw [← hb, hbt]
      simp
    exact ⟨hne, ⟨c, hc, hb⟩, hn.imp_right fun h => ⟨hne, h⟩⟩

/-! Literals, strings and numbers. -/

theorem lit_takes (expected w : Bytes) (next : Option UInt8) :
    toks.Takes (.lit expected) w next ↔ w = expected ∧ expected ≠ [] := by
  rw [Tokens.takes_map Tok.lit (fun _ _ => rfl) (fun _ => rfl)]
  induction w generalizing expected with
  | nil =>
    cases next with
    | none =>
      simp only [Tokens.Takes, litTokens, Bool.false_eq_true, false_iff]
      rintro ⟨rfl, h⟩
      exact h rfl
    | some b =>
      simp only [Tokens.Takes, litTokens]
      constructor
      · intro h
        split at h
        · cases h
        · split at h
          · cases h
          · split at h <;> cases h
      · rintro ⟨rfl, h⟩
        exact absurd rfl h
  | cons b w ih =>
    cases expected with
    | nil => simp [Tokens.Takes, litTokens]
    | cons e expected =>
      by_cases he : e = b
      · subst he
        cases expected with
        | nil => simp [Tokens.Takes, litTokens]
        | cons e' expected =>
          have hs : litTokens.step (e :: e' :: expected) e = .stay (e' :: expected) := by
            simp [litTokens]
          simp only [Tokens.Takes, hs]
          rw [ih]
          simp
      · have hs : litTokens.step (e :: expected) b = .fail := by simp [litTokens, he]
        have hne : b ≠ e := fun h => he h.symm
        simp [Tokens.Takes, hs, hne]

theorem str_takes (w : Bytes) (next : Option UInt8) :
    toks.Takes (.str (false, 0)) w next ↔ ∃ body, w = body ++ [0x22] ∧ Chars body := by
  rw [Tokens.takes_map Tok.str (fun _ _ => rfl) (fun _ => rfl), strings_take]
  simp only [pending_closed]

theorem whole_takes (h : isDigit b = true ∨ b = 0x2D) (hf : Follows next) :
    (numbers true).Takes (.opened b) w next ↔ WholeNumber (b :: w) := by
  rw [num_takes _ _ _ hf]
  constructor
  · rintro ⟨f, hs, he⟩
    obtain ⟨n, hp, hb, rfl, hw⟩ := scan_partial h hs
    exact ⟨n, partial_loose hp he.1, hw rfl, hb⟩
  · rintro ⟨n, hn, hw, hb⟩
    obtain ⟨b', t, hb', -, hs⟩ := whole_scan hn hw
    rw [hb] at hb'
    cases hb'
    refine ⟨flagsOf n, hs, (numEnds_iff hn).mpr ?_⟩
    rintro ⟨e, he, -⟩
    rw [hw.2] at he
    cases he

/-- What a number position takes. -/
def NumberLeaf (integer : Bool) (w : Bytes) (next : Option UInt8) : Prop :=
  if integer then WholeNumber w else LooseNumber w next

theorem num_takes_iff (integer : Bool) (h : isDigit b = true ∨ b = 0x2D) (hf : Follows next) :
    toks.Takes (.num integer (.opened b)) w next ↔ NumberLeaf integer (b :: w) next := by
  rw [Tokens.takes_map (Tok.num integer) (fun _ _ => rfl) (fun _ => rfl)]
  cases integer with
  | true => exact whole_takes h hf
  | false => exact number_token h hf

theorem numberLeaf_first (h : NumberLeaf integer w next) :
    ∃ b t, w = b :: t ∧ (isDigit b = true ∨ b = 0x2D) := by
  cases integer with
  | true =>
    obtain ⟨n, hn, -, rfl⟩ := h
    exact num_first hn
  | false => exact looseNumber_first h

theorem openNumber_iff : openNumber integer b = some x ↔
    (isDigit b = true ∨ b = 0x2D) ∧ x = .tok (.num integer (.opened b)) := by
  unfold openNumber
  by_cases h : b ≠ 0x2D ∧ isDigit b = false
  · simp only [if_pos h, reduceCtorEq, false_iff]
    rintro ⟨hd | hm, -⟩
    · simp [h.2] at hd
    · exact h.1 hm
  · simp only [if_neg h, Option.some.injEq]
    have hb : isDigit b = true ∨ b = 0x2D := by
      by_cases hm : b = 0x2D
      · exact .inr hm
      · refine .inl ?_
        cases hd : isDigit b with
        | true => rfl
        | false => exact absurd ⟨hm, hd⟩ h
    constructor
    · rintro rfl
      exact ⟨hb, rfl⟩
    · rintro ⟨-, rfl⟩
      rfl

theorem number_token_iff (integer : Bool) (hv : ∀ b, reader.start v b = openNumber integer b)
    (w : Bytes) (hf : Follows next) :
    reader.Token v w next ↔ NumberLeaf integer w next := by
  constructor
  · intro h
    cases w with
    | nil => exact (Reader.token_nil h).elim
    | cons b u =>
      rw [Reader.token_cons, hv] at h
      cases ho : openNumber integer b with
      | none => simp [ho] at h
      | some x =>
        obtain ⟨hb, rfl⟩ := openNumber_iff.mp ho
        rw [ho] at h
        exact (num_takes_iff integer hb hf).mp h
  · intro h
    obtain ⟨b, u, rfl, hb⟩ := numberLeaf_first h
    have ho : openNumber integer b = some (.tok (.num integer (.opened b))) :=
      openNumber_iff.mpr ⟨hb, rfl⟩
    rw [Reader.token_cons, hv, ho]
    exact (num_takes_iff integer hb hf).mpr h

theorem num_token (integer : Bool) (hv : ∀ b, reader.start v b = openNumber integer b)
    (w : Bytes) (hf : Follows next) :
    reader.Token v w next ↔ ∃ d : Doc, d.bytes = w ∧ ∃ t, d = .num t ∧ NumberLeaf integer t next := by
  rw [number_token_iff integer hv w hf]
  constructor
  · intro h
    exact ⟨.num w, rfl, w, rfl, h⟩
  · rintro ⟨_, rfl, t, rfl, h⟩
    exact h

theorem str_token (w : Bytes) (next : Option UInt8) :
    reader.Token .str w next ↔ ∃ d : Doc, d.bytes = w ∧ SchemaLeaf .str d next := by
  constructor
  · intro h
    cases w with
    | nil => exact (Reader.token_nil h).elim
    | cons b u =>
      rw [Reader.token_cons] at h
      by_cases hb : b = 0x22
      · subst hb
        obtain ⟨body, rfl, hc⟩ := (str_takes u next).mp h
        exact ⟨.str body, rfl, body, rfl, hc⟩
      · simp [reader, start, hb] at h
  · rintro ⟨_, rfl, body, rfl, hc⟩
    rw [Doc.bytes, Reader.token_cons]
    exact (str_takes _ next).mpr ⟨body, rfl, hc⟩

theorem bool_token (w : Bytes) (next : Option UInt8) :
    reader.Token .bool w next ↔ ∃ d : Doc, d.bytes = w ∧ SchemaLeaf .bool d next := by
  constructor
  · intro h
    cases w with
    | nil => exact (Reader.token_nil h).elim
    | cons b u =>
      rw [Reader.token_cons] at h
      by_cases ht : b = 0x74
      · subst ht
        obtain ⟨rfl, -⟩ := (lit_takes _ u next).mp h
        exact ⟨.lit trueBytes, rfl, .inl rfl⟩
      · by_cases hf : b = 0x66
        · subst hf
          obtain ⟨rfl, -⟩ := (lit_takes _ u next).mp h
          exact ⟨.lit falseBytes, rfl, .inr rfl⟩
        · simp [reader, start, ht, hf] at h
  · rintro ⟨_, rfl, rfl | rfl⟩
    · exact Reader.token_cons.mpr ((lit_takes _ _ next).mpr ⟨rfl, by simp⟩)
    · exact Reader.token_cons.mpr ((lit_takes _ _ next).mpr ⟨rfl, by simp⟩)

theorem null_token (w : Bytes) (next : Option UInt8) :
    reader.Token .null w next ↔ ∃ d : Doc, d.bytes = w ∧ SchemaLeaf .null d next := by
  constructor
  · intro h
    cases w with
    | nil => exact (Reader.token_nil h).elim
    | cons b u =>
      rw [Reader.token_cons] at h
      by_cases hn : b = 0x6E
      · subst hn
        obtain ⟨rfl, -⟩ := (lit_takes _ u next).mp h
        exact ⟨.lit nullBytes, rfl, rfl⟩
      · simp [reader, start, hn] at h
  · rintro ⟨_, rfl, rfl⟩
    exact Reader.token_cons.mpr ((lit_takes _ _ next).mpr ⟨rfl, by simp⟩)

theorem startAny_cases (h : startAny b = some x) :
    (b = 0x7B ∧ x = .obj anyFrame) ∨ (b = 0x5B ∧ x = .arr .any) ∨
    (b = 0x22 ∧ x = .tok (.str (false, 0))) ∨
    (∃ e es, IsLiteral (b :: e :: es) ∧ x = .tok (.lit (e :: es))) ∨
    ((isDigit b = true ∨ b = 0x2D) ∧ x = .tok (.num false (.opened b))) := by
  unfold startAny at h
  split at h
  · exact .inl ⟨‹_›, by cases h; rfl⟩
  split at h
  · exact .inr (.inl ⟨‹_›, by cases h; rfl⟩)
  split at h
  · exact .inr (.inr (.inl ⟨‹_›, by cases h; rfl⟩))
  split at h
  · rename_i hb
    cases h
    exact .inr (.inr (.inr (.inl ⟨_, _, .inl (by rw [hb]; rfl), rfl⟩)))
  split at h
  · rename_i hb
    cases h
    exact .inr (.inr (.inr (.inl ⟨_, _, .inr (.inl (by rw [hb]; rfl)), rfl⟩)))
  split at h
  · rename_i hb
    cases h
    exact .inr (.inr (.inr (.inl ⟨_, _, .inr (.inr (by rw [hb]; rfl)), rfl⟩)))
  split at h
  · exact .inr (.inr (.inr (.inr (openNumber_iff.mp h))))
  · cases h

theorem startAny_num (h : isDigit b = true ∨ b = 0x2D) : startAny b = openNumber false b := by
  have hne : b ≠ 0x7B ∧ b ≠ 0x5B ∧ b ≠ 0x22 ∧ b ≠ 0x74 ∧ b ≠ 0x66 ∧ b ≠ 0x6E := by
    refine ⟨?_, ?_, ?_, ?_, ?_, ?_⟩ <;> rintro rfl <;> simp [isDigit] at h
  simp [startAny, hne, h.symm]

theorem any_token (w : Bytes) (hf : Follows next) :
    reader.Token .any w next ↔ ∃ d : Doc, d.bytes = w ∧ AnyLeaf d next := by
  constructor
  · intro h
    cases w with
    | nil => exact (Reader.token_nil h).elim
    | cons b u =>
      rw [Reader.token_cons] at h
      cases hs : reader.start .any b with
      | none => simp [hs] at h
      | some x =>
        rw [hs] at h
        rcases startAny_cases hs with ⟨-, rfl⟩ | ⟨-, rfl⟩ | ⟨rfl, rfl⟩ | ⟨e, es, hl, rfl⟩ | ⟨hb, rfl⟩
        · exact h.elim
        · exact h.elim
        · obtain ⟨body, rfl, hc⟩ := (str_takes u next).mp h
          exact ⟨.str body, rfl, hc⟩
        · obtain ⟨rfl, -⟩ := (lit_takes _ u next).mp h
          exact ⟨.lit (b :: e :: es), rfl, hl⟩
        · exact ⟨.num (b :: u), rfl, (num_takes_iff false hb hf).mp h⟩
  · rintro ⟨d, rfl, hd⟩
    cases d with
    | lit w =>
      rcases hd with rfl | rfl | rfl
      all_goals exact Reader.token_cons.mpr ((lit_takes _ _ next).mpr ⟨rfl, by simp⟩)
    | num w =>
      obtain ⟨b, u, rfl, hb⟩ := looseNumber_first hd
      have hs : reader.start .any b = some (.tok (.num false (.opened b))) :=
        (startAny_num hb).trans (openNumber_iff.mpr ⟨hb, rfl⟩)
      rw [Doc.bytes, Reader.token_cons, hs]
      exact (num_takes_iff false hb hf).mpr hd
    | str body =>
      rw [Doc.bytes, Reader.token_cons]
      exact (str_takes _ next).mpr ⟨body, rfl, hd⟩
    | arr items => exact hd.elim
    | obj members => exact hd.elim

theorem container_token (hv : ∀ b, reader.start v b = none ∨ (∃ o, reader.start v b = some (.obj o)) ∨
    ∃ items, reader.start v b = some (.arr items)) : ¬ reader.Token v w next := by
  intro h
  cases w with
  | nil => exact Reader.token_nil h
  | cons b u =>
    rw [Reader.token_cons] at h
    rcases hv b with hs | ⟨o, hs⟩ | ⟨items, hs⟩ <;> simp [hs] at h

theorem leaf_token (v : Node) (w : Bytes) (hf : Follows next) :
    reader.Token v w next ↔ ∃ d : Doc, d.bytes = w ∧ SchemaLeaf v d next := by
  cases v with
  | any => exact any_token w hf
  | bool => exact bool_token w next
  | null => exact null_token w next
  | str => exact str_token w next
  | int => exact num_token true (fun _ => rfl) w hf
  | num => exact num_token false (fun _ => rfl) w hf
  | enum candidates => exact enum_token candidates w next
  | object properties required additional =>
    have h : ¬ reader.Token (.object properties required additional) w next := by
      refine container_token fun b => ?_
      by_cases hb : b = 0x7B
      · exact .inr (.inl ⟨_, by simp [reader, start, hb]; rfl⟩)
      · exact .inl (by simp [reader, start, hb])
    simp [h, SchemaLeaf]
  | array items =>
    have h : ¬ reader.Token (.array items) w next := by
      refine container_token fun b => ?_
      by_cases hb : b = 0x5B
      · exact .inr (.inr ⟨_, by simp [reader, start, hb]; rfl⟩)
      · exact .inl (by simp [reader, start, hb])
    simp [h, SchemaLeaf]

/-! Keys. -/

theorem get_isSome {name : Name} {fields : List (Name × α)} :
    Map.containsKey name fields = true ↔ ∃ x, (name, x) ∈ fields := by
  simp only [Map.containsKey]
  induction fields with
  | nil => simp [Map.get]
  | cons f fields ih =>
    obtain ⟨n, y⟩ := f
    simp only [Map.get]
    by_cases h : n = name
    · subst h
      simp
    · simp only [if_neg h, ih, List.mem_cons, Prod.mk.injEq]
      constructor
      · rintro ⟨x, hx⟩
        exact ⟨x, .inr hx⟩
      · rintro ⟨x, ⟨rfl, -⟩ | hx⟩
        · exact absurd rfl h
        · exact ⟨x, hx⟩

theorem allows_iff {o : ObjectFrame} {name : Name} : o.allows name = true ↔
    (o.additional = true ∨ ∃ x, (name, x) ∈ o.nodeProps) ∧ name ∉ o.seen := by
  simp [ObjectFrame.allows, get_isSome]

/-- Every prefix of a key the object will allow gets past the prefix guard. -/
theorem allows_leadsTo {o : ObjectFrame} (h : o.allows (p ++ q) = true) :
    (o.additional || o.leadsTo p) = true := by
  obtain ⟨hk, hseen⟩ := allows_iff.mp h
  rcases hk with hadd | ⟨x, hx⟩
  · simp [hadd]
  · have hlead : o.leadsTo p = true := by
      simp only [ObjectFrame.leadsTo, List.any_eq_true, Bool.and_eq_true, Bool.not_eq_true',
        List.contains_eq_mem, decide_eq_false_iff_not]
      exact ⟨(p ++ q, x), hx, hseen, by simp [List.isPrefixOf_iff_prefix]⟩
    simp [hlead]

theorem keyText_nil : keyText [] = [] := rfl

theorem keyText_ws (hb : isWs b = true) : keyText (b :: key) = keyText key := by
  simp [keyText, hb]

theorem keyText_cons (hb : isWs b = false) : keyText (b :: key) = byteChar b :: keyText key := by
  simp [keyText, hb]

theorem keyBytes_cons : KeyBytes (b :: key) ↔
    (b ≠ 0x22 ∧ b ≠ 0x5C ∧ (isWs b = true ∨ 0x20 ≤ b)) ∧ KeyBytes key := by
  simp [KeyBytes]

theorem keyByte_cases (o : ObjectFrame) (b : UInt8) :
    (isWs b = true ∧ keyByte o b = .stay o) ∨
    (b = 0x22 ∧ keyByte o b = if o.allows o.pendingKey then
        .done (see o o.pendingKey) (see o o.pendingKey).valueNode else .fail) ∨
    (isWs b = false ∧ b ≠ 0x22 ∧ b ≠ 0x5C ∧ 0x20 ≤ b ∧
      keyByte o b = if o.additional || o.leadsTo (o.pendingKey ++ [byteChar b]) then
        .stay { o with pendingKey := o.pendingKey ++ [byteChar b] } else .fail) ∨
    (isWs b = false ∧ b ≠ 0x22 ∧ (b = 0x5C ∨ b < 0x20) ∧ keyByte o b = .fail) := by
  unfold keyByte
  cases hw : isWs b with
  | true => exact .inl ⟨rfl, rfl⟩
  | false =>
    by_cases hq : b = 0x22
    · refine .inr (.inl ⟨hq, ?_⟩)
      cases h : o.allows o.pendingKey <;> simp [hq, see]
    · by_cases hs : b = 0x5C ∨ b < 0x20
      · refine .inr (.inr (.inr ⟨rfl, hq, hs, ?_⟩))
        simp [hq, hs]
      · have hs' : b ≠ 0x5C ∧ 0x20 ≤ b :=
          ⟨fun h => hs (.inl h), UInt8.not_lt.mp fun h => hs (.inr h)⟩
        refine .inr (.inr (.inl ⟨rfl, hq, hs'.1, hs'.2, ?_⟩))
        cases h : (o.additional || o.leadsTo (o.pendingKey ++ [byteChar b])) <;> simp [hq, hs]

/-- What an open key takes, after the text already pending. -/
theorem key_takes (o o' : ObjectFrame) (key : Bytes) (v : Node) :
    reader.KeyTakes o key o' v ↔ KeyBytes key ∧ o.allows (o.pendingKey ++ keyText key) = true ∧
      o' = see o (o.pendingKey ++ keyText key) ∧ v = o'.valueNode := by
  induction key generalizing o with
  | nil =>
    simp only [Reader.KeyTakes, reader, keyText_nil, List.append_nil]
    have hq : keyByte o 0x22 = if o.allows o.pendingKey then
        .done (see o o.pendingKey) (see o o.pendingKey).valueNode else .fail := by
      rcases keyByte_cases o 0x22 with ⟨hw, -⟩ | ⟨-, h⟩ | ⟨-, h, -⟩ | ⟨-, h, -⟩
      · cases hw
      · exact h
      · exact absurd rfl h
      · exact absurd rfl h
    rw [hq]
    cases ha : o.allows o.pendingKey with
    | true =>
      simp only [if_true, KeyStep.done.injEq, KeyBytes, List.not_mem_nil, false_implies,
        implies_true, true_and]
      constructor
      · rintro ⟨rfl, rfl⟩
        exact ⟨rfl, rfl⟩
      · rintro ⟨rfl, rfl⟩
        exact ⟨rfl, rfl⟩
    | false => simp
  | cons b key ih =>
    simp only [Reader.KeyTakes, keyBytes_cons]
    have hkey : reader.key o b = keyByte o b := rfl
    rw [hkey]
    rcases keyByte_cases o b with ⟨hw, hs⟩ | ⟨hq, hs⟩ | ⟨hw, hq, hb, hge, hs⟩ | ⟨hw, hq, hb, hs⟩
    · have hb : b ≠ 0x22 ∧ b ≠ 0x5C := by
        refine ⟨?_, ?_⟩ <;> rintro rfl <;> cases hw
      simp only [hs, KeyStep.stay.injEq, exists_eq_left', keyText_ws hw, hw, hb, ne_eq,
        not_false_eq_true, true_or, and_self, true_and]
      exact ih o
    · constructor
      · rintro ⟨k', h, -⟩
        rw [hs] at h
        split at h <;> cases h
      · rintro ⟨⟨⟨h, -⟩, -⟩, -⟩
        exact absurd hq h
    · rw [hs, keyText_cons hw]
      have happ : o.pendingKey ++ byteChar b :: keyText key =
          (o.pendingKey ++ [byteChar b]) ++ keyText key := by simp
      constructor
      · rintro ⟨k', h, hk⟩
        split at h
        · cases h
          obtain ⟨hkb, hal, ho, hv⟩ := (ih _).mp hk
          rw [happ]
          exact ⟨⟨⟨hq, hb, .inr hge⟩, hkb⟩, hal, ho, hv⟩
        · cases h
      · rintro ⟨⟨-, hkb⟩, hal, ho, hv⟩
        rw [happ] at hal ho
        rw [if_pos (allows_leadsTo hal)]
        exact ⟨_, rfl, (ih _).mpr ⟨hkb, hal, ho, hv⟩⟩
    · constructor
      · rintro ⟨k', h, -⟩
        rw [hs] at h
        cases h
      · rintro ⟨⟨⟨-, hne, h⟩, -⟩, -⟩
        rcases hb with rfl | hlt
        · exact absurd rfl hne
        · rcases h with h | h
          · simp [h] at hw
          · exact absurd hlt (UInt8.not_lt.mpr h)

/-! The reader and the grammar. -/

theorem start_enum (h : reader.start (.enum candidates) b = some x) :
    (∃ c ∈ candidates, c.bytes[0]? = some b) ∧ (x = .done ∨ ∃ t, x = .tok t) := by
  rw [enum_start] at h
  have hne : ¬ (SchemaState.alive candidates 0 b).isEmpty = true := by
    intro he
    have hs : enumTokens.step (candidates, 0) b = .fail := if_pos he
    rw [hs] at h
    cases h
  refine ⟨?_, ?_⟩
  · rw [List.isEmpty_iff] at hne
    obtain ⟨c, hc⟩ := List.exists_mem_of_ne_nil _ hne
    exact ⟨c, mem_alive.mp hc⟩
  · split at h
    · cases h
      exact .inr ⟨_, rfl⟩
    · cases h
      exact .inl rfl
    · cases h

theorem digit_first (h : isDigit b = true ∨ b = 0x2D) : isWs b = false ∧ b ≠ 0x5D := by
  rcases h with hd | rfl
  · refine ⟨digit_not_ws hd, ?_⟩
    rintro rfl
    cases hd
  · exact ⟨rfl, by decide⟩

theorem start_byte {x y : Open} (h : (if b ≠ b₀ then none else some y) = some x)
    (hb : isWs b₀ = false ∧ b₀ ≠ 0x5D) : isWs b = false ∧ b ≠ 0x5D := by
  split at h
  · cases h
  · rename_i he
    rw [Decidable.not_not.mp he]
    exact hb

theorem start_first (v : Node) (h : reader.start v b = some x) : isWs b = false ∧ b ≠ 0x5D := by
  cases v with
  | any =>
    rcases startAny_cases h with ⟨rfl, -⟩ | ⟨rfl, -⟩ | ⟨rfl, -⟩ | ⟨e, es, hl, -⟩ | ⟨hd, -⟩
    · exact ⟨rfl, by decide⟩
    · exact ⟨rfl, by decide⟩
    · exact ⟨rfl, by decide⟩
    · rcases hl with hl | hl | hl <;> cases hl <;> exact ⟨rfl, by decide⟩
    · exact digit_first hd
  | int => exact digit_first (openNumber_iff.mp h).1
  | num => exact digit_first (openNumber_iff.mp h).1
  | enum candidates =>
    obtain ⟨⟨c, hc, hb⟩, -⟩ := start_enum h
    obtain ⟨b', t, hbt, hw, hne⟩ := literal_bytes_ne c
    rw [hbt] at hb
    cases hb
    exact ⟨hw, hne⟩
  | bool =>
    simp only [reader, start] at h
    split at h
    · rename_i hb
      subst hb
      exact ⟨rfl, by decide⟩
    split at h
    · rename_i hb
      subst hb
      exact ⟨rfl, by decide⟩
    · cases h
  | null =>
    simp only [reader, start] at h
    split at h
    · rename_i hb
      subst hb
      exact ⟨rfl, by decide⟩
    · cases h
  | str => exact start_byte h (by decide)
  | object properties required additional => exact start_byte h (by decide)
  | array items => exact start_byte h (by decide)

theorem reader_recognises : Recognises reader schemaGrammar where
  first v _ _ := start_first v
  leaf v w _ hf := leaf_token v w hf
  arr v b v' := by
    constructor
    · intro h
      cases v with
      | any =>
        rcases startAny_cases h with ⟨-, h⟩ | ⟨hb, h⟩ | ⟨-, h⟩ | ⟨_, _, -, h⟩ | ⟨-, h⟩
        all_goals cases h
        exact ⟨hb, .inr ⟨rfl, rfl⟩⟩
      | array items =>
        simp only [reader, start] at h
        split at h
        · cases h
        · rename_i hb
          cases h
          exact ⟨Decidable.not_not.mp hb, .inl rfl⟩
      | enum candidates => rcases (start_enum h).2 with h | ⟨t, h⟩ <;> cases h
      | int => cases (openNumber_iff.mp h).2
      | num => cases (openNumber_iff.mp h).2
      | bool =>
        simp only [reader, start] at h
        split at h
        · cases h
        · split at h <;> cases h
      | _ =>
        simp only [reader, start] at h
        split at h <;> cases h
    · rintro ⟨rfl, rfl | ⟨rfl, rfl⟩⟩ <;> rfl
  obj v b o := by
    constructor
    · intro h
      cases v with
      | any =>
        rcases startAny_cases h with ⟨hb, h⟩ | ⟨-, h⟩ | ⟨-, h⟩ | ⟨_, _, -, h⟩ | ⟨-, h⟩
        all_goals cases h
        exact ⟨hb, .inr ⟨rfl, rfl⟩⟩
      | object properties required additional =>
        simp only [reader, start] at h
        split at h
        · cases h
        · rename_i hb
          cases h
          exact ⟨Decidable.not_not.mp hb, .inl ⟨_, _, _, rfl, rfl⟩⟩
      | enum candidates => rcases (start_enum h).2 with h | ⟨t, h⟩ <;> cases h
      | int => cases (openNumber_iff.mp h).2
      | num => cases (openNumber_iff.mp h).2
      | bool =>
        simp only [reader, start] at h
        split at h
        · cases h
        · split at h <;> cases h
      | _ =>
        simp only [reader, start] at h
        split at h <;> cases h
    · rintro ⟨rfl, ⟨_, _, _, rfl, rfl⟩ | ⟨rfl, rfl⟩⟩ <;> rfl
  quote k b o v h := by
    have hk : keyByte k b = .done o v := h
    rcases keyByte_cases k b with ⟨-, hs⟩ | ⟨hb, -⟩ | ⟨-, -, -, -, hs⟩ | ⟨-, -, -, hs⟩
    · rw [hs] at hk
      cases hk
    · exact hb
    · rw [hs] at hk
      split at hk <;> cases hk
    · rw [hs] at hk
      cases hk
  entry o body o' v := by
    exact key_takes { o with pendingKey := [] } o' body v
  close _ := Iff.rfl
  comma _ := Iff.rfl
  trailing := rfl

/-- `SchemaState` accepts exactly the texts of its grammar. -/
theorem accepts_iff_text (toVec : Value → Literal) (schema : Value) (w : Bytes) :
    (SchemaState.new toVec schema).Accepts w ↔ Text schemaGrammar (compile toVec schema) w := by
  have hrep : Rep (compile toVec schema) (.value (compile toVec schema) [])
      (SchemaState.new toVec schema) := .root false
  rw [accepts_iff_acc hrep w, Reader.acc_iff_text reader_recognises]

end Flambeau.Runtime.SchemaReader
