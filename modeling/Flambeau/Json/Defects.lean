import Flambeau.Json.Unambiguous

namespace Flambeau.Json

theorem sign_cancel {s s' : Option Bool} {ds ds' : Bytes} (hd : Digits ds) (hd' : Digits ds')
    (h : signBytes s ++ ds = signBytes s' ++ ds') : s = s' ∧ ds = ds' := by
  have hne : ∀ {m : Bool} {ds ds' : Bytes}, Digits ds' → signBytes (some m) ++ ds ≠ ds' := by
    rintro m ds _ hds rfl
    cases m <;> exact absurd (digits_cons.mp hds).1 (by decide)
  cases s with
  | none =>
    cases s' with
    | none => exact ⟨rfl, h⟩
    | some m' => exact absurd h.symm (hne hd)
  | some m =>
    cases s' with
    | none => exact absurd h (hne hd')
    | some m' => cases m <;> cases m' <;> cases h <;> exact ⟨rfl, rfl⟩

theorem exp_inj {e e' : Option Expo} (h : ∀ x, e = some x → Digits x.digits)
    (h' : ∀ x, e' = some x → Digits x.digits) (hb : expBytes e = expBytes e') : e = e' := by
  cases e with
  | none =>
    cases e' with
    | none => rfl
    | some e' => cases hb
  | some e =>
    cases e' with
    | none => cases hb
    | some e' =>
      obtain ⟨upper, sign, digits⟩ := e
      obtain ⟨upper', sign', digits'⟩ := e'
      simp only [expBytes_some, Expo.bytes, List.cons.injEq] at hb
      obtain ⟨hmark, hrest⟩ := hb
      obtain ⟨rfl, rfl⟩ := sign_cancel (h _ rfl) (h' _ rfl) hrest
      have hu : upper = upper' := by cases upper <;> cases upper' <;> simp_all
      rw [hu]

theorem stops_exp (e : Option Expo) : Stops isDigit (expBytes e) := by
  cases e with
  | none =>
    intro b hb
    cases hb
  | some e =>
    refine stops_cons ?_
    cases e.upper <;> rfl

theorem frac_inj {f f' : Option Bytes} {e e' : Option Expo} (h : ∀ ds, f = some ds → Digits ds)
    (h' : ∀ ds, f' = some ds → Digits ds)
    (hb : fracBytes f ++ expBytes e = fracBytes f' ++ expBytes e') :
    f = f' ∧ expBytes e = expBytes e' := by
  have hne : ∀ {e : Option Expo} {w : Bytes}, expBytes e ≠ 0x2E :: w := by
    intro e w hw
    cases e with
    | none => cases hw
    | some e =>
      simp only [expBytes_some, Expo.bytes, List.cons.injEq] at hw
      cases hu : e.upper <;> simp [hu] at hw
  cases f with
  | none =>
    cases f' with
    | none => exact ⟨rfl, hb⟩
    | some ds' => exact absurd hb hne
  | some ds =>
    cases f' with
    | none => exact absurd hb.symm hne
    | some ds' =>
      obtain ⟨rfl, he⟩ := span_cancel (h ds rfl) (h' ds' rfl) (stops_exp e) (stops_exp e')
        (List.cons.inj hb).2
      exact ⟨rfl, he⟩

theorem stops_frac (f : Option Bytes) (e : Option Expo) :
    Stops isDigit (fracBytes f ++ expBytes e) := by
  cases f with
  | none => exact stops_exp e
  | some ds => exact stops_cons rfl

/-- The bytes of a number determine its parts. -/
theorem num_inj {n n' : Num} (h : n.Loose) (h' : n'.Loose) (hb : n.bytes = n'.bytes) : n = n' := by
  obtain ⟨minus, int, frac, exp⟩ := n
  obtain ⟨minus', int', frac', exp'⟩ := n'
  obtain ⟨⟨hi, hne⟩, hf, he⟩ := h
  obtain ⟨⟨hi', hne'⟩, hf', he'⟩ := h'
  have hrest : minus = minus' ∧
      int ++ (fracBytes frac ++ expBytes exp) = int' ++ (fracBytes frac' ++ expBytes exp') := by
    have hminus : ∀ {ds w v : Bytes}, Digits ds → ds ≠ [] → ds ++ w ≠ 0x2D :: v := by
      intro ds w v hds hd hw
      cases ds with
      | nil => exact hd rfl
      | cons d ds =>
        obtain ⟨rfl, -⟩ := List.cons.inj hw
        cases (digits_cons.mp hds).1
    cases minus with
    | true =>
      cases minus' with
      | true => exact ⟨rfl, (List.cons.inj hb).2⟩
      | false => exact absurd (show int' ++ _ = 0x2D :: _ from hb.symm) (hminus hi' hne')
    | false =>
      cases minus' with
      | true => exact absurd (show int ++ _ = 0x2D :: _ from hb) (hminus hi hne)
      | false => exact ⟨rfl, hb⟩
  obtain ⟨rfl, hint⟩ := hrest
  obtain ⟨rfl, hfrac⟩ := span_cancel hi hi' (stops_frac frac exp) (stops_frac frac' exp') hint
  obtain ⟨rfl, hexp⟩ := frac_inj hf hf' hfrac
  obtain rfl := exp_inj he he' hexp
  rfl

/-- A digit run with a leading zero, a dot or an exponent without digits. -/
def Num.IllFormed (n : Num) : Prop :=
  (∃ d ds, n.int = 0x30 :: d :: ds) ∨ n.frac = some [] ∨ n.openExp

theorem rfc_iff_wellFormed {n : Num} (h : n.Loose) : n.Rfc ↔ ¬ n.IllFormed := by
  constructor
  · rintro hr (⟨d, ds, hi⟩ | hf | ho)
    · cases hr.no_leading_zero _ hi
    · exact hr.frac_digits hf
    · exact hr.exp_digits ho
  · intro hn
    refine ⟨h, ?_, fun hf => hn (.inr (.inl hf)), fun ho => hn (.inr (.inr ho))⟩
    intro ds hi
    cases ds with
    | nil => rfl
    | cons d ds => exact absurd (.inl ⟨d, ds, hi⟩) hn

/-- A number token outside RFC 8259. -/
def IllFormedNumber (w : Bytes) : Prop := ∃ n : Num, n.Loose ∧ n.bytes = w ∧ n.IllFormed

/-- A string body with a raw tab or line end, or whitespace inside an escape. -/
inductive Broken : Bool → Nat → Bytes → Prop where
  | control : isWs b = true → b ≠ 0x20 → Broken escape u (b :: t)
  | split : isWs b = true → escape = true ∨ 0 < u → Broken escape u (b :: t)
  | hex : isHexDigit b = true → Broken escape u t → Broken escape (u + 1) (b :: t)
  | escaped : isEscape b = true → Broken false 0 t → Broken true 0 (b :: t)
  | unicode : Broken false 4 t → Broken true 0 (0x75 :: t)
  | backslash : Broken true 0 t → Broken false 0 (0x5C :: t)
  | plain : 0x20 ≤ b → b ≠ 0x22 → b ≠ 0x5C → Broken false 0 t → Broken false 0 (b :: t)

mutual

/-- Something in the tree that only a relaxed reader takes: whitespace inside a
literal, a broken string or key, a number out of form, a trailing comma. -/
def Doc.Defective : Doc → Prop
  | .lit w => ∃ b ∈ w, isWs b = true
  | .num w => IllFormedNumber w
  | .str body => Broken false 0 body
  | .arr items => items.Defective false
  | .obj members => members.Defective false

def Items.Defective : Items → Bool → Prop
  | .close _, comma => comma = true
  | .last _ d _, _ => d.Defective
  | .more _ d _ rest, _ => d.Defective ∨ rest.Defective true

def Members.Defective : Members → Bool → Prop
  | .close _, comma => comma = true
  | .last _ key _ _ d _, _ => Broken false 0 key ∨ d.Defective
  | .more _ key _ _ d _ rest, _ => Broken false 0 key ∨ d.Defective ∨ rest.Defective true

end

theorem literal_not_defective (h : IsLiteral w) : ¬ ∃ b ∈ w, isWs b = true := by
  rcases h with rfl | rfl | rfl <;> decide

theorem spread_literal (h : Spread es t) (hn : ∀ b ∈ t, isWs b = false) : t = es := by
  induction h with
  | nil => rfl
  | ws hb => simp [hb] at hn
  | take _ _ ih => rw [ih (fun b hb => hn b (List.mem_cons_of_mem _ hb))]

theorem literal_iff (h : SpreadLiteral w) : IsLiteral w ↔ ¬ ∃ b ∈ w, isWs b = true := by
  constructor
  · exact literal_not_defective
  · intro hn
    obtain ⟨e, es, t, hl, rfl, hs⟩ := h
    have ht : t = es := by
      refine spread_literal hs ?_
      intro b hb
      cases hw : isWs b with
      | false => rfl
      | true => exact absurd ⟨b, List.mem_cons_of_mem e hb, hw⟩ hn
    rw [ht]
    exact hl

theorem number_iff (h : LooseNumber w next) :
    (∃ n : Num, n.Rfc ∧ n.bytes = w) ↔ ¬ IllFormedNumber w := by
  constructor
  · rintro ⟨n, hn, rfl⟩ ⟨n', hl, hb, hi⟩
    obtain rfl := num_inj hl hn.toLoose hb
    exact (rfc_iff_wellFormed hl).mp hn hi
  · intro hn
    obtain ⟨n, hl, rfl, -⟩ := h
    exact ⟨n, (rfc_iff_wellFormed hl).mpr (fun hi => hn ⟨n, hl, rfl, hi⟩), rfl⟩

/-- What the bytes before left open is well formed, and characters follow. -/
def Pending (escape : Bool) (u : Nat) (t : Bytes) : Prop :=
  ∃ hs r, t = hs ++ r ∧ hs.length = u ∧ (∀ b ∈ hs, isHexDigit b = true) ∧
    if escape then Chars (0x5C :: r) else Chars r

theorem chars_unicode {hs : Bytes} (hl : hs.length = 4) (hx : ∀ b ∈ hs, isHexDigit b = true)
    (h : Chars r) : Chars (0x5C :: 0x75 :: (hs ++ r)) := by
  match hs, hl with
  | [a, b, c, d], _ =>
    exact .unicode (hx a (by simp)) (hx b (by simp)) (hx c (by simp)) (hx d (by simp)) h

theorem body_pending (h : Body escape u t) (hn : ¬ Broken escape u t) : Pending escape u t := by
  induction h with
  | nil => exact ⟨[], [], rfl, rfl, by simp, .nil⟩
  | @ws b escape u t hb _ ih =>
    by_cases h20 : b = 0x20
    · by_cases hopen : escape = true ∨ 0 < u
      · exact absurd (.split hb hopen) hn
      · obtain rfl : escape = false := by
          cases escape with
          | false => rfl
          | true => exact absurd (.inl rfl) hopen
        obtain rfl : u = 0 := by omega
        subst h20
        obtain ⟨hs, r, rfl, hl, -, hr⟩ := ih (fun ht => hn (.plain (by decide) (by decide) (by decide) ht))
        obtain rfl := List.length_eq_zero_iff.mp hl
        exact ⟨[], _, rfl, rfl, by simp, .plain (by decide) (by decide) (by decide) hr⟩
    · exact absurd (.control hb h20) hn
  | @hex b escape u t hx _ ih =>
    obtain ⟨hs, r, rfl, hl, hall, hr⟩ := ih (fun ht => hn (.hex hx ht))
    refine ⟨b :: hs, r, rfl, by simp [hl], ?_, hr⟩
    intro c hc
    rcases List.mem_cons.mp hc with rfl | hc
    · exact hx
    · exact hall c hc
  | escaped he _ ih =>
    obtain ⟨hs, r, rfl, hl, -, hr⟩ := ih (fun ht => hn (.escaped he ht))
    obtain rfl := List.length_eq_zero_iff.mp hl
    exact ⟨[], _, rfl, rfl, by simp, .escape he hr⟩
  | unicode _ ih =>
    obtain ⟨hs, r, rfl, hl, hall, hr⟩ := ih (fun ht => hn (.unicode ht))
    exact ⟨[], _, rfl, rfl, by simp, chars_unicode hl hall hr⟩
  | backslash _ ih =>
    obtain ⟨hs, r, rfl, hl, -, hr⟩ := ih (fun ht => hn (.backslash ht))
    obtain rfl := List.length_eq_zero_iff.mp hl
    exact ⟨[], _, rfl, rfl, by simp, hr⟩
  | plain hge hq hs _ ih =>
    obtain ⟨hs', r, rfl, hl, -, hr⟩ := ih (fun ht => hn (.plain hge hq hs ht))
    obtain rfl := List.length_eq_zero_iff.mp hl
    exact ⟨[], _, rfl, rfl, by simp, .plain hge hq hs hr⟩

theorem broken_backslash (h : Broken false 0 (0x5C :: t)) : Broken true 0 t := by
  cases h with
  | control hb => cases hb
  | split hb => cases hb
  | backslash ht => exact ht
  | plain _ _ hs => exact absurd rfl hs

theorem broken_hex (h : Broken escape (u + 1) (b :: t)) (hx : isHexDigit b = true) :
    Broken escape u t := by
  cases h with
  | control hb => simp [hexDigit_not_ws hx] at hb
  | split hb => simp [hexDigit_not_ws hx] at hb
  | hex _ ht => exact ht

theorem chars_not_broken (h : Chars t) : ¬ Broken false 0 t := by
  induction h with
  | nil => intro hb; cases hb
  | @plain b t hge hq hs _ ih =>
    intro hb
    cases hb with
    | control hw hne =>
      rcases ws_cases hw with rfl | rfl | rfl | rfl
      · exact hne rfl
      all_goals exact absurd hge (by decide)
    | split _ ho => simp at ho
    | backslash => exact hs rfl
    | plain _ _ _ ht => exact ih ht
  | escape he _ ih =>
    intro hb
    cases broken_backslash hb with
    | control hw => simp [escape_not_ws he] at hw
    | split hw => simp [escape_not_ws he] at hw
    | escaped _ ht => exact ih ht
    | unicode => cases he
  | unicode ha hb hc hd _ ih =>
    intro hbr
    cases broken_backslash hbr with
    | control hw => cases hw
    | split hw => cases hw
    | escaped he => cases he
    | unicode ht => exact ih (broken_hex (broken_hex (broken_hex (broken_hex ht ha) hb) hc) hd)

theorem chars_iff (h : Body false 0 t) : Chars t ↔ ¬ Broken false 0 t := by
  constructor
  · exact chars_not_broken
  · intro hn
    obtain ⟨hs, r, rfl, hl, -, hr⟩ := body_pending h hn
    obtain rfl := List.length_eq_zero_iff.mp hl
    exact hr

mutual

/-- A tree of the relaxed grammar is one of RFC 8259 unless it is defective. -/
theorem doc_rfc_iff : ∀ {d : Doc} {n : Option UInt8}, d.Ok relaxed () n →
    (d.Ok rfc8259 () n ↔ ¬ d.Defective)
  | .lit _, _, h => literal_iff h
  | .num _, _, h => number_iff h
  | .str _, _, h => chars_iff h
  | .arr items, _, h => by
    obtain ⟨_, _, hi⟩ := h.resolve_left id
    have hiff := items_rfc_iff false hi
    constructor
    · intro hd
      obtain ⟨_, _, hi'⟩ := hd.resolve_left id
      exact hiff.mp hi'
    · intro hn
      exact .inr ⟨(), trivial, hiff.mpr hn⟩
  | .obj members, _, h => by
    obtain ⟨_, _, hm⟩ := h.resolve_left id
    have hiff := members_rfc_iff false hm
    constructor
    · intro hd
      obtain ⟨_, _, hm'⟩ := hd.resolve_left id
      exact hiff.mp hm'
    · intro hn
      exact .inr ⟨(), trivial, hiff.mpr hn⟩

theorem items_rfc_iff : ∀ {i : Items} (comma : Bool) {c : Bool}, i.Ok relaxed () c →
    (i.Ok rfc8259 () (!comma) ↔ ¬ i.Defective comma)
  | .close pad, comma, _, h => by
    have hpad : IsWs pad := h.1
    simp [Items.Ok, Items.Defective, hpad]
  | .last pre d post, _, _, h => by
    obtain ⟨hpre, hd, hpost⟩ := h
    simp only [Items.Ok, Items.Defective, hpre, hpost, true_and, and_true]
    exact doc_rfc_iff hd
  | .more pre d post rest, _, _, h => by
    obtain ⟨hpre, hd, hpost, hrest⟩ := h
    simp only [Items.Ok, Items.Defective, hpre, hpost, true_and, not_or]
    exact and_congr (doc_rfc_iff hd) (items_rfc_iff true hrest)

theorem members_rfc_iff : ∀ {m : Members} (comma : Bool) {c : Bool}, m.Ok relaxed () c →
    (m.Ok rfc8259 () (!comma) ↔ ¬ m.Defective comma)
  | .close pad, comma, _, h => by
    have hpad : IsWs pad := h.1
    simp [Members.Ok, Members.Defective, hpad, rfc8259]
  | .last pre key mid sep d post, _, _, h => by
    obtain ⟨hpre, hmid, hsep, hpost, _, _, hk, hd, -⟩ := h
    simp only [Members.Ok, Members.Defective, hpre, hmid, hsep, hpost, true_and, not_or]
    rw [← chars_iff hk, ← doc_rfc_iff hd]
    exact ⟨fun ⟨_, _, hc, hd', _⟩ => ⟨hc, hd'⟩, fun ⟨hc, hd'⟩ => ⟨(), (), hc, hd', trivial⟩⟩
  | .more pre key mid sep d post rest, _, _, h => by
    obtain ⟨hpre, hmid, hsep, hpost, _, _, hk, hd, -, hrest⟩ := h
    simp only [Members.Ok, Members.Defective, hpre, hmid, hsep, hpost, true_and, not_or]
    rw [← chars_iff hk, ← doc_rfc_iff hd, ← members_rfc_iff true hrest]
    exact ⟨fun ⟨_, _, hc, hd', _, hr⟩ => ⟨hc, hd', hr⟩,
      fun ⟨hc, hd', hr⟩ => ⟨(), (), hc, hd', trivial, hr⟩⟩

end

/-- A reading of RFC 8259 is one of the relaxed grammar. -/
def Reading.relax (r : Reading rfc8259 () w) : Reading relaxed () w :=
  ⟨r.pre, r.doc, r.post, r.pre_ws, doc_sim rfc_relaxed trivial r.ok, r.post_ws, r.bytes⟩

/-- A defective reading leaves no other. -/
theorem defective_not_text (r : Reading relaxed () w) (hd : r.doc.Defective) : ¬ IsText w := by
  rintro ⟨r'⟩
  obtain ⟨hdoc, -⟩ := reading_unique r r'.relax
  have hok : r'.doc.Ok relaxed () r'.post.head? := r'.relax.ok
  rw [hdoc] at hd
  exact (doc_rfc_iff hok).mp r'.ok hd

theorem text_of_not_defective (r : Reading relaxed () w) (hd : ¬ r.doc.Defective) : IsText w :=
  ⟨⟨r.pre, r.doc, r.post, r.pre_ws, (doc_rfc_iff r.ok).mpr hd, r.post_ws, r.bytes⟩⟩

end Flambeau.Json
