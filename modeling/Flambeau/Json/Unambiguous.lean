import Flambeau.Json.Relaxed

namespace Flambeau.Json

/-! The bytes of a token decide where it ends. -/

/-- The text does not go on with a byte of the class. -/
def Stops (q : UInt8 → Bool) (r : Bytes) : Prop := ∀ b, r.head? = some b → q b = false

theorem span_cancel {q : UInt8 → Bool} {p p' r r' : Bytes} (hp : ∀ b ∈ p, q b = true)
    (hp' : ∀ b ∈ p', q b = true) (hr : Stops q r) (hr' : Stops q r') (h : p ++ r = p' ++ r') :
    p = p' ∧ r = r' := by
  induction p generalizing p' with
  | nil =>
    cases p' with
    | nil => exact ⟨rfl, h⟩
    | cons b p' =>
      simp only [List.nil_append] at h
      have hb := hr b (by rw [h]; rfl)
      simp [hp' b List.mem_cons_self] at hb
  | cons b p ih =>
    cases p' with
    | nil =>
      simp only [List.nil_append] at h
      have hb := hr' b (by rw [← h]; rfl)
      simp [hp b List.mem_cons_self] at hb
    | cons c p' =>
      obtain ⟨rfl, htail⟩ := List.cons.inj h
      obtain ⟨rfl, hrr⟩ := ih (fun x hx => hp x (List.mem_cons_of_mem b hx))
        (fun x hx => hp' x (List.mem_cons_of_mem b hx)) htail
      exact ⟨rfl, hrr⟩

theorem ws_cancel (hp : IsWs p) (hp' : IsWs p') (hr : Stops isWs r) (hr' : Stops isWs r')
    (h : p ++ r = p' ++ r') : p = p' ∧ r = r' :=
  span_cancel hp hp' hr hr' h

theorem stops_cons (h : q b = false) : Stops q (b :: r) := by
  intro c hc
  cases hc
  exact h

theorem spread_cancel {es t t' r r' : Bytes} (h : Spread es t) (h' : Spread es t')
    (he : t ++ r = t' ++ r') : t = t' ∧ r = r' := by
  induction h generalizing t' with
  | nil =>
    cases h'
    exact ⟨rfl, he⟩
  | ws hb _ ih =>
    cases h' with
    | ws hb' ht' =>
      obtain ⟨rfl, htail⟩ := List.cons.inj he
      obtain ⟨rfl, hr⟩ := ih ht' htail
      exact ⟨rfl, hr⟩
    | take hb' ht' =>
      obtain ⟨rfl, he⟩ := List.cons.inj he
      simp [hb] at hb'
  | take hb _ ih =>
    cases h' with
    | ws hb' ht' =>
      obtain ⟨rfl, he⟩ := List.cons.inj he
      simp [hb] at hb'
    | take hb' ht' =>
      obtain ⟨-, he⟩ := List.cons.inj he
      obtain ⟨rfl, hr⟩ := ih ht' he
      exact ⟨rfl, hr⟩

theorem literal_cancel (h : SpreadLiteral t) (h' : SpreadLiteral t') (he : t ++ r = t' ++ r') :
    t = t' ∧ r = r' := by
  obtain ⟨e, es, t, hl, rfl, hs⟩ := h
  obtain ⟨e', es', t', hl', rfl, hs'⟩ := h'
  obtain ⟨rfl, htail⟩ := List.cons.inj he
  obtain rfl : es = es' := by
    rcases hl with hl | hl | hl <;> rcases hl' with hl' | hl' | hl' <;> cases hl <;> cases hl' <;> rfl
  obtain ⟨rfl, hr⟩ := spread_cancel hs hs' htail
  exact ⟨rfl, hr⟩

/-- Where a string body stands after its first byte. -/
theorem body_cons {b : UInt8} (h : Body escape u (b :: t)) :
    (isWs b = true ∧ Body escape u t) ∨
    (isWs b = false ∧
      ((∃ v, u = v + 1 ∧ Body escape v t) ∨
        (u = 0 ∧ escape = true ∧
          ((b = 0x75 ∧ Body false 4 t) ∨ (b ≠ 0x75 ∧ Body false 0 t))) ∨
        (u = 0 ∧ escape = false ∧
          ((b = 0x5C ∧ Body true 0 t) ∨ (b ≠ 0x5C ∧ b ≠ 0x22 ∧ Body false 0 t))))) := by
  cases hb : isWs b with
  | true =>
    refine .inl ⟨rfl, ?_⟩
    cases h with
    | ws _ ht => exact ht
    | hex hx _ => simp [hexDigit_not_ws hx] at hb
    | escaped he _ => simp [escape_not_ws he] at hb
    | unicode _ => cases hb
    | backslash _ => cases hb
    | plain _ _ _ ht => exact ht
  | false =>
    refine .inr ⟨rfl, ?_⟩
    cases h with
    | ws hw _ => simp [hb] at hw
    | hex _ ht => exact .inl ⟨_, rfl, ht⟩
    | escaped he ht =>
      refine .inr (.inl ⟨rfl, rfl, .inr ⟨?_, ht⟩⟩)
      rintro rfl
      cases he
    | unicode ht => exact .inr (.inl ⟨rfl, rfl, .inl ⟨rfl, ht⟩⟩)
    | backslash ht => exact .inr (.inr ⟨rfl, rfl, .inl ⟨rfl, ht⟩⟩)
    | plain _ hq hs ht => exact .inr (.inr ⟨rfl, rfl, .inr ⟨hs, hq, ht⟩⟩)

theorem body_cancel {t t' r r' : Bytes} (h : Body escape u t) (h' : Body escape u t')
    (he : t ++ 0x22 :: r = t' ++ 0x22 :: r') : t = t' ∧ r = r' := by
  induction t generalizing escape u t' with
  | nil =>
    cases h
    cases t' with
    | nil => exact ⟨rfl, (List.cons.inj he).2⟩
    | cons b t' =>
      obtain ⟨rfl, -⟩ := List.cons.inj he
      rcases body_cons h' with ⟨hw, -⟩ | ⟨-, ⟨v, hv, -⟩ | ⟨-, hf, -⟩ | ⟨-, -, ⟨hb, -⟩ | ⟨-, hb, -⟩⟩⟩
      · cases hw
      · omega
      · cases hf
      · cases hb
      · exact absurd rfl hb
  | cons b t ih =>
    cases t' with
    | nil =>
      cases h'
      obtain ⟨rfl, -⟩ := List.cons.inj he
      rcases body_cons h with ⟨hw, -⟩ | ⟨-, ⟨v, hv, -⟩ | ⟨-, hf, -⟩ | ⟨-, -, ⟨hb, -⟩ | ⟨-, hb, -⟩⟩⟩
      · cases hw
      · omega
      · cases hf
      · cases hb
      · exact absurd rfl hb
    | cons c t' =>
      obtain ⟨rfl, htail⟩ := List.cons.inj he
      have hsame : ∃ e v, Body e v t ∧ Body e v t' := by
        rcases body_cons h with ⟨hw, ht⟩ | ⟨hw, hc⟩
        · rcases body_cons h' with ⟨-, ht'⟩ | ⟨hw', -⟩
          · exact ⟨_, _, ht, ht'⟩
          · simp [hw] at hw'
        · rcases body_cons h' with ⟨hw', -⟩ | ⟨-, hc'⟩
          · simp [hw] at hw'
          · grind
      obtain ⟨e, v, ht, ht'⟩ := hsame
      obtain ⟨rfl, hr⟩ := ih ht ht' htail
      exact ⟨rfl, hr⟩

theorem num_bytes {n : Num} (h : n.Loose) : ∀ b ∈ n.bytes, isNumByte b = true := by
  have hdig : ∀ {ds : Bytes}, Digits ds → ∀ b ∈ ds, isNumByte b = true :=
    fun h b hb => digit_numByte (h b hb)
  obtain ⟨minus, int, frac, exp⟩ := n
  obtain ⟨⟨hi, -⟩, hf, he⟩ := h
  intro b hb
  simp only [Num.bytes, List.mem_append] at hb
  rcases hb with hb | hb | hb | hb
  · cases minus with
    | true =>
      simp only [if_true, List.mem_singleton] at hb
      subst hb
      decide
    | false => simp at hb
  · exact hdig hi b hb
  · cases frac with
    | none => simp at hb
    | some ds =>
      rcases List.mem_cons.mp hb with rfl | hb
      · decide
      · exact hdig (hf ds rfl) b hb
  · cases exp with
    | none => simp at hb
    | some e =>
      simp only [expBytes_some, Expo.bytes, List.mem_cons, List.mem_append] at hb
      rcases hb with rfl | hb | hb
      · cases e.upper <;> decide
      · cases hs : e.sign with
        | none => simp [hs, signBytes] at hb
        | some m => cases m <;> simp [hs, signBytes] at hb <;> subst hb <;> decide
      · exact hdig (he e rfl) b hb

theorem follows_stops (h : Follows r.head?) : Stops isNumByte r := by
  intro b hb
  rcases h b hb with hw | rfl | rfl | rfl
  · rcases ws_cases hw with rfl | rfl | rfl | rfl <;> decide
  all_goals decide

theorem number_cancel (h : LooseNumber t next) (h' : LooseNumber t' next') (hr : Follows r.head?)
    (hr' : Follows r'.head?) (he : t ++ r = t' ++ r') : t = t' ∧ r = r' := by
  obtain ⟨n, hn, rfl, -⟩ := h
  obtain ⟨n', hn', rfl, -⟩ := h'
  exact span_cancel (num_bytes hn) (num_bytes hn') (follows_stops hr) (follows_stops hr') he

/-! The first byte of a value tells which kind it is. -/

def Doc.kind : Doc → Nat
  | .lit _ => 0
  | .num _ => 1
  | .str _ => 2
  | .arr _ => 3
  | .obj _ => 4

def kindOf (b : UInt8) : Nat :=
  if b = 0x22 then 2
  else if b = 0x5B then 3
  else if b = 0x7B then 4
  else if isDigit b || b == 0x2D then 1
  else 0

theorem doc_first {d : Doc} (h : d.Ok relaxed v next) :
    ∃ b t, d.bytes = b :: t ∧ kindOf b = d.kind ∧ isWs b = false ∧ b ≠ 0x5D := by
  cases d with
  | lit w =>
    obtain ⟨e, es, t, hl, rfl, -⟩ := h
    refine ⟨e, t, rfl, ?_⟩
    rcases hl with hl | hl | hl <;> cases hl <;> exact ⟨rfl, rfl, by decide⟩
  | num w =>
    obtain ⟨n, hn, rfl, -⟩ := h
    obtain ⟨b, t, hb, hd⟩ := num_first hn
    refine ⟨b, t, hb, ?_⟩
    rcases hd with hd | rfl
    · refine ⟨?_, digit_not_ws hd, by rintro rfl; cases hd⟩
      have hne : b ≠ 0x22 ∧ b ≠ 0x5B ∧ b ≠ 0x7B := by
        refine ⟨?_, ?_, ?_⟩ <;> rintro rfl <;> cases hd
      simp [kindOf, hne, hd, Doc.kind]
    · exact ⟨rfl, rfl, by decide⟩
  | str body => exact ⟨0x22, _, rfl, rfl, rfl, by decide⟩
  | arr items => exact ⟨0x5B, _, rfl, rfl, rfl, by decide⟩
  | obj members => exact ⟨0x7B, _, rfl, rfl, rfl, by decide⟩

theorem item_stops {d : Doc} (h : d.Ok relaxed v next) (w : Bytes) : Stops isWs (d.bytes ++ w) := by
  obtain ⟨b, t, hb, -, hw, -⟩ := doc_first h
  rw [hb]
  exact stops_cons hw

theorem doc_kind_eq {d d' : Doc} (h : d.Ok relaxed v n) (h' : d'.Ok relaxed v' n')
    (he : d.bytes ++ r = d'.bytes ++ r') : d.kind = d'.kind := by
  obtain ⟨b, t, hb, hk, -⟩ := doc_first h
  obtain ⟨b', t', hb', hk', -⟩ := doc_first h'
  rw [hb, hb'] at he
  obtain ⟨rfl, -⟩ := List.cons.inj he
  rw [← hk, ← hk']

theorem entryBytes_append (pre key mid sep w r : Bytes) :
    entryBytes pre key mid sep w ++ r = entryBytes pre key mid sep (w ++ r) := by
  simp [entryBytes]

/-- Keys and their surroundings are read in one way. -/
theorem entry_cancel {pre key mid sep pre' key' mid' sep' w w' : Bytes} (hpre : IsWs pre)
    (hpre' : IsWs pre') (hkey : Body false 0 key) (hkey' : Body false 0 key') (hmid : IsWs mid)
    (hmid' : IsWs mid') (hsep : IsWs sep) (hsep' : IsWs sep') (hw : Stops isWs w)
    (hw' : Stops isWs w') (h : entryBytes pre key mid sep w = entryBytes pre' key' mid' sep' w') :
    pre = pre' ∧ key = key' ∧ mid = mid' ∧ sep = sep' ∧ w = w' := by
  unfold entryBytes at h
  obtain ⟨rfl, hq⟩ := ws_cancel hpre hpre' (stops_cons rfl) (stops_cons rfl) h
  obtain ⟨rfl, hm⟩ := body_cancel hkey hkey' (List.cons.inj hq).2
  obtain ⟨rfl, hc⟩ := ws_cancel hmid hmid' (stops_cons rfl) (stops_cons rfl) hm
  obtain ⟨rfl, hv⟩ := ws_cancel hsep hsep' hw hw' (List.cons.inj hc).2
  exact ⟨rfl, rfl, rfl, rfl, hv⟩

/-- The bytes that close or continue a container. -/
def IsDelim (b : UInt8) : Prop := b = 0x2C ∨ b = 0x7D ∨ b = 0x5D

theorem delim_not_ws (h : IsDelim b) : isWs b = false := by
  rcases h with rfl | rfl | rfl <;> rfl

/-- Trees with the bytes of `d` are `d`, before any continuation. -/
def Cancels (d : Doc) : Prop :=
  ∀ {d' : Doc} {n n' : Option UInt8} {r r' : Bytes}, d.Ok relaxed () n → d'.Ok relaxed () n' →
    Follows r.head? → Follows r'.head? → d.bytes ++ r = d'.bytes ++ r' → d = d' ∧ r = r'

/-- A value and the delimiter after it are read in one way. -/
theorem value_cancel {d d' : Doc} {post post' t t' : Bytes} (hc : Cancels d)
    (hd : d.Ok relaxed () n) (hd' : d'.Ok relaxed () n') (hpost : IsWs post) (hpost' : IsWs post')
    (hx : IsDelim x) (hx' : IsDelim x')
    (h : d.bytes ++ (post ++ x :: t) = d'.bytes ++ (post' ++ x' :: t')) :
    d = d' ∧ post = post' ∧ x = x' ∧ t = t' := by
  obtain ⟨rfl, hp⟩ := hc hd hd' (follows_ws hpost hx) (follows_ws hpost' hx') h
  obtain ⟨rfl, ht⟩ := ws_cancel hpost hpost' (stops_cons (delim_not_ws hx))
    (stops_cons (delim_not_ws hx')) hp
  obtain ⟨rfl, rfl⟩ := List.cons.inj ht
  exact ⟨rfl, rfl, rfl, rfl⟩

theorem close_ne_item {d : Doc} {pad pre r w : Bytes} (hpad : IsWs pad) (hpre : IsWs pre)
    (hd : d.Ok relaxed v n) (h : pad ++ 0x5D :: r = pre ++ (d.bytes ++ w)) : False := by
  obtain ⟨rfl, hb⟩ := ws_cancel hpad hpre (stops_cons rfl) (item_stops hd w) h
  obtain ⟨b, t, hbytes, -, -, hne⟩ := doc_first hd
  rw [hbytes] at hb
  exact hne (List.cons.inj hb).1.symm

theorem close_ne_entry {pad pre key mid sep r w : Bytes} (hpad : IsWs pad) (hpre : IsWs pre)
    (h : pad ++ 0x7D :: r = entryBytes pre key mid sep w) : False := by
  obtain ⟨rfl, hb⟩ := ws_cancel hpad hpre (stops_cons rfl) (stops_cons rfl) h
  cases (List.cons.inj hb).1

/-- An item up to its delimiter is read in one way. -/
theorem item_cancel {d d' : Doc} {pre pre' post post' t t' : Bytes} (hc : Cancels d)
    (hpre : IsWs pre) (hpre' : IsWs pre') (hd : d.Ok relaxed () n) (hd' : d'.Ok relaxed () n')
    (hpost : IsWs post) (hpost' : IsWs post') (hx : IsDelim x) (hx' : IsDelim x')
    (h : pre ++ (d.bytes ++ (post ++ x :: t)) = pre' ++ (d'.bytes ++ (post' ++ x' :: t'))) :
    pre = pre' ∧ d = d' ∧ post = post' ∧ x = x' ∧ t = t' := by
  obtain ⟨rfl, hv⟩ := ws_cancel hpre hpre' (item_stops hd _) (item_stops hd' _) h
  exact ⟨rfl, value_cancel hc hd hd' hpost hpost' hx hx' hv⟩

mutual

/-- A value is read in one way. -/
theorem doc_cancel : ∀ {d d' : Doc} {n n' : Option UInt8} {r r' : Bytes}, d.Ok relaxed () n →
    d'.Ok relaxed () n' → Follows r.head? → Follows r'.head? → d.bytes ++ r = d'.bytes ++ r' →
    d = d' ∧ r = r'
  | .lit w, d', _, _, _, _, h, h', _, _, he => by
    have hk := doc_kind_eq h h' he
    cases d' with
    | lit w' =>
      obtain ⟨hww, hr⟩ := literal_cancel h h' he
      exact ⟨by rw [hww], hr⟩
    | _ => cases hk
  | .num w, d', _, _, _, _, h, h', hr, hr', he => by
    have hk := doc_kind_eq h h' he
    cases d' with
    | num w' =>
      obtain ⟨hww, hr⟩ := number_cancel h h' hr hr' he
      exact ⟨by rw [hww], hr⟩
    | _ => cases hk
  | .str body, d', _, _, r, r', h, h', _, _, he => by
    have hk := doc_kind_eq h h' he
    cases d' with
    | str body' =>
      simp only [Doc.bytes, List.cons_append, List.append_assoc, List.nil_append,
        List.cons.injEq, true_and] at he
      obtain ⟨hbb, hr⟩ := body_cancel h h' he
      exact ⟨by rw [hbb], hr⟩
    | _ => cases hk
  | .arr items, d', _, _, r, r', h, h', _, _, he => by
    have hk := doc_kind_eq h h' he
    cases d' with
    | arr items' =>
      obtain ⟨_, _, hi⟩ := h.resolve_left id
      obtain ⟨_, _, hi'⟩ := h'.resolve_left id
      obtain ⟨hii, hr⟩ := items_cancel hi hi' (List.cons.inj he).2
      exact ⟨by rw [hii], hr⟩
    | _ => cases hk
  | .obj members, d', _, _, r, r', h, h', _, _, he => by
    have hk := doc_kind_eq h h' he
    cases d' with
    | obj members' =>
      obtain ⟨_, _, hm⟩ := h.resolve_left id
      obtain ⟨_, _, hm'⟩ := h'.resolve_left id
      obtain ⟨hmm, hr⟩ := members_cancel hm hm' (List.cons.inj he).2
      exact ⟨by rw [hmm], hr⟩
    | _ => cases hk

theorem items_cancel : ∀ {i i' : Items} {c c' : Bool} {r r' : Bytes}, i.Ok relaxed () c →
    i'.Ok relaxed () c' → i.bytes ++ r = i'.bytes ++ r' → i = i' ∧ r = r'
  | .close pad, i', _, _, _, _, h, h', he => by
    simp only [Items.bytes, List.append_assoc, List.cons_append, List.nil_append] at he
    cases i' with
    | close pad' =>
      simp only [Items.bytes, List.append_assoc, List.cons_append, List.nil_append] at he
      obtain ⟨rfl, hr⟩ := ws_cancel h.1 h'.1 (stops_cons rfl) (stops_cons rfl) he
      exact ⟨rfl, (List.cons.inj hr).2⟩
    | last pre' d' post' =>
      simp only [Items.bytes, List.append_assoc] at he
      exact (close_ne_item h.1 h'.1 h'.2.1 he).elim
    | more pre' d' post' rest' =>
      simp only [Items.bytes, List.append_assoc] at he
      exact (close_ne_item h.1 h'.1 h'.2.1 he).elim
  | .last pre d post, i', _, _, _, _, h, h', he => by
    simp only [Items.bytes, List.append_assoc, List.cons_append, List.nil_append] at he
    have hc : Cancels d := doc_cancel
    cases i' with
    | close pad' =>
      simp only [Items.bytes, List.append_assoc, List.cons_append, List.nil_append] at he
      exact (close_ne_item h'.1 h.1 h.2.1 he.symm).elim
    | last pre' d' post' =>
      simp only [Items.bytes, List.append_assoc, List.cons_append, List.nil_append] at he
      obtain ⟨rfl, rfl, rfl, -, hr⟩ := item_cancel hc h.1 h'.1 h.2.1 h'.2.1 h.2.2 h'.2.2
        (.inr (.inr rfl)) (.inr (.inr rfl)) he
      exact ⟨rfl, hr⟩
    | more pre' d' post' rest' =>
      simp only [Items.bytes, List.append_assoc, List.cons_append] at he
      obtain ⟨-, -, -, hx, -⟩ := item_cancel hc h.1 h'.1 h.2.1 h'.2.1 h.2.2 h'.2.2.1
        (.inr (.inr rfl)) (.inl rfl) he
      cases hx
  | .more pre d post rest, i', _, _, _, _, h, h', he => by
    simp only [Items.bytes, List.append_assoc, List.cons_append] at he
    have hc : Cancels d := doc_cancel
    cases i' with
    | close pad' =>
      simp only [Items.bytes, List.append_assoc, List.cons_append, List.nil_append] at he
      exact (close_ne_item h'.1 h.1 h.2.1 he.symm).elim
    | last pre' d' post' =>
      simp only [Items.bytes, List.append_assoc, List.cons_append, List.nil_append] at he
      obtain ⟨-, -, -, hx, -⟩ := item_cancel hc h.1 h'.1 h.2.1 h'.2.1 h.2.2.1 h'.2.2
        (.inl rfl) (.inr (.inr rfl)) he
      cases hx
    | more pre' d' post' rest' =>
      simp only [Items.bytes, List.append_assoc, List.cons_append] at he
      obtain ⟨rfl, rfl, rfl, -, ht⟩ := item_cancel hc h.1 h'.1 h.2.1 h'.2.1 h.2.2.1 h'.2.2.1
        (.inl rfl) (.inl rfl) he
      obtain ⟨rfl, hr⟩ := items_cancel h.2.2.2 h'.2.2.2 ht
      exact ⟨rfl, hr⟩

theorem members_cancel : ∀ {m m' : Members} {c c' : Bool} {r r' : Bytes}, m.Ok relaxed () c →
    m'.Ok relaxed () c' → m.bytes ++ r = m'.bytes ++ r' → m = m' ∧ r = r'
  | .close pad, m', _, _, _, _, h, h', he => by
    simp only [Members.bytes, List.append_assoc, List.cons_append, List.nil_append] at he
    cases m' with
    | close pad' =>
      simp only [Members.bytes, List.append_assoc, List.cons_append, List.nil_append] at he
      obtain ⟨rfl, hr⟩ := ws_cancel h.1 h'.1 (stops_cons rfl) (stops_cons rfl) he
      exact ⟨rfl, (List.cons.inj hr).2⟩
    | last pre' key' mid' sep' d' post' =>
      simp only [Members.bytes, entryBytes_append] at he
      exact (close_ne_entry h.1 h'.1 he).elim
    | more pre' key' mid' sep' d' post' rest' =>
      simp only [Members.bytes, entryBytes_append] at he
      exact (close_ne_entry h.1 h'.1 he).elim
  | .last pre key mid sep d post, m', _, _, _, _, h, h', he => by
    obtain ⟨hpre, hmid, hsep, hpost, _, _, hk, hd, -⟩ := h
    have hc : Cancels d := doc_cancel
    simp only [Members.bytes, entryBytes_append] at he
    cases m' with
    | close pad' =>
      simp only [Members.bytes, List.append_assoc, List.cons_append, List.nil_append] at he
      exact (close_ne_entry h'.1 hpre he.symm).elim
    | last pre' key' mid' sep' d' post' =>
      obtain ⟨hpre', hmid', hsep', hpost', _, _, hk', hd', -⟩ := h'
      simp only [Members.bytes, entryBytes_append, List.append_assoc, List.cons_append,
        List.nil_append] at he
      obtain ⟨rfl, rfl, rfl, rfl, hv⟩ := entry_cancel hpre hpre' hk hk' hmid hmid' hsep hsep'
        (item_stops hd _) (item_stops hd' _) he
      obtain ⟨rfl, rfl, -, hr⟩ := value_cancel hc hd hd' hpost hpost' (.inr (.inl rfl))
        (.inr (.inl rfl)) hv
      exact ⟨rfl, hr⟩
    | more pre' key' mid' sep' d' post' rest' =>
      obtain ⟨hpre', hmid', hsep', hpost', _, _, hk', hd', -⟩ := h'
      simp only [Members.bytes, entryBytes_append, List.append_assoc, List.cons_append,
        List.nil_append] at he
      obtain ⟨rfl, rfl, rfl, rfl, hv⟩ := entry_cancel hpre hpre' hk hk' hmid hmid' hsep hsep'
        (item_stops hd _) (item_stops hd' _) he
      obtain ⟨-, -, hx, -⟩ := value_cancel hc hd hd' hpost hpost' (.inr (.inl rfl)) (.inl rfl) hv
      cases hx
  | .more pre key mid sep d post rest, m', _, _, _, _, h, h', he => by
    obtain ⟨hpre, hmid, hsep, hpost, _, _, hk, hd, -, hrest⟩ := h
    have hc : Cancels d := doc_cancel
    simp only [Members.bytes, entryBytes_append] at he
    cases m' with
    | close pad' =>
      simp only [Members.bytes, List.append_assoc, List.cons_append, List.nil_append] at he
      exact (close_ne_entry h'.1 hpre he.symm).elim
    | last pre' key' mid' sep' d' post' =>
      obtain ⟨hpre', hmid', hsep', hpost', _, _, hk', hd', -⟩ := h'
      simp only [Members.bytes, entryBytes_append, List.append_assoc, List.cons_append,
        List.nil_append] at he
      obtain ⟨rfl, rfl, rfl, rfl, hv⟩ := entry_cancel hpre hpre' hk hk' hmid hmid' hsep hsep'
        (item_stops hd _) (item_stops hd' _) he
      obtain ⟨-, -, hx, -⟩ := value_cancel hc hd hd' hpost hpost' (.inl rfl) (.inr (.inl rfl)) hv
      cases hx
    | more pre' key' mid' sep' d' post' rest' =>
      obtain ⟨hpre', hmid', hsep', hpost', _, _, hk', hd', -, hrest'⟩ := h'
      simp only [Members.bytes, entryBytes_append, List.append_assoc, List.cons_append] at he
      obtain ⟨rfl, rfl, rfl, rfl, hv⟩ := entry_cancel hpre hpre' hk hk' hmid hmid' hsep hsep'
        (item_stops hd _) (item_stops hd' _) he
      obtain ⟨rfl, rfl, -, ht⟩ := value_cancel hc hd hd' hpost hpost' (.inl rfl) (.inl rfl) hv
      obtain ⟨rfl, hr⟩ := members_cancel hrest hrest' ht
      exact ⟨rfl, hr⟩

end

/-- A text has one reading. -/
theorem reading_unique (a b : Reading relaxed () w) : a.doc = b.doc ∧ a.post = b.post := by
  obtain ⟨pre, d, post, hpre, hd, hpost, rfl⟩ := a
  obtain ⟨pre', d', post', hpre', hd', hpost', he⟩ := b
  have hfollows : ∀ {p : Bytes}, IsWs p → Follows p.head? := by
    intro p hp c hc
    cases p with
    | nil => cases hc
    | cons x p =>
      cases hc
      exact .inl (isWs_cons.mp hp).1
  obtain ⟨-, hv⟩ := ws_cancel hpre hpre' (item_stops hd post) (item_stops hd' post') he
  exact doc_cancel hd hd' (hfollows hpost) (hfollows hpost') hv

end Flambeau.Json
