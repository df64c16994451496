import Flambeau.Runtime.SchemaConforms
import Flambeau.Runtime.SchemaTrips

namespace Flambeau.Runtime.SchemaReader
open Flambeau.Json Flambeau.Runtime.JsonSchema

/-- A name that key bytes can spell: the machine drops whitespace from a key,
refuses escapes, and reads every byte as a character of its own. -/
def Typeable (name : Name) : Prop :=
  ∀ c ∈ name, 0x21 ≤ c.toNat ∧ c.toNat ≤ 0xFF ∧ c ≠ '"' ∧ c ≠ '\\'

theorem byteChar_toNat (b : UInt8) : (byteChar b).toNat = b.toNat := by
  have hb : b.toNat < 256 := b.toNat_lt
  have hv : b.toNat.isValidChar := by
    left
    omega
  simp [byteChar, Char.ofNat, hv, Char.ofNatAux, Char.toNat]

theorem byteChar_ofNat {c : Char} (h : c.toNat ≤ 0xFF) : byteChar (UInt8.ofNat c.toNat) = c := by
  apply Char.toNat_inj.mp
  rw [byteChar_toNat, UInt8.toNat_ofNat']
  omega

theorem typeable_nil : Typeable [] := by
  intro c hc
  cases hc

theorem typeable_append : Typeable (p ++ q) ↔ Typeable p ∧ Typeable q := by
  simp only [Typeable, List.mem_append]
  constructor
  · intro h
    exact ⟨fun c hc => h c (.inl hc), fun c hc => h c (.inr hc)⟩
  · intro h c hc
    exact hc.elim (h.1 c) (h.2 c)

theorem typeable_byte (hw : isWs b = false) (hq : b ≠ 0x22) (hs : b ≠ 0x5C) (hb : 0x20 ≤ b) :
    Typeable [byteChar b] := by
  intro c hc
  obtain rfl := List.mem_singleton.mp hc
  have hlt : b.toNat < 256 := b.toNat_lt
  have hge : 32 ≤ b.toNat := UInt8.le_iff_toNat_le.mp hb
  have hne : b.toNat ≠ 32 := by
    intro h
    have hb : b = 0x20 := UInt8.toNat_inj.mp h
    subst hb
    cases hw
  rw [byteChar_toNat]
  refine ⟨by omega, by omega, ?_, ?_⟩
  · intro h
    apply hq
    apply UInt8.toNat_inj.mp
    rw [← byteChar_toNat, h]
    rfl
  · intro h
    apply hs
    apply UInt8.toNat_inj.mp
    rw [← byteChar_toNat, h]
    rfl

/-- What key bytes spell is typeable. -/
theorem keyText_typeable (h : KeyBytes key) : Typeable (keyText key) := by
  induction key with
  | nil => exact typeable_nil
  | cons b key ih =>
    obtain ⟨⟨hq, hs, hb⟩, hk⟩ := keyBytes_cons.mp h
    cases hw : isWs b with
    | true =>
      rw [keyText_ws hw]
      exact ih hk
    | false =>
      rw [keyText_cons hw]
      have hge : 0x20 ≤ b := by
        rcases hb with hb | hb
        · simp [hw] at hb
        · exact hb
      exact typeable_append.mpr ⟨typeable_byte hw hq hs hge, ih hk⟩

/-- The bytes that spell a typeable name. -/
theorem typeable_key (h : Typeable name) : ∃ key, KeyBytes key ∧ keyText key = name := by
  induction name with
  | nil => exact ⟨[], by simp [KeyBytes], rfl⟩
  | cons c name ih =>
    obtain ⟨hc, hname⟩ := typeable_append (p := [c]).mp h
    obtain ⟨key, hk, ht⟩ := ih hname
    obtain ⟨hge, hle, hq, hs⟩ := hc c (by simp)
    have hb := byteChar_ofNat hle
    have hnat : (UInt8.ofNat c.toNat).toNat = c.toNat := by
      rw [UInt8.toNat_ofNat']
      omega
    have hw : isWs (UInt8.ofNat c.toNat) = false := by
      cases hw : isWs (UInt8.ofNat c.toNat) with
      | false => rfl
      | true =>
        rcases ws_cases hw with h | h | h | h
        all_goals
          rw [h] at hnat
          simp at hnat
          omega
    refine ⟨UInt8.ofNat c.toNat :: key, keyBytes_cons.mpr ⟨⟨?_, ?_, ?_⟩, hk⟩, ?_⟩
    · intro h
      rw [h] at hb
      exact hq hb.symm
    · intro h
      rw [h] at hb
      exact hs hb.symm
    · right
      apply UInt8.le_iff_toNat_le.mpr
      rw [hnat]
      exact Nat.le_of_lt hge
    · rw [keyText_cons hw, hb, ht]

theorem exists_longest {α : Type} (size : α → Nat) (l : List α) (h : l ≠ []) :
    ∃ a ∈ l, ∀ b ∈ l, size b ≤ size a := by
  induction l with
  | nil => exact absurd rfl h
  | cons a l ih =>
    by_cases hl : l = []
    · subst hl
      exact ⟨a, by simp, by simp⟩
    · obtain ⟨m, hm, hmax⟩ := ih hl
      by_cases hlt : size m ≤ size a
      · refine ⟨a, by simp, ?_⟩
        intro b hb
        rcases List.mem_cons.mp hb with rfl | hb
        · exact Nat.le_refl _
        · have := hmax b hb
          omega
      · refine ⟨m, List.mem_cons_of_mem _ hm, ?_⟩
        intro b hb
        rcases List.mem_cons.mp hb with rfl | hb
        · omega
        · exact hmax b hb

/-- A fresh state for a compiled node. -/
def freshFor (node : Node) : SchemaState := ⟨node, [], false, false, false⟩

/-- Some byte string drives a fresh state for the node to completion. -/
def Satisfiable (node : Node) : Prop := ∃ w, (freshFor node).Accepts w

theorem fresh_accepts (node : Node) (w : Bytes) :
    (freshFor node).Accepts w ↔ reader.Acc (.value node []) w :=
  accepts_iff_acc (.root false) w

theorem satisfiable_doc (h : Satisfiable node) : ∃ (d : Doc) (next : Option UInt8),
    d.Ok schemaGrammar node next := by
  obtain ⟨w, hw⟩ := h
  rw [fresh_accepts, Reader.acc_iff_text reader_recognises] at hw
  obtain ⟨r⟩ := hw
  exact ⟨r.doc, _, r.ok⟩

/-- Some value is taken for the node whatever follows it. -/
def Takable (node : Node) : Prop := ∃ d : Doc, ∀ next, d.Ok schemaGrammar node next

theorem zero_whole : WholeNumber [0x30] :=
  ⟨⟨false, [0x30], none, none⟩, ⟨by decide, by simp, by simp⟩, ⟨rfl, rfl⟩, rfl⟩

theorem zero_loose (next : Option UInt8) : LooseNumber [0x30] next :=
  ⟨⟨false, [0x30], none, none⟩, ⟨by decide, by simp, by simp⟩, rfl, by simp [Num.openExp]⟩

/-- An enum is settled by its longest literal, which no delimiter can cut. -/
theorem enum_takable {candidates : List Literal} (h : candidates ≠ []) :
    Takable (.enum candidates) := by
  obtain ⟨c, hc, hmax⟩ := exists_longest (fun c : Literal => c.bytes.length) candidates h
  obtain ⟨d, hd, hok⟩ := c.text
  refine ⟨d, fun next => ok_of_leaf ⟨hok, ⟨c, hc, hd.symm⟩, .inr ?_⟩⟩
  intro c' hc' hp
  rw [hd] at hp ⊢
  have hle := hmax c' hc'
  exact (hp.eq_of_length_le hle).symm

theorem satisfiable_takable (h : Satisfiable node) : Takable node := by
  obtain ⟨d, next, hd⟩ := satisfiable_doc h
  cases node with
  | any => exact ⟨.num [0x30], fun next => ok_of_leaf (zero_loose next)⟩
  | bool => exact ⟨.lit trueBytes, fun _ => ok_of_leaf (.inl rfl)⟩
  | null => exact ⟨.lit nullBytes, fun _ => ok_of_leaf rfl⟩
  | int => exact ⟨.num [0x30], fun _ => ok_of_leaf ⟨_, rfl, zero_whole⟩⟩
  | num => exact ⟨.num [0x30], fun next => ok_of_leaf ⟨_, rfl, zero_loose next⟩⟩
  | str => exact ⟨.str [], fun _ => ok_of_leaf ⟨_, rfl, .nil⟩⟩
  | array items =>
    exact ⟨.arr (.close []), fun _ => .inr ⟨items, .inl rfl, isWs_nil, rfl⟩⟩
  | enum candidates =>
    apply enum_takable
    rintro rfl
    have hleaf : SchemaLeaf (.enum []) d next := by
      cases d with
      | arr items =>
        rcases hd with hd | ⟨_, hv | ⟨hv, -⟩, -⟩
        · exact hd
        · cases hv
        · cases hv
      | obj members =>
        rcases hd with hd | ⟨_, ⟨_, _, _, hv, -⟩ | ⟨hv, -⟩, -⟩
        · exact hd
        · cases hv
        · cases hv
      | _ => exact hd
    obtain ⟨-, ⟨c, hc, -⟩, -⟩ := hleaf
    cases hc
  | object properties required additional =>
    cases d with
    | obj members =>
      obtain ⟨o, ho, hm⟩ := hd.resolve_left id
      exact ⟨.obj members, fun _ => .inr ⟨o, ho, hm⟩⟩
    | arr items =>
      obtain ⟨_, hv | ⟨hv, -⟩, -⟩ := hd.resolve_left id
      · cases hv
      · cases hv
    | _ => exact hd.elim

/-! Open tokens. -/

/-- An open token some bytes can end. -/
def TokAlive : Tok → Prop
  | .enum candidates pos => ∃ p : Bytes, p.length = pos ∧ (∀ c ∈ candidates, p <+: c.bytes) ∧
      ∃ c ∈ candidates, pos < c.bytes.length
  | .lit expected => expected ≠ []
  | _ => True

theorem enum_ends {candidates : List Literal} (hp : ∀ c ∈ candidates, p <+: c.bytes)
    (hc : ∃ c ∈ candidates, p.length < c.bytes.length) :
    ∃ u, ∀ next, toks.Takes (.enum candidates p.length) u next := by
  obtain ⟨c₀, hc₀, hlt⟩ := hc
  obtain ⟨c, hc, hmax⟩ := exists_longest (fun c : Literal => c.bytes.length) candidates
    (List.ne_nil_of_mem hc₀)
  obtain ⟨u, hu⟩ := hp c hc
  refine ⟨u, fun next => ?_⟩
  rw [enum_tok, enum_takes p u next hp]
  refine ⟨⟨c, hc, hu.symm⟩, .inr ⟨?_, ?_⟩⟩
  · intro hnil
    have hle := hmax c₀ hc₀
    have hlen : c.bytes.length = p.length := by rw [← hu, hnil, List.append_nil]
    omega
  · intro c' hc' hpre
    rw [hu] at hpre ⊢
    exact (hpre.eq_of_length_le (hmax c' hc')).symm

theorem pending_hexes (escape : Bool) (u : Nat) (h : Pending escape 0 body) :
    ∃ body', Pending escape u body' := by
  induction u with
  | zero => exact ⟨body, h⟩
  | succ u ih =>
    obtain ⟨body', hb⟩ := ih
    exact ⟨0x30 :: body', by rw [pending_hex]; exact ⟨rfl, hb⟩⟩

theorem str_closes (k : Bool × Nat) : ∃ u, ∀ next, toks.Takes (.str k) u next := by
  obtain ⟨escape, u⟩ := k
  have hbody : ∃ body, Pending escape 0 body := by
    cases escape with
    | false => exact ⟨[], pending_closed.mpr .nil⟩
    | true => exact ⟨[0x6E], pending_open.mpr (.escape rfl .nil)⟩
  obtain ⟨body, hb⟩ := hbody
  obtain ⟨body', hb'⟩ := pending_hexes escape u hb
  refine ⟨body' ++ [0x22], fun next => ?_⟩
  rw [Tokens.takes_map Tok.str (fun _ _ => rfl) (fun _ => rfl)]
  exact (strings_take escape u _ next).mpr ⟨body', rfl, hb'⟩

/-- One more digit lets any number end. -/
theorem num_closes (integer : Bool) (f : NumFlags) :
    ∃ u, ∀ next, Follows next → toks.Takes (.num integer f) u next := by
  refine ⟨[0x30], fun next hf => ?_⟩
  rw [Tokens.takes_map (Tok.num integer) (fun _ _ => rfl) (fun _ => rfl)]
  rw [num_takes integer f [0x30] hf]
  have hdigit : isDigit 0x30 = true := rfl
  have hacc : f.accept integer 0x30 = some
      { f with seenDigit := true, seenExpDigit := if f.seenExp then true else f.seenExpDigit } := by
    simp only [NumFlags.accept, hdigit, if_true]
  refine ⟨{ f with seenDigit := true, seenExpDigit := if f.seenExp then true else f.seenExpDigit },
    ?_, rfl, .inr ?_⟩
  · simp only [NumFlags.scan, hacc, Option.bind_some]
  · cases h : f.seenExp <;> simp [NumFlags.closable]

/-- An open token can be ended. -/
theorem tok_ends {t : Tok} (h : TokAlive t) :
    ∃ u, ∀ next, Follows next → toks.Takes t u next := by
  cases t with
  | enum candidates pos =>
    obtain ⟨p, rfl, hp, hc⟩ := h
    obtain ⟨u, hu⟩ := enum_ends hp hc
    exact ⟨u, fun next _ => hu next⟩
  | str k =>
    obtain ⟨u, hu⟩ := str_closes k
    exact ⟨u, fun next _ => hu next⟩
  | num integer f => exact num_closes integer f
  | lit expected =>
    have hne : expected ≠ [] := h
    exact ⟨expected, fun next _ => (lit_takes expected expected next).mpr ⟨rfl, hne⟩⟩

end Flambeau.Runtime.SchemaReader

namespace Flambeau.Runtime.SchemaReader
open Flambeau.Json Flambeau.Runtime.JsonSchema

/-- The compiled sub-nodes of a node, itself included. -/
inductive SubNode : Node → Node → Prop where
  | self : SubNode node node
  | property : Map.get name properties = some child → SubNode child node →
      SubNode (.object properties required additional) node
  | items : SubNode child node → SubNode (.array child) node

/-- A node the machine can reach an object of that forbids extra keys and has no
property, or one whose name cannot be typed. -/
inductive Trap : Node → Prop where
  | object : (properties = [] ∨ ∃ p ∈ properties, ¬ Typeable p.1) →
      Trap (.object properties required false)
  | property : Typeable name → Map.get name properties = some child → Trap child →
      Trap (.object properties required additional)
  | items : Trap child → Trap (.array child)

/-! An object with no typeable name left, behind an open quote. -/

/-- No name can be typed that the object allows. -/
def Exhausted (o : ObjectFrame) : Prop := ∀ name, Typeable name → o.allows name = false

/-- An open key of an object that no key can close. -/
def KeyStuck (m : SchemaMode) : Prop :=
  ∃ o cs, m = .key o cs ∧ o.pendingKey = [] ∧ Exhausted o

theorem keyStuck_closed : reader.Closed KeyStuck := by
  intro t cs _ h
  obtain ⟨o, cs', hm, -⟩ := h
  cases hm

theorem keyStuck_dead (h : KeyStuck m) (w : Bytes) : ¬ reader.Acc m w := by
  intro hacc
  obtain ⟨o, cs, rfl, hp, hex⟩ := h
  obtain ⟨body, o', v, r, -, hk, -⟩ := Reader.acc_demand reader_recognises hacc
  obtain ⟨hb, hal, -⟩ := (key_takes o o' body v).mp hk
  rw [hp, List.nil_append] at hal
  have hno := hex _ (keyText_typeable hb)
  rw [hno] at hal
  cases hal

/-- A typeable name the object allows leads to the value under it. -/
theorem key_ends {P : SchemaMode → Prop} {o : ObjectFrame} (mayClose : Bool) (hn : Typeable name)
    (hal : o.allows name = true)
    (hv : ∃ w, reader.Ends P (.value (governed o.nodeProps name) (.obj (see o name) :: cs)) w) :
    ∃ w, reader.Ends P (.member mayClose o cs) w := by
  obtain ⟨key, hkb, rfl⟩ := typeable_key hn
  obtain ⟨w, hw⟩ := hv
  have hentry := entry_iff.mpr ⟨hkb, hal, rfl, rfl⟩
  exact ⟨_, Reader.entry_ends reader_recognises mayClose isWs_nil isWs_nil isWs_nil hentry hw⟩

/-- A value can be read through, and what is around it goes on. -/
theorem value_ends {P : SchemaMode → Prop} (hP : reader.Closed P) (hv : Takable node)
    (he : Reader.Expects node m cs)
    (ha : ∃ w, Follows w.head? ∧ reader.Ends P (.after cs) w) : ∃ w, reader.Ends P m w := by
  obtain ⟨d, hd⟩ := hv
  obtain ⟨w, hf, hw⟩ := ha
  exact ⟨_, Reader.doc_ends reader_recognises hP he hf hw (hd w.head?)⟩

theorem quote_ends {P : SchemaMode → Prop} {o : ObjectFrame} (mayClose : Bool)
    (h : reader.Ends P (.key { o with pendingKey := [] } cs) w) :
    reader.Ends P (.member mayClose o cs) (0x22 :: w) :=
  (Reader.ends_cons (by simp [Reader.step, isWs, reader])).mpr h

theorem comma_ends {P : SchemaMode → Prop} {o : ObjectFrame} (hadd : o.canAdd = true)
    (h : reader.Ends P (.member false o cs) w) :
    reader.Ends P (.after (.obj o :: cs)) (0x2C :: w) := by
  have hcomma : reader.comma o = true := hadd
  refine (Reader.ends_cons ?_).mpr h
  simp only [Reader.step, Reader.afterAny, Reader.afterStep, hcomma]
  rfl

theorem comma_follows (w : Bytes) : Follows (0x2C :: w).head? := by
  intro b hb
  cases hb
  exact .inr (.inl rfl)

/-- The properties not seen yet. -/
def unseen (o : ObjectFrame) : List (Name × Node) :=
  o.nodeProps.filter fun p => !o.seen.contains p.1

theorem mem_unseen {o : ObjectFrame} : p ∈ unseen o ↔ p ∈ o.nodeProps ∧ p.1 ∉ o.seen := by
  simp [unseen]

theorem unseen_see {o : ObjectFrame} (hx : (name, x) ∈ o.nodeProps) (hn : name ∉ o.seen) :
    (unseen (see o name)).length < (unseen o).length := by
  have hfilter : unseen (see o name) = (unseen o).filter fun p => decide (p.1 ≠ name) := by
    simp only [unseen, see_nodeProps, see_seen, List.filter_filter]
    apply List.filter_congr
    intro p _
    apply Bool.eq_iff_iff.mpr
    simp [not_or]
  rw [hfilter]
  apply List.length_filter_lt_length_iff_exists.mpr
  exact ⟨(name, x), mem_unseen.mpr ⟨hx, hn⟩, by simp⟩

/-- From an object that allows properties only, with none or one that cannot be
typed, the machine can be led behind a quote that no key closes. -/
theorem exhausted_reached (o : ObjectFrame) (mayClose : Bool) (cs : List SchemaCtx)
    (hadd : o.additional = false) (hv : ∀ name, Typeable name → Takable (governed o.nodeProps name))
    (hroom : o.nodeProps = [] ∨ ∃ p ∈ o.nodeProps, ¬ Typeable p.1 ∧ p.1 ∉ o.seen) :
    ∃ w, reader.Ends KeyStuck (.member mayClose o cs) w := by
  by_cases hex : Exhausted o
  · refine ⟨[0x22], quote_ends mayClose ⟨_, rfl, { o with pendingKey := [] }, cs, rfl, rfl, ?_⟩⟩
    intro name hn
    exact hex name hn
  · have hname : ∃ name, Typeable name ∧ o.allows name = true := by
      apply Classical.byContradiction
      intro hno
      apply hex
      intro name hn
      cases hal : o.allows name with
      | false => rfl
      | true => exact absurd ⟨name, hn, hal⟩ hno
    obtain ⟨name, hn, hal⟩ := hname
    obtain ⟨hx, hfresh⟩ := allows_iff.mp hal
    obtain ⟨x, hx⟩ : ∃ x, (name, x) ∈ o.nodeProps := by
      rcases hx with hx | hx
      · rw [hadd] at hx
        cases hx
      · exact hx
    have hroom' : ∃ p ∈ o.nodeProps, ¬ Typeable p.1 ∧ p.1 ∉ (see o name).seen := by
      rcases hroom with hnil | ⟨p, hp, ht, hs⟩
      · rw [hnil] at hx
        cases hx
      · refine ⟨p, hp, ht, ?_⟩
        intro hmem
        rcases List.mem_cons.mp hmem with heq | hmem
        · exact ht (heq ▸ hn)
        · exact hs hmem
    have hcan : (see o name).canAdd = true := by
      obtain ⟨p, hp, -, hs⟩ := hroom'
      exact canAdd_iff.mpr (.inr ⟨p, hp, hs⟩)
    have hless := unseen_see hx hfresh
    obtain ⟨w, hw⟩ := exhausted_reached (see o name) false cs hadd hv (.inr hroom')
    exact key_ends mayClose hn hal
      (value_ends keyStuck_closed (hv name hn) .value ⟨_, comma_follows w, comma_ends hcan hw⟩)
termination_by (unseen o).length

theorem any_satisfiable : Satisfiable .any := by
  refine ⟨[0x6E, 0x75, 0x6C, 0x6C], ?_⟩
  decide +kernel

/-- Every compiled sub-node is satisfiable. -/
def AllSatisfiable (node : Node) : Prop := ∀ sub, SubNode node sub → Satisfiable sub

theorem governed_satisfiable (h : AllSatisfiable (.object properties required additional))
    (name : Name) : AllSatisfiable (governed properties name) := by
  intro sub hs
  cases hget : Map.get name properties with
  | none =>
    have hany : governed properties name = .any := by simp [governed, hget]
    rw [hany] at hs
    cases hs
    exact any_satisfiable
  | some child =>
    rw [get_governed hget] at hs
    exact h sub (.property hget hs)

theorem governed_takable (h : AllSatisfiable (.object properties required additional))
    (name : Name) : Takable (governed properties name) :=
  satisfiable_takable (governed_satisfiable h name _ .self)

/-- A trap can be reached from wherever its node is due. -/
theorem trap_reached (h : Trap node) (hs : AllSatisfiable node) (he : Reader.Expects node m cs) :
    ∃ w, reader.Ends KeyStuck m w := by
  induction h generalizing m cs with
  | @object properties required hroom =>
    have hstart : reader.start (.object properties required false) 0x7B =
        some (.obj ⟨properties, required, false, [], []⟩) := rfl
    have hstep := Reader.expects_step reader_recognises he hstart
    have hroom' : properties = [] ∨ ∃ p ∈ properties, ¬ Typeable p.1 ∧ p.1 ∉ ([] : List Name) := by
      rcases hroom with hnil | ⟨p, hp, ht⟩
      · exact .inl hnil
      · exact .inr ⟨p, hp, ht, by simp⟩
    obtain ⟨w, hw⟩ := exhausted_reached ⟨properties, required, false, [], []⟩ true cs rfl
      (fun name _ => governed_takable hs name) hroom'
    exact ⟨_, (Reader.ends_cons hstep).mpr hw⟩
  | @property name properties child required additional hn hget _ ih =>
    have hstart : reader.start (.object properties required additional) 0x7B =
        some (.obj ⟨properties, required, additional, [], []⟩) := rfl
    have hstep := Reader.expects_step reader_recognises he hstart
    have hchild : AllSatisfiable child := fun sub hsub => hs sub (.property hget hsub)
    have hal : ObjectFrame.allows ⟨properties, required, additional, [], []⟩ name = true := by
      apply allows_iff.mpr
      refine ⟨.inr (get_isSome.mp ?_), by simp⟩
      simp [Map.containsKey, hget]
    have hvalue : ∃ w, reader.Ends KeyStuck (.value (governed properties name)
        (.obj (see ⟨properties, required, additional, [], []⟩ name) :: cs)) w := by
      rw [get_governed hget]
      exact ih hchild .value
    obtain ⟨w, hw⟩ := key_ends true hn hal hvalue
    exact ⟨_, (Reader.ends_cons hstep).mpr hw⟩
  | @items child _ ih =>
    have hstart : reader.start (.array child) 0x5B = some (.arr child) := rfl
    have hstep := Reader.expects_step reader_recognises he hstart
    have hchild : AllSatisfiable child := fun sub hsub => hs sub (.items hsub)
    obtain ⟨w, hw⟩ := ih hchild (.item true)
    exact ⟨_, (Reader.ends_cons hstep).mpr hw⟩

end Flambeau.Runtime.SchemaReader
