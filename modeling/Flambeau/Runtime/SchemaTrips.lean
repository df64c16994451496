import Flambeau.Runtime.SchemaConforms

namespace Flambeau.Runtime.SchemaReader
open Flambeau.Json Flambeau.Runtime.JsonSchema

mutual

/-- Every object key is written without escapes, and none twice in an object. -/
def PlainKeys : Doc → Prop
  | .arr is => ItemsPlain is
  | .obj ms => (keys ms).Nodup ∧ (∀ key ∈ keys ms, 0x5C ∉ key) ∧ MembersPlain ms
  | _ => True

def ItemsPlain : Items → Prop
  | .close _ => True
  | .last _ d _ => PlainKeys d
  | .more _ d _ rest => PlainKeys d ∧ ItemsPlain rest

def MembersPlain : Members → Prop
  | .close _ => True
  | .last _ _ _ _ d _ => PlainKeys d
  | .more _ _ _ _ d _ rest => PlainKeys d ∧ MembersPlain rest

end

mutual

/-- What stops the machine in a conforming value: an enum literal that is a
proper prefix of another and is not the last byte of the input; two keys of an
object it reads alike; a key it reads as no property where only properties are
allowed; a required name it reads in no key; a value it checks, through a garbled
key, against a node that does not take it. -/
def Trips : Node → Doc → Option UInt8 → Prop
  | .enum candidates, d, next =>
    next ≠ none ∧ ∃ c ∈ candidates, d.bytes <+: c.bytes ∧ c.bytes ≠ d.bytes
  | .array items, .arr is, _ => ItemsTrip items is
  | .any, .arr is, _ => ItemsTrip .any is
  | .object properties required additional, .obj ms, _ =>
    ¬ (texts ms).Nodup ∨
    (∃ k ∈ texts ms, additional = false ∧ Map.get k properties = none) ∨
    (∃ r ∈ required, r ∉ texts ms) ∨
    MembersTrip properties ms
  | .any, .obj ms, _ => ¬ (texts ms).Nodup ∨ MembersTrip [] ms
  | _, _, _ => False

def ItemsTrip (node : Node) : Items → Prop
  | .close _ => False
  | .last _ d post => Trips node d (post ++ [0x5D]).head?
  | .more _ d post rest => Trips node d (post ++ [0x2C]).head? ∨ ItemsTrip node rest

def MembersTrip (properties : List (Name × Node)) : Members → Prop
  | .close _ => False
  | .last _ key _ _ d post =>
    (¬ Garbled key ∧ Trips (governed properties (keyText key)) d (post ++ [0x7D]).head?) ∨
      (Garbled key ∧
        ¬ d.Ok schemaGrammar (governed properties (keyText key)) (post ++ [0x7D]).head?)
  | .more _ key _ _ d post rest =>
    (¬ Garbled key ∧ Trips (governed properties (keyText key)) d (post ++ [0x2C]).head?) ∨
      (Garbled key ∧
        ¬ d.Ok schemaGrammar (governed properties (keyText key)) (post ++ [0x2C]).head?) ∨
      MembersTrip properties rest

end

theorem enum_trips {candidates : List Literal} {d : Doc} (hok : d.Ok rfc8259 () n)
    (hc : ∃ c ∈ candidates, c.bytes = d.bytes) :
    EnumLeaf candidates d next ↔ ¬ Trips (.enum candidates) d next := by
  have hok' : d.Ok rfc8259 () none := rfc_next hok
  simp only [EnumLeaf, Trips, hok', hc, true_and]
  constructor
  · rintro (hn | h) ⟨hne, c, hc, hp, hb⟩
    · exact hne hn
    · exact hb (h c hc hp)
  · intro h
    by_cases hn : next = none
    · exact .inl hn
    · refine .inr ?_
      intro c hc hp
      by_cases hb : c.bytes = d.bytes
      · exact hb
      · exact absurd ⟨hn, c, hc, hp, hb⟩ h

theorem enum_ok_iff {candidates : List Literal} {d : Doc} :
    d.Ok schemaGrammar (.enum candidates) next ↔ EnumLeaf candidates d next := by
  cases d with
  | arr items =>
    refine ⟨fun h => h.resolve_right ?_, .inl⟩
    rintro ⟨v', hv | ⟨hv, -⟩, -⟩ <;> cases hv
  | obj members =>
    refine ⟨fun h => h.resolve_right ?_, .inl⟩
    rintro ⟨o, ⟨_, _, _, hv, -⟩ | ⟨hv, -⟩, -⟩ <;> cases hv
  | _ => exact Iff.rfl

/-- Tokens other than enum literals never trip. -/
theorem leaf_taken {d : Doc} (hl : RfcLeaf d) (hc : Conforms node d)
    (hne : ∀ candidates, node ≠ .enum candidates) : SchemaLeaf node d next := by
  have hnum : ∀ {w : Bytes}, (∃ n : Json.Num, n.Rfc ∧ n.bytes = w) → LooseNumber w next :=
    fun ⟨n, hn, hb⟩ => ⟨n, hn.toLoose, hb, fun ho => absurd ho hn.exp_digits⟩
  cases node with
  | enum candidates => exact absurd rfl (hne candidates)
  | any =>
    cases d with
    | lit w => exact hl
    | num w => exact hnum hl
    | str body => exact hl
    | arr items => exact hl.elim
    | obj members => exact hl.elim
  | bool =>
    cases d with
    | lit w => exact hc.imp (congrArg Doc.lit) (congrArg Doc.lit)
    | _ => exact hc.elim
  | null =>
    cases d with
    | lit w => exact congrArg Doc.lit hc
    | _ => exact hc.elim
  | int =>
    cases d with
    | num w => exact ⟨w, rfl, hc⟩
    | _ => exact hc.elim
  | num =>
    cases d with
    | num w => exact ⟨w, rfl, hnum hl⟩
    | _ => exact hc.elim
  | str =>
    cases d with
    | str body => exact ⟨body, rfl, hl⟩
    | _ => exact hc.elim
  | object properties required additional => cases d <;> first | exact hc.elim | exact hl.elim
  | array items => cases d <;> first | exact hc.elim | exact hl.elim

theorem plain_keyBytes (h : Chars key) (hp : 0x5C ∉ key) : KeyBytes key := by
  induction h with
  | nil => simp [KeyBytes]
  | plain hge hq hs _ ih =>
    exact keyBytes_cons.mpr ⟨⟨hq, hs, .inr hge⟩, ih fun h => hp (List.mem_cons_of_mem _ h)⟩
  | escape => simp at hp
  | unicode => simp at hp

theorem rest_key : ∀ {ms : Members}, ms.Ok rfc8259 () false → ∃ key, key ∈ keys ms
  | .close _, h => by cases h.2.1
  | .last _ key _ _ _ _, _ => ⟨key, by simp [keys]⟩
  | .more _ key _ _ _ _ _, _ => ⟨key, by simp [keys]⟩

theorem allows_of_facts {o : ObjectFrame} {ms : Members} (hf : KeyFacts o ms) (hk : key ∈ keys ms) :
    o.allows (keyText key) = true :=
  allows_iff.mpr ⟨hf.allowed _ (mem_texts hk), hf.fresh _ (mem_texts hk)⟩

/-- The facts about the members after the first. -/
theorem rest_facts {o : ObjectFrame} {pre key mid sep post : Bytes} {d : Doc} {rest : Members}
    (hf : KeyFacts o (.more pre key mid sep d post rest)) :
    KeyFacts (see o (keyText key)) rest := by
  obtain ⟨hn, hfresh, hal, hreq⟩ := hf
  simp only [texts, keys, List.map_cons, List.nodup_cons] at hn
  refine ⟨hn.2, ?_, ?_, ?_⟩
  · intro k hk hs
    rcases List.mem_cons.mp hs with rfl | hs
    · exact hn.1 hk
    · exact hfresh k (List.mem_cons_of_mem _ hk) hs
  · intro k hk
    exact hal k (List.mem_cons_of_mem _ hk)
  · intro r hr
    rcases hreq r hr with hs | ht
    · exact .inl (List.mem_cons_of_mem _ hs)
    · rcases List.mem_cons.mp ht with rfl | ht
      · exact .inl (by simp)
      · exact .inr ht

/-- Members whose keys fit the object and whose values are taken are members
the machine reads. -/
theorem members_of_facts : ∀ {ms : Members} {o : ObjectFrame} {c : Bool}, ms.Ok rfc8259 () c →
    (∀ key ∈ keys ms, 0x5C ∉ key) → KeyFacts o ms → Values o.nodeProps ms →
    ms.Ok schemaGrammar o c
  | .close _, o, _, h, _, hf, _ => by
    refine ⟨h.1, h.2.1, complete_iff.mpr fun r hr => ?_⟩
    simpa [texts, keys] using hf.required r hr
  | .last pre key mid sep d post, o, _, h, hp, hf, hv => by
    obtain ⟨hpre, hmid, hsep, hpost, _, _, hk, -, -⟩ := h
    have hmem : key ∈ keys (.last pre key mid sep d post) := by simp [keys]
    refine ⟨hpre, hmid, hsep, hpost, see o (keyText key), governed o.nodeProps (keyText key),
      entry_iff.mpr ⟨plain_keyBytes hk (hp key hmem), allows_of_facts hf hmem, rfl, rfl⟩, hv,
      complete_iff.mpr fun r hr => ?_⟩
    rcases hf.required r hr with hs | ht
    · exact List.mem_cons_of_mem _ hs
    · simp only [texts, keys, List.map_cons, List.map_nil, List.mem_singleton] at ht
      simp [ht]
  | .more pre key mid sep d post rest, o, _, h, hp, hf, hv => by
    obtain ⟨hpre, hmid, hsep, hpost, _, _, hk, -, -, hrest⟩ := h
    have hmem : key ∈ keys (.more pre key mid sep d post rest) := by simp [keys]
    have hrf := rest_facts hf
    have hadd : (see o (keyText key)).canAdd = true := by
      obtain ⟨key', hkey'⟩ := rest_key hrest
      obtain ⟨hal, hfresh⟩ := allows_iff.mp (allows_of_facts hrf hkey')
      rcases hal with hadd | ⟨x, hx⟩
      · exact canAdd_iff.mpr (.inl hadd)
      · exact canAdd_iff.mpr (.inr ⟨_, hx, hfresh⟩)
    refine ⟨hpre, hmid, hsep, hpost, see o (keyText key), governed o.nodeProps (keyText key),
      entry_iff.mpr ⟨plain_keyBytes hk (hp key hmem), allows_of_facts hf hmem, rfl, rfl⟩, hv.1,
      hadd, ?_⟩
    exact members_of_facts hrest (fun k hk => hp k (List.mem_cons_of_mem _ hk)) hrf hv.2

theorem governed_conforms {properties : List (Name × Node)} {d : Doc} (hg : ¬ Garbled key)
    (h : ∀ name node, Map.get name properties = some node → utf8 name = key → Conforms node d) :
    Conforms (governed properties (keyText key)) d := by
  cases hget : Map.get (keyText key) properties with
  | none => simp [governed, hget, Conforms]
  | some node =>
    rw [get_governed hget]
    exact h _ node hget (Decidable.not_not.mp hg)

/-- A member's value is taken unless it trips, given the claim for the value. -/
theorem value_trips {d : Doc} {properties : List (Name × Node)} (next : Option UInt8)
    (h : ∀ name node, Map.get name properties = some node → utf8 name = key → Conforms node d)
    (ih : Conforms (governed properties (keyText key)) d →
      (d.Ok schemaGrammar (governed properties (keyText key)) next ↔
        ¬ Trips (governed properties (keyText key)) d next)) :
    d.Ok schemaGrammar (governed properties (keyText key)) next ↔
      ¬ ((¬ Garbled key ∧ Trips (governed properties (keyText key)) d next) ∨
        (Garbled key ∧ ¬ d.Ok schemaGrammar (governed properties (keyText key)) next)) := by
  by_cases hg : Garbled key
  · simp [hg]
  · simp only [hg, not_false_eq_true, true_and, false_and, or_false]
    exact ih (governed_conforms hg h)

theorem object_trips {ms : Members} {properties : List (Name × Node)} (required : List Name)
    (additional : Bool) (hm : ms.Ok rfc8259 () true) (hk : ∀ key ∈ keys ms, 0x5C ∉ key)
    (hv : Values properties ms ↔ ¬ MembersTrip properties ms) :
    ms.Ok schemaGrammar ⟨properties, required, additional, [], []⟩ true ↔
      ¬ (¬ (texts ms).Nodup ∨ (∃ k ∈ texts ms, additional = false ∧ Map.get k properties = none) ∨
        (∃ r ∈ required, r ∉ texts ms) ∨ MembersTrip properties ms) := by
  simp only [not_or, Decidable.not_not]
  rw [← hv]
  constructor
  · intro h
    obtain ⟨hf, hvals⟩ := members_facts h
    refine ⟨hf.nodup, ?_, ?_, hvals⟩
    · rintro ⟨k, hk, ha, hget⟩
      rcases hf.allowed k hk with hadd | hx
      · simp [ha] at hadd
      · have hsome := get_isSome.mpr hx
        simp [Map.containsKey, hget] at hsome
    · rintro ⟨r, hr, hn⟩
      rcases hf.required r hr with hs | ht
      · cases hs
      · exact hn ht
  · rintro ⟨hn, hal, hreq, hvals⟩
    refine members_of_facts hm hk ⟨hn, by simp, ?_, ?_⟩ hvals
    · intro k hk
      cases ha : additional with
      | true => exact .inl rfl
      | false =>
        refine .inr (get_isSome.mp ?_)
        cases hget : Map.get k properties with
        | none => exact absurd ⟨k, hk, ha, hget⟩ hal
        | some node => simp [Map.containsKey, hget]
    · intro r hr
      by_cases ht : r ∈ texts ms
      · exact .inr ht
      · exact absurd ⟨r, hr, ht⟩ hreq

theorem leaf_trips {d : Doc} (hl : RfcLeaf d) (hok : d.Ok rfc8259 () n) (hc : Conforms node d) :
    d.Ok schemaGrammar node next ↔ ¬ Trips node d next := by
  by_cases hne : ∀ candidates, node ≠ .enum candidates
  · have htrip : ¬ Trips node d next := by
      cases node with
      | enum candidates => exact absurd rfl (hne candidates)
      | any => cases d <;> first | exact id | exact hl.elim
      | object properties required additional => cases d <;> first | exact id | exact hl.elim
      | array items => cases d <;> first | exact id | exact hl.elim
      | _ => simp [Trips]
    exact iff_of_true (ok_of_leaf (leaf_taken hl hc hne)) htrip
  · cases node with
    | enum candidates =>
      exact enum_ok_iff.trans (enum_trips hok (by simpa [Conforms] using hc))
    | _ => exact absurd (by simp) hne

theorem items_any : ∀ is : Items, ItemsConform .any is
  | .close _ => trivial
  | .last _ d _ => by simp [ItemsConform, Conforms]
  | .more _ d _ rest => ⟨by simp [Conforms], items_any rest⟩

theorem members_any : ∀ ms : Members, MembersConform [] ms
  | .close _ => trivial
  | .last _ _ _ _ _ _ => by simp [MembersConform, Map.get]
  | .more _ _ _ _ _ _ rest => ⟨by simp [Map.get], members_any rest⟩

theorem arr_ok_iff {is : Items} {items : Node} (hv : ∀ v', schemaGrammar.arr v v' ↔ v' = items)
    (hl : ¬ SchemaLeaf v (.arr is) next) :
    (Doc.arr is).Ok schemaGrammar v next ↔ is.Ok schemaGrammar items true := by
  constructor
  · intro h
    obtain ⟨v', harr, hi⟩ := h.resolve_left hl
    exact (hv v').mp harr ▸ hi
  · intro h
    exact .inr ⟨items, (hv items).mpr rfl, h⟩

theorem obj_ok_iff {ms : Members} {o : ObjectFrame} (hv : ∀ o', schemaGrammar.obj v o' ↔ o' = o)
    (hl : ¬ SchemaLeaf v (.obj ms) next) :
    (Doc.obj ms).Ok schemaGrammar v next ↔ ms.Ok schemaGrammar o true := by
  constructor
  · intro h
    obtain ⟨o', hobj, hm⟩ := h.resolve_left hl
    exact (hv o').mp hobj ▸ hm
  · intro h
    exact .inr ⟨o, (hv o).mpr rfl, h⟩

theorem any_arr (v' : Node) : schemaGrammar.arr .any v' ↔ v' = .any := by
  simp [schemaGrammar]

theorem array_arr (items v' : Node) : schemaGrammar.arr (.array items) v' ↔ v' = items := by
  constructor
  · rintro (h | ⟨h, -⟩) <;> cases h
    rfl
  · rintro rfl
    exact .inl rfl

theorem any_obj (o : ObjectFrame) : schemaGrammar.obj .any o ↔ o = anyFrame := by
  simp [schemaGrammar]

theorem object_obj (properties : List (Name × Node)) (required : List Name) (additional : Bool)
    (o : ObjectFrame) : schemaGrammar.obj (.object properties required additional) o ↔
      o = ⟨properties, required, additional, [], []⟩ := by
  constructor
  · rintro (⟨_, _, _, h, rfl⟩ | ⟨h, -⟩) <;> cases h
    rfl
  · rintro rfl
    exact .inl ⟨_, _, _, rfl, rfl⟩

mutual

/-- A conforming value with plain keys is taken unless it trips the machine. -/
theorem ok_iff_not_trips : ∀ {d : Doc} {node : Node} {n next : Option UInt8},
    d.Ok rfc8259 () n → PlainKeys d → Conforms node d →
    (d.Ok schemaGrammar node next ↔ ¬ Trips node d next)
  | .lit w, node, _, _, h, _, hc => leaf_trips h h hc
  | .num w, node, _, _, h, _, hc => leaf_trips h h hc
  | .str body, node, _, _, h, _, hc => leaf_trips h h hc
  | .arr is, node, _, _, h, hp, hc => by
    obtain ⟨_, _, hi⟩ := h.resolve_left id
    cases node with
    | enum candidates => exact enum_ok_iff.trans (enum_trips h hc)
    | any => exact (arr_ok_iff any_arr id).trans (items_trips hi hp (items_any is))
    | array items => exact (arr_ok_iff (array_arr items) id).trans (items_trips hi hp hc)
    | _ => exact hc.elim
  | .obj ms, node, _, _, h, hp, hc => by
    obtain ⟨_, _, hm⟩ := h.resolve_left id
    obtain ⟨-, hplain, hsub⟩ := hp
    cases node with
    | enum candidates => exact enum_ok_iff.trans (enum_trips h hc)
    | any =>
      have hobj := object_trips [] true hm hplain
        (members_trips hm hsub (members_any ms))
      refine (obj_ok_iff any_obj id).trans (hobj.trans ?_)
      simp [Trips]
    | object properties required additional =>
      obtain ⟨-, -, -, hconf⟩ := hc
      exact (obj_ok_iff (object_obj properties required additional) id).trans
        (object_trips required additional hm hplain (members_trips hm hsub hconf))
    | _ => exact hc.elim

theorem items_trips : ∀ {is : Items} {node : Node} {c : Bool}, is.Ok rfc8259 () c → ItemsPlain is →
    ItemsConform node is → (is.Ok schemaGrammar node c ↔ ¬ ItemsTrip node is)
  | .close _, _, _, h, _, _ => by simp [ItemsTrip, Items.Ok, h.1, h.2]
  | .last _ d post, _, _, h, hp, hc => by
    obtain ⟨hpre, hd, hpost⟩ := h
    simp only [Items.Ok, ItemsTrip, hpre, hpost, true_and, and_true]
    exact ok_iff_not_trips hd hp hc
  | .more _ d post rest, _, _, h, hp, hc => by
    obtain ⟨hpre, hd, hpost, hrest⟩ := h
    simp only [Items.Ok, ItemsTrip, hpre, hpost, true_and, not_or]
    exact and_congr (ok_iff_not_trips hd hp.1 hc.1) (items_trips hrest hp.2 hc.2)

theorem members_trips {properties : List (Name × Node)} : ∀ {ms : Members} {c : Bool},
    ms.Ok rfc8259 () c → MembersPlain ms → MembersConform properties ms →
    (Values properties ms ↔ ¬ MembersTrip properties ms)
  | .close _, _, _, _, _ => by simp [Values, MembersTrip]
  | .last _ key _ _ d post, _, h, hp, hc => by
    obtain ⟨-, -, -, -, _, _, -, hd, -⟩ := h
    simp only [Values, MembersTrip]
    exact value_trips _ hc (ok_iff_not_trips hd hp)
  | .more _ key _ _ d post rest, _, h, hp, hc => by
    obtain ⟨-, -, -, -, _, _, -, hd, -, hrest⟩ := h
    simp only [Values, MembersTrip, ← or_assoc]
    rw [not_or]
    exact and_congr (value_trips _ hc.1 (ok_iff_not_trips hd hp.1))
      (members_trips hrest hp.2 hc.2)

end

end Flambeau.Runtime.SchemaReader
