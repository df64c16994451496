import Flambeau.Json.Defects
import Flambeau.Runtime.SchemaLanguage

namespace Flambeau.Runtime.SchemaReader
open Flambeau.Json Flambeau.Runtime.JsonSchema

/-- The UTF-8 bytes of a name. -/
def utf8 (name : Name) : Bytes := name.flatMap String.utf8EncodeChar

def keys : Members → List Bytes
  | .close _ => []
  | .last _ key _ _ _ _ => [key]
  | .more _ key _ _ _ _ rest => key :: keys rest

/-- The node an object's properties give a name, `any` when they give none. -/
def governed (properties : List (Name × Node)) (name : Name) : Node :=
  (Map.get name properties).getD .any

mutual

/-- The value conforms to the compiled schema. -/
def Conforms : Node → Doc → Prop
  | .any, _ => True
  | .enum candidates, d => ∃ c ∈ candidates, c.bytes = d.bytes
  | .bool, .lit w => w = trueBytes ∨ w = falseBytes
  | .null, .lit w => w = nullBytes
  | .int, .num w => WholeNumber w
  | .num, .num _ => True
  | .str, .str _ => True
  | .array items, .arr is => ItemsConform items is
  | .object properties required additional, .obj ms =>
    (keys ms).Nodup ∧
    (∀ key ∈ keys ms,
      additional = true ∨ ∃ name node, Map.get name properties = some node ∧ utf8 name = key) ∧
    (∀ r ∈ required, utf8 r ∈ keys ms) ∧
    MembersConform properties ms
  | _, _ => False

def ItemsConform (node : Node) : Items → Prop
  | .close _ => True
  | .last _ d _ => Conforms node d
  | .more _ d _ rest => Conforms node d ∧ ItemsConform node rest

/-- Every known property's value conforms to its own node. -/
def MembersConform (properties : List (Name × Node)) : Members → Prop
  | .close _ => True
  | .last _ key _ _ d _ =>
    ∀ name node, Map.get name properties = some node → utf8 name = key → Conforms node d
  | .more _ key _ _ d _ rest =>
    (∀ name node, Map.get name properties = some node → utf8 name = key → Conforms node d) ∧
      MembersConform properties rest

end

/-- A key whose bytes do not spell what the machine reads. -/
def Garbled (key : Bytes) : Prop := utf8 (keyText key) ≠ key

mutual

/-- An object read through garbled keys as something it is not: a garbled key is
no property, a required name is only misread, or a garbled key spells a property
whose node its value does not conform to. -/
def Misread : Node → Doc → Prop
  | .array items, .arr is => ItemsMisread items is
  | .object properties required additional, .obj ms =>
    (∃ key ∈ keys ms, Garbled key ∧ additional = false ∧
      ∀ name node, Map.get name properties = some node → utf8 name ≠ key) ∨
    (∃ r ∈ required, utf8 r ∉ keys ms ∧ ∃ key ∈ keys ms, keyText key = r) ∨
    MembersMisread properties ms
  | _, _ => False

def ItemsMisread (node : Node) : Items → Prop
  | .close _ => False
  | .last _ d _ => Misread node d
  | .more _ d _ rest => Misread node d ∨ ItemsMisread node rest

def MembersMisread (properties : List (Name × Node)) : Members → Prop
  | .close _ => False
  | .last _ key _ _ d _ =>
    ∃ name node, Map.get name properties = some node ∧ utf8 name = key ∧
      ((keyText key = name ∧ Misread node d) ∨ (keyText key ≠ name ∧ ¬ Conforms node d))
  | .more _ key _ _ d _ rest =>
    (∃ name node, Map.get name properties = some node ∧ utf8 name = key ∧
      ((keyText key = name ∧ Misread node d) ∨ (keyText key ≠ name ∧ ¬ Conforms node d))) ∨
    MembersMisread properties rest

end

/-- Every member's value is a value due at the node the machine picks for its key. -/
def Values (properties : List (Name × Node)) : Members → Prop
  | .close _ => True
  | .last _ key _ _ d post =>
    d.Ok schemaGrammar (governed properties (keyText key)) (post ++ [0x7D]).head?
  | .more _ key _ _ d post rest =>
    d.Ok schemaGrammar (governed properties (keyText key)) (post ++ [0x2C]).head? ∧
      Values properties rest

def texts (ms : Members) : List Name := (keys ms).map keyText

@[simp] theorem see_nodeProps (o : ObjectFrame) (n : Name) : (see o n).nodeProps = o.nodeProps := rfl

@[simp] theorem see_required (o : ObjectFrame) (n : Name) : (see o n).required = o.required := rfl

@[simp] theorem see_additional (o : ObjectFrame) (n : Name) :
    (see o n).additional = o.additional := rfl

@[simp] theorem see_seen (o : ObjectFrame) (n : Name) : (see o n).seen = n :: o.seen := rfl

@[simp] theorem see_valueNode (o : ObjectFrame) (n : Name) :
    (see o n).valueNode = governed o.nodeProps n := rfl

theorem complete_iff {o : ObjectFrame} : o.complete = true ↔ ∀ r ∈ o.required, r ∈ o.seen := by
  simp [ObjectFrame.complete]

theorem canAdd_iff {o : ObjectFrame} : o.canAdd = true ↔
    o.additional = true ∨ ∃ p ∈ o.nodeProps, p.1 ∉ o.seen := by
  simp [ObjectFrame.canAdd]

theorem entry_iff {o o' : ObjectFrame} {key : Bytes} : schemaGrammar.entry o key o' v ↔
    KeyBytes key ∧ o.allows (keyText key) = true ∧ o' = see o (keyText key) ∧
      v = governed o.nodeProps (keyText key) := by
  constructor
  · rintro ⟨hk, ha, rfl, rfl⟩
    exact ⟨hk, ha, rfl, rfl⟩
  · rintro ⟨hk, ha, rfl, rfl⟩
    exact ⟨hk, ha, rfl, rfl⟩

/-- What an object's members say about its keys. -/
structure KeyFacts (o : ObjectFrame) (ms : Members) : Prop where
  nodup : (texts ms).Nodup
  fresh : ∀ k ∈ texts ms, k ∉ o.seen
  allowed : ∀ k ∈ texts ms, o.additional = true ∨ ∃ x, (k, x) ∈ o.nodeProps
  required : ∀ r ∈ o.required, r ∈ o.seen ∨ r ∈ texts ms

theorem members_facts : ∀ {ms : Members} {o : ObjectFrame} {c : Bool}, ms.Ok schemaGrammar o c →
    KeyFacts o ms ∧ Values o.nodeProps ms
  | .close _, o, _, h => by
    have hc := complete_iff.mp h.2.2
    exact ⟨⟨by simp [texts, keys], by simp [texts, keys], by simp [texts, keys],
      fun r hr => .inl (hc r hr)⟩, trivial⟩
  | .last _ key _ _ d post, o, _, h => by
    obtain ⟨-, -, -, -, o', v, he, hd, hc⟩ := h
    obtain ⟨-, ha, rfl, rfl⟩ := entry_iff.mp he
    obtain ⟨hallow, hfresh⟩ := allows_iff.mp ha
    have hreq := complete_iff.mp hc
    refine ⟨⟨by simp [texts, keys], ?_, ?_, ?_⟩, hd⟩
    · intro k hk
      simp only [texts, keys, List.map_cons, List.map_nil, List.mem_singleton] at hk
      rw [hk]
      exact hfresh
    · intro k hk
      simp only [texts, keys, List.map_cons, List.map_nil, List.mem_singleton] at hk
      rw [hk]
      exact hallow
    · intro r hr
      rcases List.mem_cons.mp (hreq r hr) with rfl | hs
      · exact .inr (by simp [texts, keys])
      · exact .inl hs
  | .more _ key _ _ d post rest, o, _, h => by
    obtain ⟨-, -, -, -, o', v, he, hd, -, hrest⟩ := h
    obtain ⟨-, ha, rfl, rfl⟩ := entry_iff.mp he
    obtain ⟨hallow, hfresh⟩ := allows_iff.mp ha
    obtain ⟨⟨hn, hf, hal, hreq⟩, hv⟩ := members_facts hrest
    refine ⟨⟨?_, ?_, ?_, ?_⟩, hd, hv⟩
    · simp only [texts, keys, List.map_cons, List.nodup_cons]
      exact ⟨fun hk => hf _ hk (by simp), hn⟩
    · intro k hk
      rcases List.mem_cons.mp hk with rfl | hk
      · exact hfresh
      · exact fun hs => hf k hk (by simp [hs])
    · intro k hk
      rcases List.mem_cons.mp hk with rfl | hk
      · exact hallow
      · exact hal k hk
    · intro r hr
      rcases hreq r hr with hs | ht
      · rcases List.mem_cons.mp hs with rfl | hs
        · exact .inr (by simp [texts, keys])
        · exact .inl hs
      · exact .inr (by simp only [texts, keys, List.map_cons]; exact List.mem_cons_of_mem _ ht)

theorem get_governed (h : Map.get name properties = some node) : governed properties name = node := by
  simp [governed, h]

theorem mem_texts {ms : Members} (h : key ∈ keys ms) : keyText key ∈ texts ms :=
  List.mem_map.mpr ⟨key, h, rfl⟩

/-- A value read through the machine's key conforms unless it is misread. -/
theorem member_conforms_iff {d : Doc} {key : Bytes} {properties : List (Name × Node)}
    (ih : ∀ node, governed properties (keyText key) = node → (Conforms node d ↔ ¬ Misread node d)) :
    (∀ name node, Map.get name properties = some node → utf8 name = key → Conforms node d) ↔
      ¬ ∃ name node, Map.get name properties = some node ∧ utf8 name = key ∧
        ((keyText key = name ∧ Misread node d) ∨ (keyText key ≠ name ∧ ¬ Conforms node d)) := by
  constructor
  · rintro h ⟨name, node, hg, hu, ⟨rfl, hm⟩ | ⟨-, hc⟩⟩
    · exact (ih node (get_governed hg)).mp (h _ node hg hu) hm
    · exact hc (h name node hg hu)
  · intro h name node hg hu
    by_cases hk : keyText key = name
    · refine (ih node (by rw [hk]; exact get_governed hg)).mpr ?_
      intro hm
      exact h ⟨name, node, hg, hu, .inl ⟨hk, hm⟩⟩
    · by_cases hc : Conforms node d
      · exact hc
      · exact absurd ⟨name, node, hg, hu, .inr ⟨hk, hc⟩⟩ h

theorem keys_conform_iff {ms : Members} {properties : List (Name × Node)} {required : List Name}
    {additional : Bool} (hf : KeyFacts ⟨properties, required, additional, [], []⟩ ms)
    (hv : MembersConform properties ms ↔ ¬ MembersMisread properties ms) :
    Conforms (.object properties required additional) (.obj ms) ↔
      ¬ Misread (.object properties required additional) (.obj ms) := by
  have hnodup : (keys ms).Nodup := List.Pairwise.of_map keyText (fun _ _ hne h => hne (h ▸ rfl)) hf.nodup
  have hallowed : (∀ key ∈ keys ms, additional = true ∨
        ∃ name node, Map.get name properties = some node ∧ utf8 name = key) ↔
      ¬ ∃ key ∈ keys ms, Garbled key ∧ additional = false ∧
        ∀ name node, Map.get name properties = some node → utf8 name ≠ key := by
    constructor
    · rintro h ⟨key, hk, -, ha, hn⟩
      rcases h key hk with hadd | ⟨name, node, hg, hu⟩
      · simp [ha] at hadd
      · exact hn name node hg hu
    · intro h key hk
      cases ha : additional with
      | true => exact .inl rfl
      | false =>
        refine .inr ?_
        by_cases hgar : Garbled key
        · by_cases hex : ∃ name node, Map.get name properties = some node ∧ utf8 name = key
          · exact hex
          · refine absurd ⟨key, hk, hgar, ha, ?_⟩ h
            intro name node hg hu
            exact hex ⟨name, node, hg, hu⟩
        · rcases hf.allowed _ (mem_texts hk) with hadd | hx
          · simp [ha] at hadd
          · have hsome := get_isSome.mpr hx
            obtain ⟨node, hg⟩ := Option.isSome_iff_exists.mp hsome
            exact ⟨keyText key, node, hg, Decidable.not_not.mp hgar⟩
  have hreq : (∀ r ∈ required, utf8 r ∈ keys ms) ↔
      ¬ ∃ r ∈ required, utf8 r ∉ keys ms ∧ ∃ key ∈ keys ms, keyText key = r := by
    constructor
    · rintro h ⟨r, hr, hn, -⟩
      exact hn (h r hr)
    · intro h r hr
      by_cases hk : utf8 r ∈ keys ms
      · exact hk
      · rcases hf.required r hr with hs | ht
        · cases hs
        · obtain ⟨key, hkey, hkt⟩ := List.mem_map.mp ht
          exact absurd ⟨r, hr, hk, key, hkey, hkt⟩ h
  simp only [Conforms, Misread, not_or]
  rw [hallowed, hreq, hv]
  exact ⟨fun h => h.2, fun h => ⟨hnodup, h⟩⟩

theorem leaf_conforms {d : Doc} (h : SchemaLeaf node d next) :
    Conforms node d ∧ ¬ Misread node d := by
  cases node with
  | any => exact ⟨by simp [Conforms], by simp [Misread]⟩
  | enum candidates =>
    have hc : ∃ c ∈ candidates, c.bytes = d.bytes := h.2.1
    exact ⟨by simpa [Conforms] using hc, by simp [Misread]⟩
  | bool =>
    rcases h with rfl | rfl
    · exact ⟨.inl rfl, id⟩
    · exact ⟨.inr rfl, id⟩
  | null =>
    obtain rfl : d = .lit nullBytes := h
    exact ⟨rfl, id⟩
  | int =>
    obtain ⟨w, rfl, hw⟩ := h
    exact ⟨hw, id⟩
  | num =>
    obtain ⟨w, rfl, -⟩ := h
    exact ⟨trivial, id⟩
  | str =>
    obtain ⟨body, rfl, -⟩ := h
    exact ⟨trivial, id⟩
  | object => exact h.elim
  | array => exact h.elim

mutual

/-- A value the machine reads conforms to its node unless it is misread. -/
theorem conforms_iff : ∀ {d : Doc} {node : Node} {next : Option UInt8},
    d.Ok schemaGrammar node next → (Conforms node d ↔ ¬ Misread node d)
  | .lit _, _, _, h => iff_of_true (leaf_conforms h).1 (leaf_conforms h).2
  | .num _, _, _, h => iff_of_true (leaf_conforms h).1 (leaf_conforms h).2
  | .str _, _, _, h => iff_of_true (leaf_conforms h).1 (leaf_conforms h).2
  | .arr is, node, _, h => by
    rcases h with h | ⟨items, hv, hi⟩
    · exact iff_of_true (leaf_conforms h).1 (leaf_conforms h).2
    · rcases hv with rfl | ⟨rfl, rfl⟩
      · simp only [Conforms, Misread]
        exact items_conform_iff hi
      · simp [Conforms, Misread]
  | .obj ms, node, _, h => by
    rcases h with h | ⟨o, ho, hm⟩
    · exact iff_of_true (leaf_conforms h).1 (leaf_conforms h).2
    · rcases ho with ⟨properties, required, additional, rfl, rfl⟩ | ⟨rfl, rfl⟩
      · obtain ⟨hf, hv⟩ := members_facts hm
        exact keys_conform_iff hf (members_conform_iff hv)
      · simp [Conforms, Misread]

theorem items_conform_iff : ∀ {is : Items} {node : Node} {c : Bool}, is.Ok schemaGrammar node c →
    (ItemsConform node is ↔ ¬ ItemsMisread node is)
  | .close _, _, _, _ => by simp [ItemsConform, ItemsMisread]
  | .last _ d _, _, _, h => conforms_iff h.2.1
  | .more _ d _ rest, _, _, h => by
    simp only [ItemsConform, ItemsMisread, not_or]
    exact and_congr (conforms_iff h.2.1) (items_conform_iff h.2.2.2)

theorem members_conform_iff {properties : List (Name × Node)} : ∀ {ms : Members},
    Values properties ms → (MembersConform properties ms ↔ ¬ MembersMisread properties ms)
  | .close _, _ => by simp [MembersConform, MembersMisread]
  | .last _ key _ _ d post, h => by
    simp only [MembersConform, MembersMisread]
    have hd : d.Ok schemaGrammar (governed properties (keyText key)) (post ++ [0x7D]).head? := h
    exact member_conforms_iff fun node hn => conforms_iff (hn ▸ hd)
  | .more _ key _ _ d post rest, h => by
    simp only [MembersConform, MembersMisread, not_or]
    have hd : d.Ok schemaGrammar (governed properties (keyText key)) (post ++ [0x2C]).head? := h.1
    exact and_congr (member_conforms_iff fun node hn => conforms_iff (hn ▸ hd))
      (members_conform_iff h.2)

end

end Flambeau.Runtime.SchemaReader
