import Flambeau.Runtime.SchemaTrips

namespace Flambeau.Runtime.JsonSchema
open Flambeau.Json Flambeau.Runtime.SchemaReader

theorem key_body (h : KeyBytes key) : Body false 0 key := by
  induction key with
  | nil => exact .nil
  | cons b key ih =>
    obtain ⟨⟨hq, hs, hb⟩, hk⟩ := keyBytes_cons.mp h
    rcases hb with hw | hge
    · exact .ws hw (ih hk)
    · exact .plain hge hq hs (ih hk)

theorem anyLeaf_relaxed {d : Doc} (h : AnyLeaf d next) : d.Ok relaxed () next := by
  refine ok_of_leaf ?_
  cases d with
  | lit w => exact literal_spread h
  | num w => exact h
  | str body => exact chars_body h
  | arr items => exact h.elim
  | obj members => exact h.elim

theorem whole_loose (h : WholeNumber w) : LooseNumber w next := by
  obtain ⟨n, hn, hw, hb⟩ := h
  refine ⟨n, hn, hb, ?_⟩
  rintro ⟨e, he, -⟩
  rw [hw.2] at he
  cases he

theorem rfc_ok_relaxed {d : Doc} (h : d.Ok rfc8259 () n) : d.Ok relaxed () next := by
  have h' : d.Ok rfc8259 () next := rfc_next h
  exact doc_sim rfc_relaxed trivial h'

theorem schemaLeaf_relaxed {d : Doc} (h : SchemaLeaf node d next) : d.Ok relaxed () next := by
  cases node with
  | any => exact anyLeaf_relaxed h
  | enum candidates => exact rfc_ok_relaxed h.1
  | bool =>
    rcases h with rfl | rfl
    · exact literal_spread (.inl rfl)
    · exact literal_spread (.inr (.inl rfl))
  | null =>
    obtain rfl : d = .lit nullBytes := h
    exact literal_spread (.inr (.inr rfl))
  | int =>
    obtain ⟨w, rfl, hw⟩ := h
    exact whole_loose hw
  | num =>
    obtain ⟨w, rfl, hw⟩ := h
    exact hw
  | str =>
    obtain ⟨body, rfl, hb⟩ := h
    exact chars_body hb
  | object => exact h.elim
  | array => exact h.elim

theorem schema_relaxed : Sim schemaGrammar relaxed (fun _ _ => True) (fun _ _ => True) where
  leaf _ h := schemaLeaf_relaxed h
  arr _ _ := ⟨(), trivial, trivial⟩
  obj _ _ := ⟨(), trivial, trivial⟩
  entry _ h := ⟨(), (), key_body h.1, trivial, trivial⟩
  close _ _ := trivial
  comma _ _ := trivial
  trailing := fun h => by cases h

/-- What the machine reads, as a reading of the relaxed grammar. -/
def relaxReading (r : Reading schemaGrammar node w) : Reading relaxed () w :=
  ⟨r.pre, r.doc, r.post, r.pre_ws, doc_sim schema_relaxed trivial r.ok, r.post_ws, r.bytes⟩

/-- The text is JSON and its value conforms. -/
def ConformingText (node : Node) (w : Bytes) : Prop :=
  ∃ r : Reading rfc8259 () w, Conforms node r.doc

/-- An accepted text is a conforming JSON text exactly when the machine reads no
number out of form, no raw tab or line end in a key, and no object through a
garbled key. -/
theorem accepted_conforms_iff (toVec : Value → Literal) (schema : Value) (w : Bytes) :
    ((SchemaState.new toVec schema).Accepts w → ConformingText (compile toVec schema) w) ↔
      ¬ ∃ r : Reading schemaGrammar (compile toVec schema) w,
        r.doc.Defective ∨ Misread (compile toVec schema) r.doc := by
  rw [accepts_iff_text]
  constructor
  · rintro h ⟨r, hbad⟩
    obtain ⟨r', hconf⟩ := h ⟨r⟩
    obtain ⟨hdoc, -⟩ := reading_unique (relaxReading r) r'.relax
    have hd : r.doc = r'.doc := hdoc
    have hok : r'.doc.Ok relaxed () r'.post.head? := r'.relax.ok
    rcases hbad with hdef | hmis
    · rw [hd] at hdef
      exact (doc_rfc_iff hok).mp r'.ok hdef
    · rw [← hd] at hconf
      exact (conforms_iff r.ok).mp hconf hmis
  · rintro h ⟨r⟩
    have hdef : ¬ r.doc.Defective := fun hd => h ⟨r, .inl hd⟩
    have hmis : ¬ Misread (compile toVec schema) r.doc := fun hm => h ⟨r, .inr hm⟩
    have hok : r.doc.Ok relaxed () r.post.head? := (relaxReading r).ok
    exact ⟨⟨r.pre, r.doc, r.post, r.pre_ws, (doc_rfc_iff hok).mpr hdef, r.post_ws, r.bytes⟩,
      (conforms_iff r.ok).mpr hmis⟩

/-- The literal `null`. -/
def nullLiteral : Literal := ⟨nullBytes, .lit nullBytes, rfl, .inr (.inr rfl)⟩

/-- `1.` is accepted against `{"type": "number"}`. -/
theorem open_fraction_accepted :
    ¬ ∀ (toVec : Value → Literal) (schema : Value) (w : Bytes),
      (SchemaState.new toVec schema).Accepts w → ConformingText (compile toVec schema) w := by
  intro h
  have hacc : (SchemaState.new (fun _ => nullLiteral)
      (.object [(typeKey, .string ['n', 'u', 'm', 'b', 'e', 'r'])])).Accepts [0x31, 0x2E] := by
    decide +kernel
  obtain ⟨r', -⟩ := h _ _ _ hacc
  have hn : (⟨false, [0x31], some [], none⟩ : Json.Num).Loose := ⟨by decide, by simp, by simp⟩
  let r : Reading relaxed () [0x31, 0x2E] :=
    ⟨[], .num [0x31, 0x2E], [], isWs_nil, ⟨_, hn, rfl, by simp [Num.openExp]⟩, isWs_nil, rfl⟩
  exact defective_not_text r ⟨_, hn, rfl, .inr (.inl rfl)⟩ ⟨r'⟩

/-- A conforming JSON text with plain keys is accepted exactly when it does not
trip the machine. -/
theorem conforming_accepted_iff (toVec : Value → Literal) (schema : Value)
    (r : Reading rfc8259 () w) (hc : Conforms (compile toVec schema) r.doc)
    (hp : PlainKeys r.doc) :
    (SchemaState.new toVec schema).Accepts w ↔
      ¬ Trips (compile toVec schema) r.doc r.post.head? := by
  rw [accepts_iff_text, ← ok_iff_not_trips r.ok hp hc]
  constructor
  · rintro ⟨r'⟩
    obtain ⟨hdoc, hpost⟩ := reading_unique (relaxReading r') r.relax
    have hd : r'.doc = r.doc := hdoc
    have hq : r'.post = r.post := hpost
    rw [← hd, ← hq]
    exact r'.ok
  · intro h
    exact ⟨⟨r.pre, r.doc, r.post, r.pre_ws, h, r.post_ws, r.bytes⟩⟩

/-- The schema of an object with one integer property. -/
def integerProperty (name : Name) : Value :=
  .object [(typeKey, .string ['o', 'b', 'j', 'e', 'c', 't']),
    (propertiesKey, .object [(name, .object [(typeKey, .string ['i', 'n', 't', 'e', 'g', 'e', 'r'])])])]

theorem compile_integerProperty (toVec : Value → Literal) (name : Name) :
    compile toVec (integerProperty name) = .object [(name, .int)] [] false := by
  simp [integerProperty, compile, compileObject, compileFields, Map.get, constKey, enumKey,
    typeKey, propertiesKey, requiredNames, requiredKey, additionalAllowed, additionalKey,
    Value.asStr]

/-- An object with one member, the number 1. -/
def oneMember (key : Bytes) : Doc := .obj (.last [] key [] [] (.num [0x31]) [])

theorem oneMember_rfc (hk : Chars key) : (oneMember key).Ok rfc8259 () next := by
  have hn : (⟨false, [0x31], none, none⟩ : Json.Num).Rfc :=
    ⟨⟨by decide, by simp, by simp⟩, by simp, by simp, by simp [Num.openExp]⟩
  have hone : (Doc.num [0x31]).Ok rfc8259 () (some 0x7D) := ⟨_, hn, rfl⟩
  exact .inr ⟨(), trivial, isWs_nil, isWs_nil, isWs_nil, isWs_nil, (), (), hk, hone, trivial⟩

theorem oneMember_plain (hk : 0x5C ∉ key) : PlainKeys (oneMember key) := by
  simp [oneMember, PlainKeys, keys, MembersPlain, hk]

theorem one_conforms : Conforms .int (.num [0x31]) :=
  ⟨⟨false, [0x31], none, none⟩, ⟨by decide, by simp, by simp⟩, ⟨rfl, rfl⟩, rfl⟩

theorem oneMember_conforms (hu : utf8 name = key) :
    Conforms (.object [(name, .int)] [] false) (oneMember key) := by
  refine ⟨by simp [keys], ?_, by simp, ?_⟩
  · intro key' hkey
    obtain rfl : key' = key := by simpa [keys] using hkey
    exact .inr ⟨name, .int, by simp [Map.get], hu⟩
  · intro name' node hget _
    simp only [Map.get] at hget
    split at hget
    · cases hget
      exact one_conforms
    · cases hget

/-- `{"a":1}` is accepted where `a` is an integer property. -/
theorem integer_property_accepted :
    (SchemaState.new (fun _ => nullLiteral) (integerProperty ['a'])).Accepts
      [0x7B, 0x22, 0x61, 0x22, 0x3A, 0x31, 0x7D] := by
  have hkey : Chars [0x61] := .plain (by decide) (by decide) (by decide) .nil
  have hcomp := compile_integerProperty (fun _ => nullLiteral) ['a']
  let r : Reading rfc8259 () [0x7B, 0x22, 0x61, 0x22, 0x3A, 0x31, 0x7D] :=
    ⟨[], oneMember [0x61], [], isWs_nil, oneMember_rfc hkey, isWs_nil, rfl⟩
  have hc : Conforms (compile (fun _ => nullLiteral) (integerProperty ['a'])) r.doc := by
    rw [hcomp]
    exact oneMember_conforms (by decide)
  refine (conforming_accepted_iff _ _ r hc (oneMember_plain (by decide))).mpr ?_
  have ht : keyText [0x61] = ['a'] := by decide
  rw [hcomp]
  simp [r, oneMember, Trips, texts, keys, MembersTrip, Garbled, ht, governed, Map.get,
    show utf8 ['a'] = [0x61] by decide]

/-- `{"é":1}` is refused where `é` is an integer property. -/
theorem accented_property_refused :
    ¬ ∀ (toVec : Value → Literal) (schema : Value) (w : Bytes) (r : Reading rfc8259 () w),
      Conforms (compile toVec schema) r.doc → PlainKeys r.doc →
        (SchemaState.new toVec schema).Accepts w := by
  intro h
  have hkey : Chars [0xC3, 0xA9] :=
    .plain (by decide) (by decide) (by decide) (.plain (by decide) (by decide) (by decide) .nil)
  let r : Reading rfc8259 () [0x7B, 0x22, 0xC3, 0xA9, 0x22, 0x3A, 0x31, 0x7D] :=
    ⟨[], oneMember [0xC3, 0xA9], [], isWs_nil, oneMember_rfc hkey, isWs_nil, rfl⟩
  have hc : Conforms (compile (fun _ => nullLiteral) (integerProperty ['é'])) r.doc := by
    rw [compile_integerProperty]
    exact oneMember_conforms (by decide)
  have hacc := h (fun _ => nullLiteral) (integerProperty ['é']) _ r hc (oneMember_plain (by decide))
  have hrej : ¬ (SchemaState.new (fun _ => nullLiteral) (integerProperty ['é'])).Accepts
      [0x7B, 0x22, 0xC3, 0xA9, 0x22, 0x3A, 0x31, 0x7D] := by
    decide +kernel
  exact hrej hacc

end Flambeau.Runtime.JsonSchema
