import Flambeau.Json.Defects
import Flambeau.Runtime.JsonLanguage

namespace Flambeau.Runtime
open Flambeau.Json

/-- Every JSON text is accepted byte by byte and complete at the end. -/
theorem legal_text_accepted (h : IsText w) : JsonState.new.Accepts w := by
  obtain ⟨r⟩ := h
  exact (JsonReader.accepts_iff_relaxed w).mpr ⟨r.relax⟩

/-- `{"a\n": [1, -2.5e3, true]}`, with the space a text may hold around it. -/
theorem legal_object_accepted :
    JsonState.new.Accepts ([0x20, 0x7B, 0x22, 0x61, 0x5C, 0x6E, 0x22, 0x3A, 0x20, 0x5B, 0x31, 0x2C,
      0x20, 0x2D, 0x32, 0x2E, 0x35, 0x65, 0x33, 0x2C, 0x74, 0x72, 0x75, 0x65, 0x5D, 0x7D]) := by
  refine legal_text_accepted ⟨⟨[0x20], .obj (.last [] [0x61, 0x5C, 0x6E] [] [0x20]
    (.arr (.more [] (.num [0x31]) [] (.more [0x20] (.num [0x2D, 0x32, 0x2E, 0x35, 0x65, 0x33]) []
      (.last [] (.lit trueBytes) [])))) []), [], by decide, ?_, by decide, by decide⟩⟩
  have hone : (⟨false, [0x31], none, none⟩ : Json.Num).Rfc :=
    ⟨⟨by decide, by simp, by simp⟩, by simp, by simp, by simp [Num.openExp]⟩
  have htwo : (⟨true, [0x32], some [0x35], some ⟨false, none, [0x33]⟩⟩ : Json.Num).Rfc :=
    ⟨⟨by decide, by simp; decide, by simp; decide⟩, by simp, by simp, by simp [Num.openExp]⟩
  have hkey : Chars [0x61, 0x5C, 0x6E] :=
    .plain (by decide) (by decide) (by decide) (.escape (by decide) .nil)
  exact .inr ⟨(), trivial, isWs_nil, isWs_nil, by decide, isWs_nil, (), (), hkey,
    .inr ⟨(), trivial, isWs_nil, ⟨_, hone, rfl⟩, isWs_nil, by decide, ⟨_, htwo, rfl⟩, isWs_nil,
      isWs_nil, .inl rfl, isWs_nil⟩, trivial⟩

/-- An accepted text is a JSON text exactly when no relaxed reading of it is
defective: no whitespace inside a literal or an escape, no raw tab or line end in
a string, no number out of form and no trailing comma. -/
theorem accepted_is_text_iff (w : Bytes) :
    (JsonState.new.Accepts w → IsText w) ↔ ¬ ∃ r : Reading relaxed () w, r.doc.Defective := by
  rw [JsonReader.accepts_iff_relaxed]
  constructor
  · rintro h ⟨r, hd⟩
    exact defective_not_text r hd (h ⟨r⟩)
  · rintro h ⟨r⟩
    exact text_of_not_defective r (fun hd => h ⟨r, hd⟩)

/-- `[1,]` is accepted and complete. -/
theorem trailing_comma_accepted :
    ¬ ∀ w : Bytes, JsonState.new.Accepts w → IsText w := by
  intro h
  have hacc : JsonState.new.Accepts [0x5B, 0x31, 0x2C, 0x5D] := by decide +kernel
  have hone : LooseNumber [0x31] (some 0x2C) :=
    ⟨⟨false, [0x31], none, none⟩, ⟨by decide, by simp, by simp⟩, rfl, by simp [Num.openExp]⟩
  let r : Reading relaxed () [0x5B, 0x31, 0x2C, 0x5D] :=
    ⟨[], .arr (.more [] (.num [0x31]) [] (.close [])), [], isWs_nil,
      .inr ⟨(), trivial, isWs_nil, hone, isWs_nil, isWs_nil, rfl⟩, isWs_nil, rfl⟩
  exact defective_not_text r (.inr rfl) (h _ hacc)

end Flambeau.Runtime
