import Flambeau.Server.ToolCallParser.CallEvents
import Flambeau.Server.ToolCallParser.HermesMachine

namespace Flambeau.Server.ToolCallParser.Hermes
open Flambeau.Stream Flambeau.Stream.Machine

/-- A call comes in one go: between steps the events stand behind as many calls as the index says. -/
def phase (p : HermesJsonParser) : Phase := .outside p.nextIndex

theorem emitBuffered_calls {p : HermesJsonParser} (hemit : ∀ s, AnyCalls (phase p) (emit s) (phase p))
    (h : emitBuffered emit tags p fin = some (es, p', b)) : AnyCalls (phase p) es (phase p') := by
  unfold emitBuffered at h
  obtain ⟨n, -, h⟩ := Option.bind_eq_some_iff.mp h
  dsimp only at h
  split at h
  · obtain ⟨r, -, heq⟩ := Option.map_eq_some_iff.mp h
    cases heq
    exact hemit _
  · cases h
    exact .nil

theorem stepText_calls (h : stepText p fin = some (es, p', b)) : AnyCalls (phase p) es (phase p') := by
  unfold stepText at h
  split at h
  · cases h
    exact leads_emitText _
  · exact emitBuffered_calls leads_emitText h

theorem stepInThink_calls (h : stepInThink p fin = some (es, p', b)) : AnyCalls (phase p) es (phase p') := by
  unfold stepInThink at h
  split at h
  · cases h
    exact leads_emitThink _
  · exact emitBuffered_calls leads_emitThink h

theorem stepInTool_calls (h : stepInTool serde p fin = some (es, p', b)) : AnyCalls (phase p) es (phase p') := by
  unfold stepInTool at h
  split at h
  · cases h
    exact leads_call trivial trivial
  split at h
  · cases h
    exact leads_emitText _
  · cases h
    exact .nil

theorem stepAwaitingClose_calls (h : stepAwaitingClose p fin = (es, p', b)) : AnyCalls (phase p) es (phase p') := by
  unfold stepAwaitingClose at h
  dsimp only at h
  split at h
  · cases h
    exact .nil
  split at h
  · cases h
    exact .nil
  split at h
  · cases h
    exact .nil
  · cases h
    exact .nil

theorem step_calls (h : step serde fin p = some (es, p', b)) : AnyCalls (phase p) es (phase p') := by
  unfold step at h
  split at h
  · exact stepText_calls h
  · exact stepInThink_calls h
  · exact stepInTool_calls h
  · exact stepAwaitingClose_calls (Option.some.inj h)

theorem flush_calls (p : HermesJsonParser) : AnyCalls (phase p) (flush p).1 (phase (flush p).2) := by
  unfold flush
  split
  · exact .nil
  dsimp only
  split
  · exact .think .nil
  · exact leads_emitText _

theorem calls_traced (serde : SerdeJson) :
    Traced (machine serde) fun p es q => AnyCalls (phase p) es (phase q) where
  nil := .nil
  append := Leads.append
  feed := id
  step := step_calls
  flush := flush_calls _

/-- Every call is closed, in any chunks. -/
theorem stream_calls {p : HermesJsonParser} (h : (machine serde).stream p chunks = some es) :
    ∃ n, AnyCalls (phase p) es (.outside n) := by
  obtain ⟨q, hq⟩ := (calls_traced serde).stream h
  exact ⟨q.nextIndex, hq⟩

end Flambeau.Server.ToolCallParser.Hermes
