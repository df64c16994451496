import Flambeau.Server.ToolCallParser.Gemma4Pieces
import Flambeau.Server.ToolCallParser.HermesPieces
import Flambeau.Server.ToolCallParser.QwenPieces

namespace Flambeau.Server.ToolCallParser
open Flambeau.Stream

/-- What each of the three parsers loses, and where `finish` leaves it, for both constructors. -/
theorem finish_settles_iff (serde : Gemma4.GemmaSerde) (primed : Bool) :
    Settles (Hermes.machine serde.toSerdeJson) Hermes.account Hermes.HermesJsonParser.buf Hermes.Clean Hermes.Tidy
      Hermes.EndsClean (if primed then .newInThink else .new) ∧
    Settles (QwenCoder.machine serde.toSerdeJson) QwenCoder.account QwenCoder.QwenCoderXmlParser.buf QwenCoder.Clean
      QwenCoder.Tidy QwenCoder.EndsClean (QwenCoder.start primed) ∧
    Settles (Gemma4.guarded serde) (Gemma4.account serde) Gemma4.Gemma4ToolCallParser.buf Gemma4.Clean Gemma4.Tidy
      Gemma4.EndsClean (Gemma4.withThoughtEchoGuard primed) := by
  refine ⟨?_, ?_, ?_⟩
  · refine settles_of (Hermes.conserves _) (fun _ _ _ => Hermes.settled) ?_
    cases primed <;> rfl
  · refine settles_of (QwenCoder.conserves _) (fun _ _ _ => QwenCoder.settled) ?_
    cases primed <;> rfl
  · exact settles_of (Gemma4.conserves serde) (fun _ _ _ => Gemma4.settled) rfl

/-- A call that is cut off leaves the parser inside it. -/
theorem cut_call_stays : ¬ ∀ serde chunks log q,
    ((QwenCoder.machine serde).logged QwenCoder.account).run (QwenCoder.start false) chunks = some (log, q) →
    Settled (QwenCoder.machine serde) QwenCoder.Clean log q := by
  intro h
  have hrun : (QwenCoder.machine QwenCoder.emptySerde).run (QwenCoder.start false) [QwenCoder.openF] =
      some ([.toolCallOpen 0 ['f']], ⟨.inFunctionBody, [], 0, ['f'], [], []⟩) := by
    simp only [Machine.run, QwenCoder.push_openF, QwenCoder.finish_openF, Option.bind_some, Option.map_some]
    rfl
  rw [Machine.run_logged (a := QwenCoder.account)] at hrun
  obtain ⟨⟨log, q⟩, hlog, heq⟩ := Option.map_eq_some_iff.mp hrun
  have hstate : q.state = .text := (h _ _ _ _ hlog).clean.1
  have hq : q = ⟨.inFunctionBody, [], 0, ['f'], [], []⟩ := congrArg Prod.snd heq
  rw [hq] at hstate
  cases hstate

end Flambeau.Server.ToolCallParser
