import Flambeau.Server.ToolCallParser.Gemma4Stream
import Flambeau.Server.ToolCallParser.HermesMachine
import Flambeau.Server.ToolCallParser.QwenMachine

namespace Flambeau.Server.ToolCallParser
open Flambeau.Stream

inductive ToolCallFormat where
  | hermes
  | qwenCoder
  | gemma4
deriving DecidableEq

/-- `Box<dyn ToolCallParser>`: a parser of some state. A call that panics has no result. -/
structure BoxedParser where
  State : Type
  init : State
  push : State → Text → Option (List ParserEvent × State)
  finish : State → Option (List ParserEvent × State)

namespace BoxedParser

/-- The events of a `push` for each chunk and the `finish`. -/
def eventsFrom (b : BoxedParser) (p : b.State) : List Text → Option (List ParserEvent)
  | [] => (b.finish p).map (·.1)
  | c :: cs => (b.push p c).bind fun r => (eventsFrom b r.2 cs).map (r.1 ++ ·)

def events (b : BoxedParser) (chunks : List Text) : Option (List ParserEvent) := b.eventsFrom b.init chunks

end BoxedParser

/-- The end of `dispatcher_with_prompt`. Gemma's guard is always armed. -/
def dispatcher (serde : Gemma4.GemmaSerde) (format : ToolCallFormat) (startInReasoning : Bool) : BoxedParser :=
  match format with
  | .hermes =>
    { State := Hermes.HermesJsonParser
      init := if startInReasoning then .newInThink else .new
      push := (Hermes.machine serde.toSerdeJson).push
      finish := (Hermes.machine serde.toSerdeJson).finish }
  | .qwenCoder =>
    { State := QwenCoder.QwenCoderXmlParser
      init := if startInReasoning then .newInThink else .new
      push := (QwenCoder.machine serde.toSerdeJson).push
      finish := (QwenCoder.machine serde.toSerdeJson).finish }
  | .gemma4 =>
    { State := Gemma4.Gemma4ToolCallParser
      init := .withPendingChannelClose
      push := Gemma4.push serde
      finish := Gemma4.finish serde }

theorem eventsFrom_machine {m : Machine Char ParserEvent P} (p : P) (chunks : List Text) :
    BoxedParser.eventsFrom ⟨P, init, m.push, m.finish⟩ p chunks = m.stream p chunks := by
  induction chunks generalizing p with
  | nil => rfl
  | cons c cs ih =>
    unfold BoxedParser.eventsFrom Machine.stream
    simp only [ih]

theorem eventsFrom_gemma4 (serde : Gemma4.GemmaSerde) (p : Gemma4.Gemma4ToolCallParser) (chunks : List Text) :
    BoxedParser.eventsFrom ⟨_, init, Gemma4.push serde, Gemma4.finish serde⟩ p chunks =
      Gemma4.stream serde p chunks := by
  induction chunks generalizing p with
  | nil => rfl
  | cons c cs ih =>
    unfold BoxedParser.eventsFrom Gemma4.stream
    simp only [ih]

end Flambeau.Server.ToolCallParser
