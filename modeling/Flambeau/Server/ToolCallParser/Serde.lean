import Flambeau.Runtime.JsonSchema
import Flambeau.Server.ToolCallParser.Text

namespace Flambeau.Server.ToolCallParser
open Flambeau.Runtime.JsonSchema

/-- What the parsers use of `serde_json`; `none` is an `Err`. -/
structure SerdeJson where
  fromStr : Text → Option Value
  toString : Value → Option Text

/-- `{}`. -/
def emptyObject : Text := ['{', '}']

/-- `serde_json::to_string(..).unwrap_or_else(|_| "{}".to_owned())`. -/
def SerdeJson.toStringOr (serde : SerdeJson) (v : Value) : Text :=
  (serde.toString v).getD emptyObject

/-- `Value::get` with a key. -/
def valueGet (key : Name) : Value → Option Value
  | .object fields => Map.get key fields
  | _ => none

end Flambeau.Server.ToolCallParser
