import Gantry.Error.Message
import Gantry.Text.Escaped
import Gantry.Toml.Value

set_option autoImplicit false

namespace Gantry
open Toml

inductive Misfit where
  | missing (field : String)
  | wrongType (found : Value) (expected : String)
  | outOfRange (found : Int) (expected : String)
  | wrongLength (length : Nat) (expected : String)
  | unknownChoice (name : String) (choices : List String)
  /-- A choice is a name, or a table whose only key is the name. -/
  | notChoice (found : Value)
  /-- A choice made by a table has nothing inside. -/
  | choiceContent (found : Value)
  | invalidMicrosteps (value : Nat)
  | notStageValue

namespace Misfit

/-- What a value is called, with the value itself if it has no parts. -/
def describe : Value → String
  | .string s => "string " ++ escaped s
  | .integer n => s!"integer `{n}`"
  | .float x => s!"floating point `{pointedText x}`"
  | .boolean b => s!"boolean `{b}`"
  | .datetime _ => "map"
  | .array _ => "sequence"
  | .tables _ => "sequence"
  | .table _ => "map"

def kindOf : Value → String
  | .string _ => "string"
  | .integer _ => "integer"
  | .float _ => "float"
  | .boolean _ => "boolean"
  | .datetime _ => "datetime"
  | .array _ => "array"
  | .tables _ => "array of tables"
  | .table _ => "table"

def message : Misfit → String
  | missing field => s!"missing field `{field}`"
  | wrongType found expected => s!"invalid type: {describe found}, expected {expected}"
  | outOfRange found expected => s!"invalid value: integer `{found}`, expected {expected}"
  | wrongLength length expected => s!"invalid length {length}, expected {expected}"
  | unknownChoice name choices =>
    s!"unknown variant `{name}`, expected one of " ++
      ", ".intercalate (choices.map fun c => s!"`{c}`")
  | notChoice (.table []) => "wanted exactly 1 element, found 0 elements"
  | notChoice (.table _) => "wanted exactly 1 element, more than 1 element"
  | notChoice _ => "wanted string or table"
  | choiceContent (.array _) => "expected empty table"
  | choiceContent (.tables _) => "expected empty array"
  | choiceContent (.table _) => "expected empty table"
  | choiceContent found => s!"expected table, found {kindOf found}"
  | invalidMicrosteps value => invalidMicrostepsMessage value
  | notStageValue => "data did not match any variant of untagged enum StageValue"

end Misfit

end Gantry
