import Dependents.Json.Record
import Dependents.Path.Basic
import Dependents.Text.Position

/-! Edges of the dependency index: observed calls, from a dependent file through an imported name. -/
namespace Dependents

/-- One call of an imported name. A call at module scope has no caller. -/
structure Edge where
  dependent : Path
  position : Position
  targetFunction : String
  caller : Option String
deriving DecidableEq, Repr

def Position.toJson (p : Position) : Json :=
  .object [("line", .natural p.line), ("character", .natural p.character)]

def Position.ofJson? (value : Json) : Option Position :=
  match Json.slots? ["line", "character"] value with
  | some [line, character] => do
    return ⟨← line.required Json.asWord?, ← character.required Json.asWord?⟩
  | _ => none

def Path.ofJson? (value : Json) : Option Path :=
  value.asString?.map Path.mk

namespace Edge

/-- An edge as JSON. The caller is left out where there is none. -/
def toJson (e : Edge) : Json :=
  .object ([("dependentFilePath", .string e.dependent.text), ("position", e.position.toJson),
    ("targetFunction", .string e.targetFunction)]
      ++ e.caller.toList.map fun caller => ("callerFunction", .string caller))

def ofJson? (value : Json) : Option Edge :=
  match Json.slots? ["dependentFilePath", "position", "targetFunction", "callerFunction"] value with
  | some [dependent, position, targetFunction, caller] => do
    return {
      dependent := ← dependent.required Path.ofJson?
      position := ← position.required Position.ofJson?
      targetFunction := ← targetFunction.required Json.asString?
      caller := ← caller.orElse none (Json.nullable Json.asString?) }
  | _ => none

end Edge

end Dependents
