import Dependents.Text.Blank
import Dependents.Text.Decimal
import Dependents.Text.Position

/-! Locations as people write them: `LINE:COL`, both counted from one. -/
namespace Dependents

inductive LineColError where
  | noColon (raw : String)
  | badLine (part : String)
  | badColumn (part : String)
  | notFromOne
deriving DecidableEq, Repr

/-- The wording of a refused location. Parts are shown as they were written. -/
def LineColError.message : LineColError → String
  | .noColon raw => s!"expected LINE:COL, got '{raw}'"
  | .badLine part => s!"invalid line '{part}'"
  | .badColumn part => s!"invalid column '{part}'"
  | .notFromOne => "LINE and COL are 1-based"

namespace Position

def location (p : Position) : String :=
  Text.decimal (p.line + 1) ++ ":" ++ Text.decimal (p.character + 1)

/-- Reads a location. The first colon divides it, and white space around the numbers is
ignored. -/
def ofLocation (raw : String) : Except LineColError Position :=
  let cs := raw.toList
  match cs.dropWhile (· != ':') with
  | [] => .error (.noColon raw)
  | _ :: columnPart =>
    let linePart := cs.takeWhile (· != ':')
    match Text.readWord? (Text.trimBlank linePart) with
    | none => .error (.badLine (String.ofList linePart))
    | some line =>
      match Text.readWord? (Text.trimBlank columnPart) with
      | none => .error (.badColumn (String.ofList columnPart))
      | some column =>
        if line = 0 ∨ column = 0 then .error .notFromOne else .ok ⟨line - 1, column - 1⟩

end Position

end Dependents
