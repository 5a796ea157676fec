import Dependents.Text.Decimal

/-! JSON values. Objects keep their fields as written, in order and with repetitions; numbers other
than plain digits keep their spelling. -/
namespace Dependents

inductive Json where
  | null
  | bool (value : Bool)
  /-- A number written with digits only. -/
  | natural (value : Nat)
  /-- A number with a sign, a fraction or an exponent. -/
  | number (literal : String)
  | string (value : String)
  | array (items : List Json)
  | object (fields : List (String × Json))
deriving Repr, Inhabited

namespace Json

/-- The value of the last field of a name. -/
def field? (name : String) : Json → Option Json
  | .object fields => (fields.reverse.find? fun entry => entry.1 == name).map (·.2)
  | _ => none

def asString? : Json → Option String
  | .string s => some s
  | _ => none

def asBool? : Json → Option Bool
  | .bool b => some b
  | _ => none

def asArray? : Json → Option (List Json)
  | .array items => some items
  | _ => none

/-- The value of a number that fits a word. -/
def asWord? : Json → Option Nat
  | .natural n => if n < Text.wordBound then some n else none
  | _ => none

end Json

end Dependents
