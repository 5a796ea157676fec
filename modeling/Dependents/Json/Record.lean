import Dependents.Json.Basic

/-! Records in JSON: an object that names their fields, or an array that lists them in order. Unknown
fields are ignored; a field given twice is refused. -/
namespace Dependents.Json

/-- What a value says of one field of a record. -/
inductive Slot where
  | given (value : Json)
  | absent
  | beyond

def slotOf (fields : List (String × Json)) (name : String) : Option Slot :=
  match fields.filter fun entry => entry.1 == name with
  | [] => some .absent
  | [(_, value)] => some (.given value)
  | _ => none

/-- What a value says of each field of a record. -/
def slots? (names : List String) : Json → Option (List Slot)
  | .object fields => names.mapM (slotOf fields)
  | .array items =>
    if items.length ≤ names.length then
      some (items.map .given ++ List.replicate (names.length - items.length) .beyond)
    else none
  | _ => none

namespace Slot

def required {α : Type} (decode : Json → Option α) : Slot → Option α
  | .given value => decode value
  | .absent | .beyond => none

def orElse {α : Type} (default : α) (decode : Json → Option α) : Slot → Option α
  | .given value => decode value
  | .absent | .beyond => some default

end Slot

/-- Decodes null as nothing. -/
def nullable {α : Type} (decode : Json → Option α) : Json → Option (Option α)
  | .null => some none
  | value => (decode value).map some

def listOf? {α : Type} (decode : Json → Option α) (value : Json) : Option (List α) :=
  value.asArray?.bind fun items => items.mapM decode

end Dependents.Json
