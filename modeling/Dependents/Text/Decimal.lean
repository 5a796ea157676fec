/-! Unsigned decimal numbers of one machine word: how they are written and which texts are read. -/
namespace Dependents.Text

def wordBound : Nat := 18446744073709551616

def decimal (n : Nat) : String :=
  String.ofList (Nat.toDigits 10 n)

def digitValue? (c : Char) : Option Nat :=
  if '0' ≤ c ∧ c ≤ '9' then some (c.toNat - '0'.toNat) else none

/-- Reads further digits after those that make `value`. -/
def readDigits (value : Nat) : List Char → Option Nat
  | [] => some value
  | c :: cs => (digitValue? c).bind fun d => readDigits (10 * value + d) cs

def readNatural? : List Char → Option Nat
  | [] => none
  | cs => readDigits 0 cs

/-- Reads a word: one or more digits after an optional plus sign, with a value that a word holds. -/
def readWord? (cs : List Char) : Option Nat :=
  let digits := match cs with
    | '+' :: rest => rest
    | _ => cs
  (readNatural? digits).filter (· < wordBound)

end Dependents.Text
