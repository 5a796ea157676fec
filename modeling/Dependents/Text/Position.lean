import Dependents.Text.Utf8

/-! Positions as editors count them: a line, and a character in UTF-16 units on that line, both from
zero. -/
namespace Dependents

structure Position where
  line : Nat
  character : Nat
deriving DecidableEq, Repr, Inhabited

namespace Text

def units (c : Char) : Nat :=
  if c.toNat < 0x10000 then 1 else 2

def unitLength : List Char → Nat
  | [] => 0
  | c :: cs => units c + unitLength cs

/-- The characters before the last boundary that is not above `offset`. An offset inside a
character goes back to its start, one past the end to the end. -/
def charsBefore : Nat → List Char → List Char
  | _, [] => []
  | offset, c :: cs => if c.utf8Size ≤ offset then c :: charsBefore (offset - c.utf8Size) cs else []

/-- The byte offsets at which lines start, when the characters stand at `offset`. The line that
holds the first of them started earlier. -/
def laterLineStarts (offset : Nat) : List Char → List Nat
  | [] => []
  | c :: cs =>
    if c = '\n' then (offset + 1) :: laterLineStarts (offset + 1) cs
    else laterLineStarts (offset + c.utf8Size) cs

def lineStarts (cs : List Char) : List Nat :=
  0 :: laterLineStarts 0 cs

/-- The position of a byte offset: the last line that starts at or before its boundary, and the
units from there. -/
def positionOf (cs : List Char) (offset : Nat) : Position :=
  let boundary := byteLength (charsBefore offset cs)
  let started := (lineStarts cs).takeWhile (· ≤ boundary)
  let line := started.length - 1
  let lineStart := started.getLastD 0
  ⟨line, unitLength ((sliceBytes? lineStart boundary cs).getD [])⟩

/-- The byte offset, counted from the start of a line, of the first boundary with at least
`character` units before it. `passed` and `offset` count what was passed. -/
def columnOffset (character : Nat) : (passed offset : Nat) → List Char → Option Nat
  | passed, offset, [] => if character ≤ passed then some offset else none
  | passed, offset, c :: cs =>
    if character ≤ passed then some offset
    else columnOffset character (passed + units c) (offset + c.utf8Size) cs

/-- The byte offset of a position, if its line exists and is long enough. A line reaches up to the
start of the next one. -/
def offsetOf (cs : List Char) (p : Position) : Option Nat :=
  let starts := lineStarts cs
  starts[p.line]?.bind fun lineStart =>
    let lineEnd := starts[p.line + 1]?.getD (byteLength cs)
    columnOffset p.character 0 lineStart ((sliceBytes? lineStart lineEnd cs).getD [])

end Text

end Dependents
