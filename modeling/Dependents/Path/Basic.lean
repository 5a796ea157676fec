/-! Path texts and the components they spell. A path keeps its text and is compared, ordered and
looked up by its components, so two spellings of one place are one path. -/
namespace Dependents

inductive Component where
  | root
  | current
  | parent
  | name (text : String)
deriving DecidableEq, Repr, Inhabited, Hashable, Ord

/-- A path as it was written. Lean's equality is that of the texts; `Path.same` is that of the
places. -/
structure Path where
  text : String
deriving DecidableEq, Repr, Inhabited

namespace Path

/-- The pieces of a text between its slashes: one more than there are slashes. -/
def pieces : List Char → List (List Char)
  | [] => [[]]
  | c :: cs =>
    if c = '/' then [] :: pieces cs
    else match pieces cs with
      -- Unreachable: there is always a piece.
      | [] => [[c]]
      | piece :: rest => (c :: piece) :: rest

/-- What a piece that is not the first one stands for. Repeated slashes and inner dots are silent. -/
def innerComponent (piece : List Char) : Option Component :=
  if piece = [] ∨ piece = ['.'] then none
  else if piece = ['.', '.'] then some .parent
  else some (.name (String.ofList piece))

/-- What the first piece stands for: the root if a slash ends it at once, and a leading dot is
kept. -/
def firstComponent (piece : List Char) (last : Bool) : Option Component :=
  if piece = [] then (if last then none else some .root)
  else if piece = ['.'] then some .current
  else innerComponent piece

def spelling (p : Path) : List (List Char × Option Component) :=
  match pieces p.text.toList with
  | [] => []
  | first :: rest =>
    (first, firstComponent first rest.isEmpty) :: rest.map fun piece => (piece, innerComponent piece)

def components (p : Path) : List Component :=
  p.spelling.filterMap (·.2)

def same (p q : Path) : Bool :=
  p.components == q.components

/-- Paths are ordered step by step; the root comes before dots, dots before names, and names go
by code point. -/
def order (p q : Path) : Ordering :=
  compare p.components q.components

def isAbsolute (p : Path) : Bool :=
  p.text.toList.head? == some '/'

end Path

end Dependents
