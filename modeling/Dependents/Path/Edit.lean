import Dependents.Path.Basic

/-! Extending and cutting paths as texts: what is kept is kept letter for letter. -/
namespace Dependents.Path

/-- The text of consecutive pieces. A lone root piece is written as the slash that ends it. -/
def ofSpelling : List (List Char × Option Component) → Path
  | [(_, some .root)] => ⟨"/"⟩
  | spelled => ⟨String.ofList (['/'].intercalate (spelled.map (·.1)))⟩

def silent (piece : List Char × Option Component) : Bool :=
  piece.2.isNone

def trimEnd (spelled : List (List Char × Option Component)) : List (List Char × Option Component) :=
  (spelled.reverse.dropWhile silent).reverse

/-- Appends `q`, which replaces `p` if it is absolute. One slash divides them unless `p` is empty
or already ends in one. -/
def join (p q : Path) : Path :=
  if q.isAbsolute then q
  else if p.text.isEmpty ∨ p.text.toList.getLast? = some '/' then ⟨p.text ++ q.text⟩
  else ⟨p.text ++ "/" ++ q.text⟩

def withSuffix (p : Path) (suffix : String) : Path :=
  ⟨p.text ++ suffix⟩

/-- The text before the last step. The root and the empty path have none. -/
def parent? (p : Path) : Option Path :=
  match p.spelling.reverse.dropWhile silent with
  | [] => none
  | (_, some .root) :: _ => none
  | _ :: before => some (ofSpelling (trimEnd before.reverse))

def last? (p : Path) : Option Component :=
  p.components.getLast?

def fileName? (p : Path) : Option String :=
  match p.last? with
  | some (.name text) => some text
  | _ => none

/-- What follows the last dot of a name. A name without a dot, or with none but a leading one, has
no extension. -/
def extensionOfName (name : String) : Option String :=
  let backwards := name.toList.reverse
  match backwards.dropWhile (· != '.') with
  | [] | [_] => none
  | _ :: _ :: _ => some (String.ofList (backwards.takeWhile (· != '.')).reverse)

def extension? (p : Path) : Option String :=
  p.fileName?.bind extensionOfName

def dropComponents : Nat → List (List Char × Option Component) → List (List Char × Option Component)
  | 0, spelled => spelled
  | _ + 1, [] => []
  | n + 1, (_, some _) :: rest => dropComponents n rest
  | n + 1, (_, none) :: rest => dropComponents (n + 1) rest

/-- What `p` spells after the steps of `base`, if it starts with them. Silent pieces at either end
of the rest are dropped. -/
def stripBase? (p base : Path) : Option Path :=
  let steps := base.components
  if steps.isPrefixOf p.components then
    if steps.isEmpty then some (ofSpelling (trimEnd p.spelling))
    else some (ofSpelling (trimEnd ((dropComponents steps.length p.spelling).dropWhile silent)))
  else none

def shownFrom (p : Path) (base : Option Path) : String :=
  match base.bind p.stripBase? with
  | some rest => rest.text
  | none => p.text

end Dependents.Path
