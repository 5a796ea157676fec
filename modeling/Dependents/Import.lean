import Dependents.SyntaxTree.Basic
import Dependents.Text.Blank

/-! Import declarations as a file spells them: a specifier, and the local names in braces. -/
namespace Dependents

/-- One declaration that imports by name. An alias counts as the local name. -/
structure ImportDeclaration where
  specifier : String
  localNames : List String
deriving DecidableEq, Repr

namespace Text

def isQuote (c : Char) : Bool :=
  c == '\x22' || c == '\x27' || c == '\x60'

/-- The text of a literal without white space around it, and without its quotes if it starts and
ends in the same one. -/
def unquote (literal : String) : String :=
  let trimmed := trimBlank literal.toList
  String.ofList <| match trimmed with
    -- A quote alone is not taken for a pair.
    | first :: rest =>
      if rest.getLast? = some first ∧ isQuote first then rest.dropLast else trimmed
    | [] => []

end Text

namespace SyntaxTree

/-- The local name that an import specifier introduces: its alias, else its name. -/
def localName? (t : SyntaxTree) (specifier : NodeId) : Option String :=
  ((t.childByField? specifier "alias").or (t.childByField? specifier "name")).bind fun binding =>
    let name := t.text binding
    if name.isEmpty then none else some name

def localNames (t : SyntaxTree) (statement : NodeId) : List String :=
  (((t.childrenOfKind statement .importClause).flatMap
    fun clause => t.childrenOfKind clause .namedImports).flatMap
      fun named => t.childrenOfKind named .importSpecifier).filterMap t.localName?

/-- The declaration of an import statement. It needs a literal for its source and at least one
local name. -/
def importDeclaration? (t : SyntaxTree) (statement : NodeId) : Option ImportDeclaration :=
  ((t.childByField? statement "source").filter fun source => t.kind source == .stringLiteral).bind
    fun source =>
      let names := t.localNames statement
      if names.isEmpty then none else some ⟨Text.unquote (t.text source), names⟩

def imports (t : SyntaxTree) : List ImportDeclaration :=
  (t.childrenOfKind root .importStatement).filterMap t.importDeclaration?

end SyntaxTree

end Dependents
