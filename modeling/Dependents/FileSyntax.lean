import Dependents.CallSite
import Dependents.Import

/-! What the analysis needs to know of one file. It depends on the file's text alone. -/
namespace Dependents

/-- The named imports of a file, and its calls of imported names. -/
structure FileSyntax where
  imports : List ImportDeclaration
  callSites : List CallSite
deriving DecidableEq, Repr, Inhabited

namespace FileSyntax

def namesOf (imports : List ImportDeclaration) : List String :=
  imports.flatMap (·.localNames)

def ofTree (t : SyntaxTree) : FileSyntax :=
  let imports := t.imports
  let names := namesOf imports
  ⟨imports, if names.isEmpty then [] else t.callSites fun callee => names.contains callee⟩

end FileSyntax

end Dependents
