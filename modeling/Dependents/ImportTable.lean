import Dependents.CallSite
import Dependents.Edge
import Dependents.Import
import Dependents.Resolution

/-! The names a file imports, each tied to the file it comes from, and the edges of their calls. -/
namespace Dependents

/-- A local name with the file that its declaration resolved to. -/
structure ImportBinding where
  localName : String
  file : Path
deriving DecidableEq, Repr

/-- The bindings of one file, at most one for each name. -/
structure ImportTable where
  bindings : List ImportBinding
deriving DecidableEq, Repr

namespace ImportTable

def empty : ImportTable := ⟨[]⟩

/-- Binds a name. An earlier binding of that name is lost. -/
def insert (table : ImportTable) (binding : ImportBinding) : ImportTable :=
  ⟨binding :: table.bindings.filter fun b => b.localName != binding.localName⟩

def get? (table : ImportTable) (name : String) : Option ImportBinding :=
  table.bindings.find? fun b => b.localName == name

def size (table : ImportTable) : Nat :=
  table.bindings.length

/-- Binds the names of a declaration, if its specifier resolves. -/
def declare (resolve : String → Option Path) (table : ImportTable) (d : ImportDeclaration) :
    ImportTable :=
  match resolve d.specifier with
  | some file => d.localNames.foldl (fun table name => table.insert ⟨name, file⟩) table
  | none => table

/-- The table of a file's declarations. Where a name is declared twice, the later one counts. -/
def ofDeclarations (resolve : String → Option Path) (declarations : List ImportDeclaration) :
    ImportTable :=
  declarations.foldl (declare resolve) empty

/-- The edge of a call, with the file it leads to, if the table binds its callee. -/
def edge? (table : ImportTable) (dependent : Path) (site : CallSite) : Option (Path × Edge) :=
  (table.get? site.callee).map fun binding =>
    (binding.file, ⟨dependent, site.position, binding.localName, site.caller⟩)

def edges (table : ImportTable) (dependent : Path) (sites : List CallSite) : List (Path × Edge) :=
  sites.filterMap (table.edge? dependent)

end ImportTable

end Dependents
