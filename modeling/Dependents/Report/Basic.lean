import Dependents.DependencyIndex
import Dependents.Impact

/-! The answer to one question about a file: which edges lead to it, or to one of its functions. -/
namespace Dependents

/-- What is asked about, and the edges found. -/
structure Report where
  target : Path
  function : Option String
  edges : List Edge
deriving DecidableEq, Repr

namespace Report

def impact (r : Report) : Impact :=
  Impact.ofEdges r.edges

def ofIndex (index : DependencyIndex) (target : Path) : Option String → Report
  | some function => ⟨target, some function, index.edgesOn target function⟩
  | none => ⟨target, none, index.edgesOf target⟩

end Report

end Dependents
