import Dependents.DependencyIndex
import Dependents.Scope

/-! Questions about the function under a cursor. -/
namespace Dependents

structure CursorAnswer where
  function : Option FunctionInfo
  edges : List Edge
deriving DecidableEq, Repr

/-- Answers for a cursor at a byte offset of a file. At module scope all edges of the file are
meant. -/
def DependencyIndex.atOffset (index : DependencyIndex) (tree : SyntaxTree) (file : Path)
    (offset : Nat) : CursorAnswer :=
  match tree.enclosingFunction? (tree.nodeAt offset) with
  | some function => ⟨some function, index.edgesOn file function.name⟩
  | none => ⟨none, index.edgesOf file⟩

end Dependents
