import Dependents.SyntaxTree.Basic

/-! Which function a piece of code stands in, and what that function is called. -/
namespace Dependents

structure FunctionInfo where
  name : String
  position : Position
deriving DecidableEq, Repr

namespace SyntaxTree

def anonymous : String := "anonymous"

/-- Whether functions of this kind can carry a name of their own. -/
def carriesName : NodeKind → Bool
  | .functionDeclaration | .generatorFunctionDeclaration | .methodDefinition
  | .functionExpression => true
  | _ => false

/-- The plain identifier that a variable declarator right above a function binds it to. -/
def boundName? (t : SyntaxTree) (function : NodeId) : Option NodeId :=
  (((t.parent? function).filter fun up => t.kind up == .variableDeclarator).bind
    fun declarator => t.childByField? declarator "name").filter
      fun binding => t.kind binding == .identifier

/-- The name of a function: its own, else that of the variable it is bound to. -/
def functionName (t : SyntaxTree) (function : NodeId) : String :=
  let own := if carriesName (t.kind function) then t.childByField? function "name" else none
  match own.or (t.boundName? function) with
  | some name => t.text name
  | none => anonymous

def enclosingFunctionId? (t : SyntaxTree) (id : NodeId) : Option NodeId :=
  (t.ancestors id).find? fun up => (t.kind up).isFunctionLike

/-- The function that a node stands in. Code at module scope stands in none. -/
def enclosingFunction? (t : SyntaxTree) (id : NodeId) : Option FunctionInfo :=
  (t.enclosingFunctionId? id).map fun function => ⟨t.functionName function, t.startPosition function⟩

def declaredFunctions (t : SyntaxTree) : List FunctionInfo :=
  t.ids.filterMap fun id =>
    match t.kind id with
    | .functionDeclaration | .generatorFunctionDeclaration =>
      (t.childByField? id "name").map fun name => ⟨t.text name, t.startPosition id⟩
    | _ => none

end SyntaxTree

end Dependents
