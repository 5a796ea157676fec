import Dependents.FileSyntax
import Dependents.Proofs.ImportBindings
import Dependents.Proofs.Lowering

/-! Imports, calls and callers read off a named tree itself. Nodes are subtrees here, with the nodes
above them at hand, and nothing is numbered. -/
namespace Dependents

namespace NamedTree

def label : NamedTree → NodeLabel
  | .node label _ => label

def children : NamedTree → List NamedTree
  | .node _ children => children

def kind (n : NamedTree) : NodeKind :=
  NodeKind.ofGrammar n.label.kind

def text (source : List Char) (n : NamedTree) : String :=
  String.ofList ((Text.sliceBytes? n.label.start n.label.stop source).getD [])

def childByField? (n : NamedTree) (field : String) : Option NamedTree :=
  n.children.find? fun child => child.label.field == some field

def childrenOfKind (n : NamedTree) (kind : NodeKind) : List NamedTree :=
  n.children.filter fun child => child.kind == kind

/-- The local name of an import specifier: the text of its alias, else of its name. -/
def localName? (source : List Char) (specifier : NamedTree) : Option String :=
  (((specifier.childByField? "alias").or (specifier.childByField? "name")).map (text source)).filter
    fun name => !name.isEmpty

def localNames (source : List Char) (statement : NamedTree) : List String :=
  (((statement.childrenOfKind .importClause).flatMap
    fun clause => clause.childrenOfKind .namedImports).flatMap
      fun named => named.childrenOfKind .importSpecifier).filterMap (localName? source)

/-- The declaration of an import statement that names a literal source and lists some name. -/
def importDeclaration? (source : List Char) (statement : NamedTree) : Option ImportDeclaration :=
  match statement.childByField? "source", statement.localNames source with
  | some literal, name :: names =>
    if literal.kind = .stringLiteral then
      some ⟨Text.unquote (literal.text source), name :: names⟩
    else none
  | _, _ => none

def imports (source : List Char) (root : NamedTree) : List ImportDeclaration :=
  (root.childrenOfKind .importStatement).filterMap (importDeclaration? source)

/-- The text of what a call expression calls, unless its arguments are a template. -/
def callee? (source : List Char) (call : NamedTree) : Option String :=
  match call.childByField? "function", call.childByField? "arguments" with
  | some function, some arguments =>
    if arguments.label.kind = "template_string" then none else some (function.text source)
  | some function, none => some (function.text source)
  | none, _ => none

/-- The name of a function below `up`: its own if its kind can carry one, else the identifier that a
declarator right above it binds. -/
def functionName (source : List Char) (function : NamedTree) (up : Option NamedTree) : String :=
  let own := if SyntaxTree.carriesName function.kind then function.childByField? "name" else none
  let bound := (up.filter fun up => up.kind == .variableDeclarator).bind fun declarator =>
    (declarator.childByField? "name").filter fun name => name.kind == .identifier
  ((own.or bound).map (text source)).getD SyntaxTree.anonymous

/-- The name of the nearest function in a chain of nodes, each below the next. -/
def callerIn (source : List Char) : List NamedTree → Option String
  | [] => none
  | n :: above =>
    if n.kind.isFunctionLike then some (n.functionName source above.head?) else callerIn source above

mutual

/-- The nodes of a tree in pre-order, each with the nodes above it, the nearest first. -/
def places (above : List NamedTree) : NamedTree → List (NamedTree × List NamedTree)
  | .node label children =>
    (.node label children, above) :: placesOfAll (.node label children :: above) children

def placesOfAll (above : List NamedTree) : List NamedTree → List (NamedTree × List NamedTree)
  | [] => []
  | n :: ns => n.places above ++ placesOfAll above ns

end

/-- The call at a node below `above`, if the node is a call expression that calls something. -/
def call? (source : List Char) (n : NamedTree) (above : List NamedTree) : Option CallSite :=
  if n.kind = .callExpression then
    (n.callee? source).map fun callee =>
      ⟨callee, Text.positionOf source n.label.start, callerIn source (n :: above)⟩
  else none

end NamedTree

end Dependents
