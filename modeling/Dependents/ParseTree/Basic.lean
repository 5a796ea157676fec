/-! Parse trees as a parser hands them over: named and anonymous nodes, each with its grammar kind,
the field it fills in its parent, and its span in bytes. -/
namespace Dependents

structure NodeLabel where
  kind : String
  field : Option String
  start : Nat
  stop : Nat
deriving DecidableEq, Repr, Inhabited

/-- A node of a parse tree. Anonymous nodes are the tokens that a grammar gives no name. -/
inductive ParseNode where
  | node (named : Bool) (label : NodeLabel) (children : List ParseNode)
deriving Repr, Inhabited

/-- A parse tree. Parsers recover from faults, and say whether there were any. -/
structure ParseTree where
  root : ParseNode
  hasError : Bool
deriving Repr, Inhabited

namespace ParseNode

def isNamed : ParseNode → Bool
  | .node named _ _ => named

def label : ParseNode → NodeLabel
  | .node _ label _ => label

def children : ParseNode → List ParseNode
  | .node _ _ children => children

end ParseNode

end Dependents
