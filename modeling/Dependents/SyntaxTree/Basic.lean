import Dependents.SyntaxTree.Kind
import Dependents.SyntaxTree.Lowering
import Dependents.Text.Position

/-! Syntax trees: the named nodes of a parse tree in one array, in pre-order, each with the numbers of
its parent and children, together with the source text. -/
namespace Dependents

namespace SyntaxNode

def kind (n : SyntaxNode) : NodeKind :=
  NodeKind.ofGrammar n.label.kind

def contains (n : SyntaxNode) (offset : Nat) : Bool :=
  n.label.start ≤ offset && offset < n.label.stop

end SyntaxNode

/-- A source text with its named nodes. -/
structure SyntaxTree where
  source : List Char
  nodes : Array SyntaxNode
  hasErrors : Bool
deriving Repr, Inhabited

namespace SyntaxTree

def ofParseTree (parsed : ParseTree) (source : String) : SyntaxTree :=
  ⟨source.toList, (Lowering.start parsed.root).run, parsed.hasError⟩

def root : NodeId := 0

def size (t : SyntaxTree) : Nat :=
  t.nodes.size

def node? (t : SyntaxTree) (id : NodeId) : Option SyntaxNode :=
  t.nodes[id]?

def ids (t : SyntaxTree) : List NodeId :=
  List.range t.size

/-- The kind of a node, `other` if there is no such node. -/
def kind (t : SyntaxTree) (id : NodeId) : NodeKind :=
  match t.node? id with
  | some n => n.kind
  | none => .other

def grammarKind (t : SyntaxTree) (id : NodeId) : String :=
  match t.node? id with
  | some n => n.label.kind
  | none => ""

def parent? (t : SyntaxTree) (id : NodeId) : Option NodeId :=
  (t.node? id).bind (·.parent)

def children (t : SyntaxTree) (id : NodeId) : List NodeId :=
  match t.node? id with
  | some n => n.children
  | none => []

def childByField? (t : SyntaxTree) (id : NodeId) (field : String) : Option NodeId :=
  (t.children id).find? fun child => (t.node? child).any (·.label.field == some field)

def childrenOfKind (t : SyntaxTree) (id : NodeId) (kind : NodeKind) : List NodeId :=
  (t.children id).filter fun child => t.kind child == kind

/-- The source text of a node. A span that does not fit the text has the empty one. -/
def text (t : SyntaxTree) (id : NodeId) : String :=
  match t.node? id with
  | some n => String.ofList ((Text.sliceBytes? n.label.start n.label.stop t.source).getD [])
  | none => ""

/-- A node and those above it, up to the root. Parents have smaller numbers, so the walk ends. -/
def ancestors (t : SyntaxTree) (id : NodeId) : List NodeId :=
  id :: match t.parent? id with
    | some up => if up < id then ancestors t up else []
    | none => []
termination_by id

def positionOf (t : SyntaxTree) (offset : Nat) : Position :=
  Text.positionOf t.source offset

def offsetOf (t : SyntaxTree) (p : Position) : Option Nat :=
  Text.offsetOf t.source p

def startPosition (t : SyntaxTree) (id : NodeId) : Position :=
  match t.node? id with
  | some n => t.positionOf n.label.start
  | none => ⟨0, 0⟩

/-- Goes down from a node as long as some child contains the offset, into the first that does.
Children have larger numbers, so the walk ends. -/
def descend (t : SyntaxTree) (offset : Nat) (id : NodeId) : NodeId :=
  match (t.children id).find? fun child => (t.node? child).any (·.contains offset) with
  | some child => if id < child ∧ child < t.size then descend t offset child else id
  | none => id
termination_by t.size - id
decreasing_by
  rename_i h
  exact Nat.sub_lt_sub_left (Nat.lt_trans h.1 h.2) h.1

/-- The deepest node on the way down to an offset; the root if no child contains it. -/
def nodeAt (t : SyntaxTree) (offset : Nat) : NodeId :=
  t.descend offset root

end SyntaxTree

end Dependents
