import Dependents.ParseTree.Cursor

/-! The lowering of a parse tree: a walk over all its nodes that numbers the named ones in the order
it meets them. -/
namespace Dependents

abbrev NodeId := Nat

structure SyntaxNode where
  label : NodeLabel
  parent : Option NodeId
  children : List NodeId
deriving DecidableEq, Repr, Inhabited

/-- A walk on its way. The path has the number of each node above the cursor, the nearest first; a node
that was left out has none. -/
structure Lowering where
  cursor : Cursor
  path : List (Option NodeId)
  nodes : Array SyntaxNode
deriving Inhabited

namespace Lowering

variable {cursor next : Cursor} {path path' : List (Option NodeId)} {w w' : Lowering}

def start (root : ParseNode) : Lowering :=
  ⟨⟨root, [], []⟩, [], #[]⟩

/-- Numbers a node and lists it with the nearest numbered node above it. A node without a name is left
out unless it is the root. -/
def visit (node : ParseNode) (path : List (Option NodeId)) (nodes : Array SyntaxNode) :
    Option NodeId × Array SyntaxNode :=
  if node.isNamed || path.isEmpty then
    let id := nodes.size
    -- Nodes that were left out are passed over on the way up.
    match path.findSome? (·) with
    | some up => (some id, (nodes.push ⟨node.label, some up, []⟩).modify up
        fun n => { n with children := n.children ++ [id] })
    | none => (some id, nodes.push ⟨node.label, none, []⟩)
  else (none, nodes)

/-- Goes to the next sibling, or to that of the nearest node above that has one. -/
def climb? (cursor : Cursor) (path : List (Option NodeId)) :
    Option (Cursor × List (Option NodeId)) :=
  match cursor.nextSibling? with
  | some sibling => some (sibling, path)
  | none =>
    match _ : cursor.parent? with
    | some up => climb? up path.tail
    | none => none
termination_by cursor.above.length
decreasing_by exact Cursor.length_above_parent? ‹_›

/-- Visits the node under the cursor and goes on to the next one, or gives all nodes if there is none. -/
def step : Lowering → Lowering ⊕ Array SyntaxNode
  | ⟨cursor, path, nodes⟩ =>
    let (id, nodes) := visit cursor.node path nodes
    match cursor.firstChild? with
    | some child => .inl ⟨child, id :: path, nodes⟩
    | none =>
      match climb? cursor path with
      | some (next, path) => .inl ⟨next, path, nodes⟩
      | none => .inr nodes

theorem remaining_climb? (h : climb? cursor path = some (next, path')) :
    next.remaining ≤ cursor.ahead := by
  fun_induction climb? cursor path with
  | case1 cursor path sibling hsibling =>
    cases h
    exact Nat.le_of_eq (Cursor.remaining_nextSibling? hsibling)
  | case2 cursor path _ up hup ih => exact Nat.le_trans (ih h) (Cursor.ahead_parent? hup)
  | case3 => cases h

theorem remaining_step (h : w.step = .inl w') : w'.cursor.remaining < w.cursor.remaining := by
  obtain ⟨cursor, path, nodes⟩ := w
  unfold step at h
  dsimp only at h
  split at h
  · rename_i child hchild
    cases h
    exact Cursor.remaining_firstChild? hchild
  · split at h
    · rename_i next path' hnext
      cases h
      exact Nat.lt_of_le_of_lt (remaining_climb? hnext) cursor.ahead_lt_remaining
    · cases h

def run (w : Lowering) : Array SyntaxNode :=
  match _ : w.step with
  | .inl next => run next
  | .inr nodes => nodes
termination_by w.cursor.remaining
decreasing_by exact remaining_step ‹_›

end Lowering

end Dependents
