import Dependents.ParseTree.Basic

/-! A place in a parse tree that moves from node to node, and how many nodes it has before it. -/
namespace Dependents

mutual

/-- How many nodes a tree has, the anonymous ones included. -/
def ParseNode.size : ParseNode → Nat
  | .node _ _ children => 1 + sizeOfNodes children

def sizeOfNodes : List ParseNode → Nat
  | [] => 0
  | n :: ns => n.size + sizeOfNodes ns

end

/-- A node with the siblings after it, and the nodes above it with theirs, the nearest first. -/
structure Cursor where
  node : ParseNode
  later : List ParseNode
  above : List (ParseNode × List ParseNode)
deriving Inhabited

namespace Cursor

variable {c next : Cursor}

def firstChild? (c : Cursor) : Option Cursor :=
  match c.node.children with
  | [] => none
  | child :: later => some ⟨child, later, (c.node, c.later) :: c.above⟩

def nextSibling? (c : Cursor) : Option Cursor :=
  match c.later with
  | [] => none
  | sibling :: later => some ⟨sibling, later, c.above⟩

def parent? (c : Cursor) : Option Cursor :=
  match c.above with
  | [] => none
  | (up, later) :: above => some ⟨up, later, above⟩

/-- How many nodes come after the tree under the cursor. -/
def ahead (c : Cursor) : Nat :=
  sizeOfNodes c.later + c.above.foldr (fun frame rest => sizeOfNodes frame.2 + rest) 0

def remaining (c : Cursor) : Nat :=
  c.node.size + c.ahead

theorem ahead_lt_remaining (c : Cursor) : c.ahead < c.remaining := by
  obtain ⟨⟨named, label, children⟩, later, above⟩ := c
  rw [remaining, ParseNode.size]
  omega

theorem remaining_firstChild? (h : c.firstChild? = some next) : next.remaining < c.remaining := by
  obtain ⟨⟨named, label, children⟩, later, above⟩ := c
  cases children with
  | nil => cases h
  | cons child rest =>
    cases h
    simp only [remaining, ahead, ParseNode.size, sizeOfNodes, List.foldr_cons]
    omega

theorem remaining_nextSibling? (h : c.nextSibling? = some next) : next.remaining = c.ahead := by
  obtain ⟨node, later, above⟩ := c
  cases later with
  | nil => cases h
  | cons sibling later =>
    cases h
    simp only [remaining, ahead, sizeOfNodes]
    omega

theorem ahead_parent? (h : c.parent? = some next) : next.ahead ≤ c.ahead := by
  obtain ⟨node, later, above⟩ := c
  cases above with
  | nil => cases h
  | cons frame above =>
    cases h
    simp only [ahead, List.foldr_cons]
    omega

theorem length_above_parent? (h : c.parent? = some next) : next.above.length < c.above.length := by
  obtain ⟨node, later, above⟩ := c
  cases above with
  | nil => cases h
  | cons frame above =>
    cases h
    exact Nat.lt_succ_self _

end Cursor

end Dependents
