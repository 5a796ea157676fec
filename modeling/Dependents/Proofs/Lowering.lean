import Dependents.SyntaxTree.Basic
import Mathlib.Data.List.Basic

/-! The lowering of a parse tree gives its named tree, laid out in pre-order. The walk keeps one number
for each node above it, and what it still has to add is settled by the nodes that it has not passed. -/
namespace Dependents

/-- The part of a parse tree that carries names. -/
inductive NamedTree where
  | node (label : NodeLabel) (children : List NamedTree)
deriving Repr, Inhabited

mutual

/-- The named trees at the top of a node: the node itself if it is named, else those below it. -/
def ParseNode.named : ParseNode → List NamedTree
  | .node named label children =>
    if named then [.node label (namedOfAll children)] else namedOfAll children

def namedOfAll : List ParseNode → List NamedTree
  | [] => []
  | n :: ns => n.named ++ namedOfAll ns

end

/-- The named tree of a parse tree. The root counts as named. -/
def ParseTree.named (t : ParseTree) : NamedTree :=
  .node t.root.label (namedOfAll t.root.children)

mutual

def NamedTree.size : NamedTree → Nat
  | .node _ children => 1 + sizeOfAll children

def sizeOfAll : List NamedTree → Nat
  | [] => 0
  | t :: ts => t.size + sizeOfAll ts

end

/-- The numbers of consecutive trees when the first one has number `id`. -/
def idsFrom (id : NodeId) : List NamedTree → List NodeId
  | [] => []
  | t :: ts => id :: idsFrom (id + t.size) ts

mutual

/-- The nodes of a tree in pre-order, numbered from `id` on. -/
def NamedTree.layout (parent : Option NodeId) (id : NodeId) : NamedTree → List SyntaxNode
  | .node label children =>
    ⟨label, parent, idsFrom (id + 1) children⟩ :: layoutAll id (id + 1) children

/-- The nodes of consecutive siblings in pre-order, numbered from `id` on. -/
def layoutAll (parent : NodeId) (id : NodeId) : List NamedTree → List SyntaxNode
  | [] => []
  | t :: ts => t.layout (some parent) id ++ layoutAll parent (id + t.size) ts

end

variable {up id : NodeId} {ts us : List NamedTree} {nodes : List SyntaxNode}

mutual

theorem length_layout (parent : Option NodeId) (id : NodeId) :
    (n : NamedTree) → (n.layout parent id).length = n.size
  | .node label children => by
    simp only [NamedTree.layout, NamedTree.size, List.length_cons, length_layoutAll id (id + 1) children]
    omega

theorem length_layoutAll (up id : NodeId) :
    (ts : List NamedTree) → (layoutAll up id ts).length = sizeOfAll ts
  | [] => rfl
  | t :: ts => by
    simp only [layoutAll, sizeOfAll, List.length_append, length_layout (some up) id t,
      length_layoutAll up (id + t.size) ts]

end

theorem layoutAll_append (up id : NodeId) (ts us : List NamedTree) :
    layoutAll up id (ts ++ us) = layoutAll up id ts ++ layoutAll up (id + sizeOfAll ts) us := by
  induction ts generalizing id with
  | nil => rfl
  | cons t ts ih =>
    rw [List.cons_append, layoutAll, layoutAll, ih, sizeOfAll, List.append_assoc, Nat.add_assoc]

theorem idsFrom_append (id : NodeId) (ts us : List NamedTree) :
    idsFrom id (ts ++ us) = idsFrom id ts ++ idsFrom (id + sizeOfAll ts) us := by
  induction ts generalizing id with
  | nil => rfl
  | cons t ts ih =>
    rw [List.cons_append, idsFrom, idsFrom, ih, sizeOfAll, List.cons_append, Nat.add_assoc]

theorem modify_append_left {α : Type} {f : α → α} {xs : List α} {i : Nat} (h : i < xs.length)
    (ys : List α) : (xs ++ ys).modify i f = xs.modify i f ++ ys := by
  rw [List.modify_eq_take_cons_drop h, List.modify_eq_take_cons_drop (by simp; omega),
    List.take_append_of_le_length (Nat.le_of_lt h), List.drop_append_of_le_length h,
    List.getElem_append_left h, List.append_assoc, List.cons_append]

def SyntaxNode.adopt (ids : List NodeId) (n : SyntaxNode) : SyntaxNode :=
  { n with children := n.children ++ ids }

/-- Lays trees out after the nodes there are, as further children of one of them. -/
def graft (nodes : List SyntaxNode) (up : NodeId) (ts : List NamedTree) : List SyntaxNode :=
  nodes.modify up (·.adopt (idsFrom nodes.length ts)) ++ layoutAll up nodes.length ts

theorem graft_nil (nodes : List SyntaxNode) (up : NodeId) : graft nodes up [] = nodes := by
  have hsame : (fun n : SyntaxNode => n.adopt []) = id := by
    funext n
    exact congrArg (SyntaxNode.mk n.label n.parent) (List.append_nil n.children)
  rw [graft, idsFrom, layoutAll, hsame, List.modify_id, List.append_nil]

theorem length_graft (nodes : List SyntaxNode) (up : NodeId) (ts : List NamedTree) :
    (graft nodes up ts).length = nodes.length + sizeOfAll ts := by
  rw [graft, List.length_append, List.length_modify, length_layoutAll]

theorem graft_append (hup : up < nodes.length) (ts us : List NamedTree) :
    graft nodes up (ts ++ us) = graft (graft nodes up ts) up us := by
  have hadopt : (fun n => n.adopt (idsFrom (nodes.length + sizeOfAll ts) us)) ∘
      (fun n : SyntaxNode => n.adopt (idsFrom nodes.length ts)) =
        fun n => n.adopt (idsFrom nodes.length (ts ++ us)) := by
    funext n
    simp [SyntaxNode.adopt, idsFrom_append]
  rw [graft, graft, length_graft, graft, modify_append_left (by rwa [List.length_modify]),
    List.modify_modify_eq, hadopt, layoutAll_append, List.append_assoc]

theorem graft_leaf (nodes : List SyntaxNode) (up : NodeId) (label : NodeLabel) :
    graft nodes up [.node label []] =
      nodes.modify up (·.adopt [nodes.length]) ++ [⟨label, some up, []⟩] :=
  rfl

/-- A new node and what is grafted onto it are one tree. -/
theorem graft_graft_leaf (nodes : List SyntaxNode) (up : NodeId) (label : NodeLabel)
    (ts : List NamedTree) :
    graft (graft nodes up [.node label []]) nodes.length ts = graft nodes up [.node label ts] := by
  have hlength : (nodes.modify up (·.adopt [nodes.length])).length = nodes.length :=
    List.length_modify _ _ _
  rw [graft, graft_leaf, List.length_append, hlength, List.length_singleton,
    List.modify_eq_take_cons_drop (by simp)]
  simp [graft, SyntaxNode.adopt, idsFrom, layoutAll, NamedTree.layout]

namespace Lowering

variable {w w' : Lowering} {node : ParseNode} {later : List ParseNode} {size size' : Nat}
  {above : List (ParseNode × List ParseNode)} {path : List (Option NodeId)}

/-- The path has a number, or none, for each node above. The last of them is the root, which is numbered
and has no siblings. -/
inductive Anchored (size : Nat) : List (ParseNode × List ParseNode) → List (Option NodeId) → Prop
  | root {node : ParseNode} {id : NodeId} : id < size → Anchored size [(node, [])] [some id]
  | child {frame : ParseNode × List ParseNode} {above : List (ParseNode × List ParseNode)}
      {id : Option NodeId} {path : List (Option NodeId)} :
      Anchored size above path → (∀ i, id = some i → i < size) →
        Anchored size (frame :: above) (id :: path)

theorem Anchored.mono (h : Anchored size above path) (hle : size ≤ size') :
    Anchored size' above path := by
  induction h with
  | root hid => exact .root (Nat.lt_of_lt_of_le hid hle)
  | child _ hid ih => exact .child ih fun i hi => Nat.lt_of_lt_of_le (hid i hi) hle

theorem Anchored.nearest (h : Anchored size above path) :
    ∃ up, path.findSome? (·) = some up ∧ up < size := by
  induction h with
  | root hid => exact ⟨_, rfl, hid⟩
  | @child frame above id path _ hid ih =>
    cases id with
    | none => exact ih
    | some i => exact ⟨i, rfl, hid i rfl⟩

/-- Lays trees out below the nearest number of a path. -/
def hang (path : List (Option NodeId)) (nodes : List SyntaxNode) (ts : List NamedTree) :
    List SyntaxNode :=
  match path.findSome? (·) with
  | some up => graft nodes up ts
  | none => nodes

/-- What comes of some nodes once the siblings after those above are laid out as well. -/
def finishAbove : List (ParseNode × List ParseNode) → List (Option NodeId) → List SyntaxNode →
    List SyntaxNode
  | [], _, nodes => nodes
  | (_, later) :: above, path, nodes =>
    finishAbove above path.tail (hang path.tail nodes (namedOfAll later))

/-- What will come of a walk. -/
def finished (w : Lowering) : List SyntaxNode :=
  finishAbove w.cursor.above w.path
    (hang w.path w.nodes.toList (namedOfAll (w.cursor.node :: w.cursor.later)))

theorem hang_nil (path : List (Option NodeId)) (nodes : List SyntaxNode) :
    hang path nodes [] = nodes := by
  unfold hang
  split
  · exact graft_nil nodes _
  · rfl

theorem hang_append (h : Anchored nodes.length above path) (ts us : List NamedTree) :
    hang path nodes (ts ++ us) = hang path (hang path nodes ts) us := by
  obtain ⟨up, hup, hlt⟩ := h.nearest
  simp only [hang, hup]
  exact graft_append hlt ts us

/-- A visited node is laid out, and what stands below it will hang from it or, if it was left out, from
where it would have hung itself. -/
theorem visit_hang {nodes : Array SyntaxNode} (h : Anchored nodes.size above path)
    (node : ParseNode) : let visited := visit node path nodes
    hang (visited.1 :: path) visited.2.toList (namedOfAll node.children) =
      hang path nodes.toList node.named ∧ nodes.size ≤ visited.2.size ∧
      ∀ i, visited.1 = some i → i < visited.2.size := by
  obtain ⟨up, hup, hlt⟩ := h.nearest
  have hpath : path.isEmpty = false := by cases h <;> rfl
  obtain ⟨named, label, children⟩ := node
  cases named with
  | false => simp [visit, hang, hup, hpath, ParseNode.isNamed, ParseNode.named, ParseNode.children]
  | true =>
    have hvisit : visit (.node true label children) path nodes = (some nodes.size,
        (nodes.push ⟨label, some up, []⟩).modify up (·.adopt [nodes.size])) := by
      simp [visit, hup, ParseNode.isNamed, ParseNode.label, SyntaxNode.adopt]
    have hleaf : ((nodes.push ⟨label, some up, []⟩).modify up (·.adopt [nodes.size])).toList =
        graft nodes.toList up [.node label []] := by
      rw [Array.toList_modify, Array.toList_push, modify_append_left hlt, graft_leaf]
      rfl
    have hnode := graft_graft_leaf nodes.toList up label (namedOfAll children)
    simp only [hvisit, hleaf, Array.size_modify, Array.size_push]
    refine ⟨?_, Nat.le_succ _, fun i hi => ?_⟩
    · simpa [hang, hup, ParseNode.named, ParseNode.children] using hnode
    · cases hi
      exact Nat.lt_succ_self _

/-- Climbing skips what is finished. -/
theorem climb?_finished {nodes : Array SyntaxNode} (h : Anchored nodes.size above path)
    (node : ParseNode) (later : List ParseNode) :
    (∀ next path', climb? ⟨node, later, above⟩ path = some (next, path') →
      Anchored nodes.size next.above path' ∧ finished ⟨next, path', nodes⟩ =
        finishAbove above path (hang path nodes.toList (namedOfAll later))) ∧
    (climb? ⟨node, later, above⟩ path = none →
      nodes.toList = finishAbove above path (hang path nodes.toList (namedOfAll later))) := by
  induction h generalizing node later with
  | root hid =>
    cases later with
    | nil => simp [climb?, Cursor.nextSibling?, Cursor.parent?, finishAbove, hang_nil, namedOfAll]
    | cons sibling later =>
      rw [climb?]
      simp only [Cursor.nextSibling?]
      refine ⟨fun next path' hnext => ?_, fun hnone => by cases hnone⟩
      cases hnext
      exact ⟨.root hid, rfl⟩
  | @child frame above id path habove hid ih =>
    cases later with
    | nil =>
      have hup : climb? ⟨node, [], frame :: above⟩ (id :: path) =
          climb? ⟨frame.1, frame.2, above⟩ path := by
        rw [climb?]
        rfl
      rw [hup, namedOfAll, hang_nil]
      exact ih frame.1 frame.2
    | cons sibling later =>
      rw [climb?]
      simp only [Cursor.nextSibling?]
      refine ⟨fun next path' hnext => ?_, fun hnone => by cases hnone⟩
      cases hnext
      exact ⟨.child habove hid, rfl⟩

/-- One step of the walk: the path stays in line with the nodes above, and what will come of the walk
stays the same. -/
theorem step_finished (h : Anchored w.nodes.size w.cursor.above w.path) :
    (∀ w', w.step = .inl w' → Anchored w'.nodes.size w'.cursor.above w'.path ∧
      w'.finished = w.finished) ∧
    ∀ nodes, w.step = .inr nodes → nodes.toList = w.finished := by
  obtain ⟨⟨node, later, above⟩, path, nodes⟩ := w
  obtain ⟨hhang, hsize, hid⟩ := visit_hang h node
  have hmore := h.mono hsize
  -- The tree under the cursor is laid out first, then its siblings.
  have hfinished : finished ⟨⟨node, later, above⟩, path, nodes⟩ =
      finishAbove above path (hang path (hang path nodes.toList node.named) (namedOfAll later)) := by
    rw [finished, namedOfAll, hang_append h]
  rw [hfinished, ← hhang]
  unfold step
  dsimp only
  generalize visit node path nodes = visited at hsize hid hmore ⊢
  obtain ⟨id, nodes'⟩ := visited
  obtain ⟨named, label, children⟩ := node
  cases children with
  | cons child rest =>
    simp only [Cursor.firstChild?, ParseNode.children]
    refine ⟨fun w' hw' => ?_, fun nodes hnodes => by cases hnodes⟩
    cases hw'
    exact ⟨.child hmore hid, rfl⟩
  | nil =>
    simp only [Cursor.firstChild?, ParseNode.children, namedOfAll, hang_nil]
    obtain ⟨hnext, hlast⟩ := climb?_finished hmore (.node named label []) later
    cases hclimb : climb? ⟨.node named label [], later, above⟩ path with
    | some next =>
      refine ⟨fun w' hw' => ?_, fun nodes hnodes => by cases hnodes⟩
      cases hw'
      exact hnext _ _ hclimb
    | none =>
      refine ⟨fun w' hw' => (by cases hw'), fun nodes hnodes => ?_⟩
      cases hnodes
      exact hlast hclimb

/-- The whole walk gives what every step left settled. -/
theorem run_finished (h : Anchored w.nodes.size w.cursor.above w.path) :
    w.run.toList = w.finished := by
  fun_induction run w with
  | case1 w next hstep ih =>
    obtain ⟨hnext, hsame⟩ := (step_finished h).1 next hstep
    rw [ih hnext, hsame]
  | case2 w nodes hstep => exact (step_finished h).2 nodes hstep

theorem run_of_next (h : w.step = .inl w') : w.run = w'.run := by
  rw [run]
  split <;> simp_all

theorem run_of_last {nodes : Array SyntaxNode} (h : w.step = .inr nodes) : w.run = nodes := by
  rw [run]
  split <;> simp_all

theorem run_start (root : ParseNode) : (start root).run.toList =
    (NamedTree.node root.label (namedOfAll root.children)).layout none 0 := by
  obtain ⟨named, label, children⟩ := root
  have hvisit : visit (.node named label children) [] #[] = (some 0, #[⟨label, none, []⟩]) := by
    simp [visit, ParseNode.label]
  cases children with
  | nil =>
    have hstep : (start (.node named label [])).step = .inr #[⟨label, none, []⟩] := by
      simp [start, step, hvisit, Cursor.firstChild?, ParseNode.children, climb?, Cursor.nextSibling?,
        Cursor.parent?]
    rw [run_of_last hstep]
    rfl
  | cons child rest =>
    have hstep : (start (.node named label (child :: rest))).step =
        .inl ⟨⟨child, rest, [(.node named label (child :: rest), [])]⟩, [some 0],
          #[⟨label, none, []⟩]⟩ := by
      simp [start, step, hvisit, Cursor.firstChild?, ParseNode.children]
    rw [run_of_next hstep, run_finished]
    · rfl
    · exact .root Nat.zero_lt_one

end Lowering

theorem SyntaxTree.nodes_ofParseTree (parsed : ParseTree) (source : String) :
    (ofParseTree parsed source).nodes.toList = parsed.named.layout none 0 :=
  Lowering.run_start parsed.root

theorem SyntaxTree.size_ofParseTree (parsed : ParseTree) (source : String) :
    (ofParseTree parsed source).size = parsed.named.size := by
  rw [SyntaxTree.size, ← Array.length_toList, nodes_ofParseTree, length_layout]

end Dependents
