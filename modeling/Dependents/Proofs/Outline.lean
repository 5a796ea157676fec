import Dependents.Proofs.Arena
import Mathlib.Data.List.Lex

/-! The nodes of a parse tree in pre-order, each with its address. Laying out the named trees numbers
the named nodes in that order, each below the nearest numbered node above it. -/
namespace Dependents

/-- A node of a parse tree with its address: the child numbers on the way down to it. -/
structure PlacedNode where
  address : List Nat
  named : Bool
  label : NodeLabel
deriving DecidableEq, Repr

namespace PlacedNode

/-- A node as seen one level up, from where its tree is child `k`. -/
def under (k : Nat) (n : PlacedNode) : PlacedNode :=
  { n with address := k :: n.address }

/-- Whether a node has a number. The root has one even without a name. -/
def kept (n : PlacedNode) : Bool :=
  n.named || n.address.isEmpty

/-- One node is the other or an ancestor of it. -/
def Above (m n : PlacedNode) : Prop :=
  m.address <+: n.address

/-- Of the nodes `ks`, `up` is the proper ancestor of `n` that all others are above. -/
structure Nearest (ks : List PlacedNode) (up n : PlacedNode) : Prop where
  mem : up ∈ ks
  above : up.Above n
  proper : up.address ≠ n.address
  nearest : ∀ m ∈ ks, m.Above n → m.address ≠ n.address → m.Above up

end PlacedNode

mutual

/-- All nodes of a parse tree in pre-order: a node comes first, then its children from left to right. -/
def ParseNode.outline : ParseNode → List PlacedNode
  | .node named label children => ⟨[], named, label⟩ :: outlineOfAll 0 children

/-- All nodes of consecutive siblings in pre-order, when the first is child `k`. -/
def outlineOfAll (k : Nat) : List ParseNode → List PlacedNode
  | [] => []
  | n :: ns => n.outline.map (PlacedNode.under k) ++ outlineOfAll (k + 1) ns

end

/-- The nodes of a parse tree that have numbers, in pre-order. -/
def ParseTree.kept (t : ParseTree) : List PlacedNode :=
  t.root.outline.filter PlacedNode.kept

variable {ks ls : List PlacedNode} {n m top : PlacedNode} {nodes others : List SyntaxNode}
  {pid id i k x y : NodeId} {a b c : List Nat}

/-! Addresses in lexicographic order. -/

theorem prefix_of_between (hac : a <+: c) (hab : ¬ b < a) (hbc : ¬ c < b) : a <+: b := by
  induction a generalizing b c with
  | nil => exact List.nil_prefix
  | cons x a ih =>
    obtain ⟨c, rfl⟩ : ∃ c', c = x :: c' := by
      obtain ⟨rest, rfl⟩ := hac
      exact ⟨_, rfl⟩
    cases b with
    | nil => exact absurd (List.nil_lt_cons x a) hab
    | cons y b =>
      rw [List.cons_lt_cons_iff] at hab hbc
      obtain rfl : x = y := by omega
      rw [List.prefix_cons_inj] at hac ⊢
      exact ih hac (fun h => hab (Or.inr ⟨rfl, h⟩)) fun h => hbc (Or.inr ⟨rfl, h⟩)

namespace PlacedNode

theorem Above.of_address (h : m.address = n.address) : m.Above n :=
  ⟨[], by rw [List.append_nil, h]⟩

theorem Above.of_root (h : m.address = []) : m.Above n :=
  ⟨n.address, by rw [h, List.nil_append]⟩

@[simp] theorem under_above_under {k : Nat} : (m.under k).Above (n.under k) ↔ m.Above n :=
  List.prefix_cons_inj k

end PlacedNode

/-- Nodes in pre-order, which is the lexicographic order of their addresses. -/
def Preordered (ks : List PlacedNode) : Prop :=
  ks.Pairwise fun m n => m.address < n.address

namespace Preordered

theorem lt_of_lt (h : Preordered ks) (hx : ks[x]? = some m) (hy : ks[y]? = some n) (hlt : x < y) :
    m.address < n.address := by
  obtain ⟨hx', rfl⟩ := List.getElem?_eq_some_iff.1 hx
  obtain ⟨hy', rfl⟩ := List.getElem?_eq_some_iff.1 hy
  exact List.pairwise_iff_getElem.1 h x y hx' hy' hlt

theorem not_lt_of_le (h : Preordered ks) (hx : ks[x]? = some m) (hy : ks[y]? = some n) (hle : x ≤ y) :
    ¬ n.address < m.address := by
  rcases Nat.eq_or_lt_of_le hle with rfl | hlt
  · obtain rfl : m = n := Option.some.inj (hx.symm.trans hy)
    exact List.lt_irrefl _
  · exact List.lt_asymm (h.lt_of_lt hx hy hlt)

/-- Ancestors come first. -/
theorem le_of_above (h : Preordered ks) (hx : ks[x]? = some m) (hy : ks[y]? = some n)
    (hmn : m.Above n) : x ≤ y := by
  by_contra hlt
  exact hmn.le (h.lt_of_lt hy hx (Nat.lt_of_not_le hlt))

theorem eq_of_address (h : Preordered ks) (hx : ks[x]? = some m) (hy : ks[y]? = some n)
    (hmn : m.address = n.address) : x = y :=
  Nat.le_antisymm (h.le_of_above hx hy (.of_address hmn))
    (h.le_of_above hy hx (.of_address hmn.symm))

/-- What stands between a node and one below it stands below it too. -/
theorem above_of_between (h : Preordered ks) {o : PlacedNode} (hx : ks[x]? = some m)
    (hy : ks[y]? = some n) (hz : ks[k]? = some o) (hxy : x ≤ y) (hyz : y ≤ k)
    (hmo : m.Above o) : m.Above n :=
  prefix_of_between hmo (h.not_lt_of_le hx hy hxy) (h.not_lt_of_le hy hz hyz)

end Preordered

theorem le_head_of_mem_outlineOfAll {k : Nat} {ps : List ParseNode} (h : n ∈ outlineOfAll k ps) :
    ∃ i rest, n.address = i :: rest ∧ k ≤ i := by
  induction ps generalizing k with
  | nil => simp [outlineOfAll] at h
  | cons p ps ih =>
    rw [outlineOfAll, List.mem_append, List.mem_map] at h
    rcases h with ⟨m, _, rfl⟩ | h
    · exact ⟨k, m.address, rfl, Nat.le_refl k⟩
    · obtain ⟨i, rest, ha, hi⟩ := ih h
      exact ⟨i, rest, ha, Nat.le_of_succ_le hi⟩

mutual

theorem preordered_outline : (p : ParseNode) → Preordered p.outline
  | .node named label children => by
    refine List.pairwise_cons.2 ⟨fun n hn => ?_, preordered_outlineOfAll 0 children⟩
    obtain ⟨i, rest, ha, _⟩ := le_head_of_mem_outlineOfAll hn
    rw [ha]
    exact List.nil_lt_cons i rest

theorem preordered_outlineOfAll (k : Nat) : (ps : List ParseNode) → Preordered (outlineOfAll k ps)
  | [] => List.Pairwise.nil
  | p :: ps => by
    refine List.pairwise_append.2 ⟨?_, preordered_outlineOfAll (k + 1) ps, ?_⟩
    · refine List.pairwise_map.2 ((preordered_outline p).imp fun h => ?_)
      exact List.cons_lt_cons_iff.2 (Or.inr ⟨rfl, h⟩)
    · intro m hm n hn
      obtain ⟨m, _, rfl⟩ := List.mem_map.1 hm
      obtain ⟨i, rest, ha, hi⟩ := le_head_of_mem_outlineOfAll hn
      rw [ha]
      exact List.cons_lt_cons_iff.2 (Or.inl hi)

end

theorem preordered_kept (parsed : ParseTree) : Preordered parsed.kept :=
  (preordered_outline parsed.root).filter _

theorem ParseTree.kept_eq (named : Bool) (label : NodeLabel) (ps : List ParseNode) (hasError : Bool) :
    (ParseTree.mk (.node named label ps) hasError).kept =
      ⟨[], named, label⟩ :: (outlineOfAll 0 ps).filter (·.named) := by
  have hroot : (PlacedNode.mk [] named label).kept = true := Bool.or_true named
  rw [ParseTree.kept, ParseNode.outline, List.filter_cons_of_pos hroot]
  refine congrArg _ (List.filter_congr fun n hn => ?_)
  obtain ⟨i, rest, ha, _⟩ := le_head_of_mem_outlineOfAll hn
  simp [PlacedNode.kept, ha]

/-! Parents by number against addresses. -/

/-- The parent of place `x` of `ks`, when places are numbered from `id` on and what has nothing above
it in `ks` hangs from `pid`: the last of the earlier places that is above it. -/
inductive HangsFrom (pid id : NodeId) (ks : List PlacedNode) (x : Nat) (n : PlacedNode) :
    NodeId → Prop
  | outer : (∀ y m, y < x → ks[y]? = some m → ¬ m.Above n) → HangsFrom pid id ks x n pid
  | inner {y : Nat} {m : PlacedNode} : y < x → ks[y]? = some m → m.Above n →
    (∀ z o, y < z → z < x → ks[z]? = some o → ¬ o.Above n) → HangsFrom pid id ks x n (id + y)

namespace HangsFrom

/-- Below a root the root catches what hung from outside. -/
theorem cons (h : HangsFrom id (id + 1) ks x n i) (htop : top.address = []) :
    HangsFrom pid id (top :: ks) (x + 1) n i := by
  cases h with
  | outer hfree =>
    refine .inner (y := 0) (Nat.succ_pos x) rfl (.of_root htop) ?_
    intro z o hz hzx ho
    obtain ⟨z, rfl⟩ := Nat.exists_eq_succ_of_ne_zero hz.ne'
    exact hfree z o (Nat.lt_of_succ_lt_succ hzx) ho
  | @inner y m hy hm hmn hlast =>
    rw [Nat.add_assoc, Nat.add_comm 1 y]
    refine .inner (Nat.succ_lt_succ hy) hm hmn ?_
    intro z o hz hzx ho
    obtain ⟨z, rfl⟩ := Nat.exists_eq_succ_of_ne_zero (Nat.ne_of_gt (Nat.zero_lt_of_lt hz))
    exact hlast z o (Nat.lt_of_succ_lt_succ hz) (Nat.lt_of_succ_lt_succ hzx) ho

theorem map_under (k : Nat) (h : HangsFrom pid id ks x n i) :
    HangsFrom pid id (ks.map (PlacedNode.under k)) x (n.under k) i := by
  have hget : ∀ (y : Nat) o, (ks.map (PlacedNode.under k))[y]? = some o →
      ∃ m, ks[y]? = some m ∧ PlacedNode.under k m = o := by
    intro y o ho
    rwa [List.getElem?_map, Option.map_eq_some_iff] at ho
  cases h with
  | outer hfree =>
    refine .outer fun y o hy ho => ?_
    obtain ⟨m, hm, rfl⟩ := hget y o ho
    exact fun hmn => hfree y m hy hm (PlacedNode.under_above_under.1 hmn)
  | @inner y m hy hm hmn hlast =>
    refine .inner hy (by rw [List.getElem?_map, hm]; rfl) (PlacedNode.under_above_under.2 hmn) ?_
    intro z o hz hzx ho
    obtain ⟨l, hl, rfl⟩ := hget z o ho
    exact fun hln => hlast z l hz hzx hl (PlacedNode.under_above_under.1 hln)

theorem append_left (h : HangsFrom pid id ks x n i) (hx : x < ks.length) :
    HangsFrom pid id (ks ++ ls) x n i := by
  have hget : ∀ y, y < x → (ks ++ ls)[y]? = ks[y]? := fun y hy =>
    List.getElem?_append_left (Nat.lt_trans hy hx)
  cases h with
  | outer hfree => exact .outer fun y m hy hm => hfree y m hy (hget y hy ▸ hm)
  | @inner y m hy hm hmn hlast =>
    exact .inner hy ((hget y hy).trans hm) hmn fun z o hz hzx ho =>
      hlast z o hz hzx (hget z hzx ▸ ho)

theorem append_right (h : HangsFrom pid (id + ks.length) ls x n i)
    (hks : ∀ m ∈ ks, ¬ m.Above n) : HangsFrom pid id (ks ++ ls) (ks.length + x) n i := by
  have hget : ∀ y, (ks ++ ls)[ks.length + y]? = ls[y]? := fun y => by
    rw [List.getElem?_append_right (Nat.le_add_right _ _), Nat.add_sub_cancel_left]
  -- A place before those of `ls` holds a node of `ks`, and none of them is above.
  have hearly : ∀ y m, (∀ z, y = ks.length + z → ls[z]? = some m → ¬ m.Above n) →
      (ks ++ ls)[y]? = some m → ¬ m.Above n := by
    intro y m hlate hm
    rcases Nat.lt_or_ge y ks.length with hlt | hge
    · rw [List.getElem?_append_left hlt] at hm
      exact hks m (List.mem_of_getElem? hm)
    · obtain ⟨z, rfl⟩ := Nat.exists_eq_add_of_le hge
      exact hlate z rfl (hget z ▸ hm)
  cases h with
  | outer hfree =>
    refine .outer fun y m hy => hearly y m fun z hz => hfree z m (by omega)
  | @inner y m hy hm hmn hlast =>
    rw [Nat.add_assoc]
    refine .inner (Nat.add_lt_add_left hy _) ((hget y).trans hm) hmn fun z o hz hzx => ?_
    exact hearly z o fun w hw => hlast w o (by omega) (by omega)

/-- In pre-order the last of the earlier places above a node is the nearest of all places above it. -/
theorem nearest (h : HangsFrom pid 0 (top :: ks) x n i) (htop : top.address = [])
    (hpre : Preordered (top :: ks)) (hn : (top :: ks)[x]? = some n) (hx : 0 < x) :
    i < x ∧ ∃ m, (top :: ks)[i]? = some m ∧ m.Nearest (top :: ks) n := by
  cases h with
  | outer hfree => exact absurd (.of_root htop) (hfree 0 top hx rfl)
  | @inner y m hy hm hmn hlast =>
    rw [Nat.zero_add]
    refine ⟨hy, m, hm, List.mem_of_getElem? hm, hmn, ?_, fun o ho hon hne => ?_⟩
    · intro heq
      exact Nat.ne_of_lt hy (hpre.eq_of_address hm hn heq)
    · obtain ⟨z, hz⟩ := List.getElem?_of_mem ho
      have hzx : z < x := by
        refine Nat.lt_of_le_of_ne (hpre.le_of_above hz hn hon) ?_
        rintro rfl
        exact hne (congrArg _ (Option.some.inj (hz.symm.trans hn)))
      have hzy : z ≤ y := Nat.le_of_not_lt fun hyz => hlast z o hyz hzx hz hon
      exact hpre.above_of_between hz hm hn hzy (Nat.le_of_lt hy) hon

end HangsFrom

/-- Consecutive nodes numbered from `id` on carry the labels of `ks` and hang as the addresses say. -/
structure Mirrors (pid id : NodeId) (ks : List PlacedNode) (nodes : List SyntaxNode) : Prop where
  labels : nodes.map (·.label) = ks.map (·.label)
  parents : ∀ x n s, ks[x]? = some n → nodes[x]? = some s →
    ∃ up, s.parent = some up ∧ HangsFrom pid id ks x n up

namespace Mirrors

theorem length_eq (h : Mirrors pid id ks nodes) : nodes.length = ks.length := by
  simpa using congrArg List.length h.labels

theorem nil : Mirrors pid id [] [] :=
  ⟨rfl, fun _ _ _ hn => by simp at hn⟩

theorem cons (h : Mirrors id (id + 1) ks nodes) {named : Bool} {label : NodeLabel}
    {children : List NodeId} :
    Mirrors pid id (⟨[], named, label⟩ :: ks) (⟨label, some pid, children⟩ :: nodes) := by
  refine ⟨by simp [h.labels], fun x n s hn hs => ?_⟩
  cases x with
  | zero =>
    obtain rfl := Option.some.inj hs
    exact ⟨pid, rfl, .outer fun y m hy => absurd hy (Nat.not_lt_zero y)⟩
  | succ x =>
    obtain ⟨up, hup, hhang⟩ := h.parents x n s hn hs
    exact ⟨up, hup, hhang.cons rfl⟩

theorem map_under (k : Nat) (h : Mirrors pid id ks nodes) :
    Mirrors pid id (ks.map (PlacedNode.under k)) nodes := by
  refine ⟨by simpa [PlacedNode.under, Function.comp_def] using h.labels, fun x n s hn hs => ?_⟩
  rw [List.getElem?_map, Option.map_eq_some_iff] at hn
  obtain ⟨m, hm, rfl⟩ := hn
  obtain ⟨up, hup, hhang⟩ := h.parents x m s hm hs
  exact ⟨up, hup, hhang.map_under k⟩

theorem append (h : Mirrors pid id ks nodes) (hl : Mirrors pid (id + ks.length) ls others)
    (hks : ∀ m ∈ ks, ∀ n ∈ ls, ¬ m.Above n) : Mirrors pid id (ks ++ ls) (nodes ++ others) := by
  refine ⟨by simp [h.labels, hl.labels], fun x n s hn hs => ?_⟩
  rcases Nat.lt_or_ge x ks.length with hlt | hge
  · rw [List.getElem?_append_left hlt] at hn
    rw [List.getElem?_append_left (h.length_eq ▸ hlt)] at hs
    obtain ⟨up, hup, hhang⟩ := h.parents x n s hn hs
    exact ⟨up, hup, hhang.append_left hlt⟩
  · obtain ⟨x, rfl⟩ := Nat.exists_eq_add_of_le hge
    rw [List.getElem?_append_right hge, Nat.add_sub_cancel_left] at hn
    rw [List.getElem?_append_right (h.length_eq ▸ hge), h.length_eq, Nat.add_sub_cancel_left] at hs
    obtain ⟨up, hup, hhang⟩ := hl.parents x n s hn hs
    exact ⟨up, hup, hhang.append_right fun m hm => hks m hm n (List.mem_of_getElem? hn)⟩

end Mirrors

mutual

/-- Laying out the named trees at the top of a node numbers the named nodes of its outline. -/
theorem mirrors_named (pid id : NodeId) :
    (p : ParseNode) → Mirrors pid id (p.outline.filter (·.named)) (layoutAll pid id p.named)
  | .node true label children => by
    have hbelow := mirrors_namedOfAll id (id + 1) 0 children
    simpa [ParseNode.outline, ParseNode.named, layoutAll, NamedTree.layout] using hbelow.cons
  | .node false label children => by
    simpa [ParseNode.outline, ParseNode.named] using mirrors_namedOfAll pid id 0 children

theorem mirrors_namedOfAll (pid id : NodeId) (k : Nat) : (ps : List ParseNode) →
    Mirrors pid id ((outlineOfAll k ps).filter (·.named)) (layoutAll pid id (namedOfAll ps))
  | [] => .nil
  | p :: ps => by
    have hp := (mirrors_named pid id p).map_under k
    rw [outlineOfAll, List.filter_append, List.filter_map, namedOfAll, layoutAll_append]
    refine hp.append ?_ ?_
    · rw [← hp.length_eq, length_layoutAll]
      exact mirrors_namedOfAll pid _ (k + 1) ps
    · intro m hm n hn hmn
      obtain ⟨m, _, rfl⟩ := List.mem_map.1 hm
      obtain ⟨i, rest, ha, hi⟩ := le_head_of_mem_outlineOfAll (List.mem_of_mem_filter hn)
      rw [PlacedNode.Above, ha] at hmn
      exact Nat.ne_of_lt hi (List.cons_prefix_cons.1 hmn).1

end

end Dependents
