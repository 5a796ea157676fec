import Dependents.Proofs.Outline
import Mathlib.Data.Nat.Find
import Mathlib.Logic.Relation

/-! The numbered nodes of a syntax tree are the root and the named nodes of its parse tree, in pre-
order, and what stands below a node is an interval of numbers. -/
namespace Dependents

namespace SyntaxTree

/-- Number `j` is reached from `i` by going down to children. -/
def Below (t : SyntaxTree) (i j : NodeId) : Prop :=
  Relation.ReflTransGen (fun up child => child ∈ t.children up) i j

/-- The numbers of a syntax tree are the places of `ks`, with the neighbours that their addresses
give. What stands below number `i` is numbered from `i` up to `stop i`. -/
structure PreorderImage (t : SyntaxTree) (ks : List PlacedNode) (stop : NodeId → NodeId) : Prop where
  labels : t.nodes.toList.map (·.label) = ks.map (·.label)
  orphan : ∀ i < t.size, t.parent? i = none ↔ i = root
  parent : ∀ i n, ks[i]? = some n → ∀ up,
    t.parent? i = some up ↔ ∃ m, ks[up]? = some m ∧ PlacedNode.Nearest ks m n
  parent_lt : ∀ i up, t.parent? i = some up → up < i
  children_increasing : ∀ i, (t.children i).Pairwise (· < ·)
  mem_children : ∀ i child, child ∈ t.children i ↔ t.parent? child = some i
  below : ∀ i m, ks[i]? = some m → ∀ j n, ks[j]? = some n → (t.Below i j ↔ m.Above n)
  block : ∀ i < t.size, ∀ j, t.Below i j ↔ i ≤ j ∧ j < stop i
  ancestors_decreasing : ∀ i, (t.ancestors i).Pairwise (· > ·)
  ancestors_last : ∀ i < t.size, (t.ancestors i).getLast? = some root
  mem_ancestors : ∀ i < t.size, ∀ j, j ∈ t.ancestors i ↔ j ≤ i ∧ i < stop j

end SyntaxTree

variable {t : SyntaxTree} {ks : List PlacedNode} {n m : PlacedNode} {ns : List NamedTree}
  {pid id i j k : NodeId}

/-! Children by number. -/

theorem NamedTree.size_pos (n : NamedTree) : 0 < n.size := by
  cases n with
  | node label children =>
    rw [NamedTree.size]
    omega

theorem le_of_mem_idsFrom (h : i ∈ idsFrom id ns) : id ≤ i := by
  induction ns generalizing id with
  | nil => simp [idsFrom] at h
  | cons n ns ih =>
    rcases List.mem_cons.1 h with rfl | h
    · exact Nat.le_refl i
    · exact Nat.le_trans (Nat.le_add_right id n.size) (ih h)

theorem idsFrom_increasing (id : NodeId) (ns : List NamedTree) :
    (idsFrom id ns).Pairwise (· < ·) := by
  induction ns generalizing id with
  | nil => exact List.Pairwise.nil
  | cons n ns ih =>
    refine List.pairwise_cons.2 ⟨fun i hi => ?_, ih (id + n.size)⟩
    exact Nat.lt_of_lt_of_le (Nat.lt_add_of_pos_right n.size_pos) (le_of_mem_idsFrom hi)

namespace SyntaxTree

variable {above : List NamedTree} {p q : NamedTree}

theorem HoldsAllAt.of_mem_idsFrom (h : t.HoldsAllAt pid id ns) (hj : j ∈ idsFrom id ns) :
    ∃ q, t.HoldsAt (some pid) j q := by
  induction ns generalizing id with
  | nil => simp [idsFrom] at hj
  | cons n ns ih =>
    rcases List.mem_cons.1 hj with rfl | hj
    · exact ⟨n, h.head⟩
    · exact ih h.tail hj

theorem HoldsAt.children {parent : Option NodeId} (h : t.HoldsAt parent i p) :
    t.children i = idsFrom (i + 1) p.children := by
  rw [SyntaxTree.children, h.node?]

/-- A child hangs from the node that lists it, and stands for a node of the named tree as that does. -/
theorem Stands.of_mem_children (h : t.Stands i p above) (hj : j ∈ t.children i) :
    t.parent? j = some i ∧ ∃ q, t.Stands j q (p :: above) := by
  obtain ⟨parent, hp⟩ := h.holdsAt
  rw [hp.children] at hj
  obtain ⟨q, hq⟩ := hp.below.of_mem_idsFrom hj
  exact ⟨by simp [SyntaxTree.parent?, hq.node?], q, .child h (le_of_mem_idsFrom hj) hq⟩

mutual

/-- Every number in the block of a tree is reached by going down from its root. -/
theorem Stands.reaches : (p : NamedTree) → ∀ {id above}, t.Stands id p above →
    ∀ j, id ≤ j → j < id + p.size → t.Below id j
  | .node label children, id, above, h, j, hj, hlt => by
    rcases Nat.eq_or_lt_of_le hj with rfl | hj
    · exact .refl
    · obtain ⟨parent, hp⟩ := h.holdsAt
      rw [NamedTree.size, ← Nat.add_assoc] at hlt
      exact Stands.reachesAll children h (Nat.lt_succ_self id) hp.below
        (hp.children ▸ List.Subset.refl _) j hj hlt

theorem Stands.reachesAll : (ns : List NamedTree) → ∀ {pid p above id}, t.Stands pid p above →
    pid < id → t.HoldsAllAt pid id ns → idsFrom id ns ⊆ t.children pid →
    ∀ j, id ≤ j → j < id + sizeOfAll ns → t.Below pid j
  | [], _, _, _, id, _, _, _, _, j, hj, hlt => absurd hlt (Nat.not_lt_of_le hj)
  | n :: ns, pid, p, above, id, h, hid, hns, hsub, j, hj, hlt => by
    rw [idsFrom, List.cons_subset] at hsub
    -- The number lies in the block of the first sibling, or in those of the later ones.
    rcases Nat.lt_or_ge j (id + n.size) with hin | hout
    · have hn := Stands.reaches n (.child h hid hns.head) j hj hin
      exact .head hsub.1 hn
    · rw [sizeOfAll, ← Nat.add_assoc] at hlt
      exact Stands.reachesAll ns h (Nat.lt_add_right n.size hid) hns.tail hsub.2 j hout hlt

end

theorem lt_size_of_node? {node : SyntaxNode} (h : t.node? i = some node) : i < t.size :=
  (Array.getElem?_eq_some_iff.1 h).1

theorem lt_size_of_parent? (h : t.parent? i = some j) : i < t.size := by
  obtain ⟨node, hnode, _⟩ := Option.bind_eq_some_iff.1 h
  exact lt_size_of_node? hnode

theorem lt_size_of_mem_children (h : j ∈ t.children i) : i < t.size := by
  cases hnode : t.node? i with
  | none => simp [SyntaxTree.children, hnode] at h
  | some node => exact lt_size_of_node? hnode

section OfParseTree

variable (parsed : ParseTree) (source : String)

theorem below_root (hj : j < (ofParseTree parsed source).size) :
    (ofParseTree parsed source).Below root j := by
  refine Stands.reaches parsed.named (stands_root parsed source) j (Nat.zero_le j) ?_
  rwa [size_ofParseTree, ← Nat.zero_add parsed.named.size] at hj

theorem stands_of_below (h : (ofParseTree parsed source).Below root j) :
    ∃ q above, (ofParseTree parsed source).Stands j q above := by
  induction h with
  | refl => exact ⟨_, _, stands_root parsed source⟩
  | tail _ hj ih =>
    obtain ⟨p, above, hp⟩ := ih
    obtain ⟨q, hq⟩ := (hp.of_mem_children hj).2
    exact ⟨q, _, hq⟩

theorem parent?_of_mem_children (h : j ∈ (ofParseTree parsed source).children i) :
    (ofParseTree parsed source).parent? j = some i := by
  obtain ⟨p, above, hp⟩ := stands_of_below parsed source
    (below_root parsed source (lt_size_of_mem_children h))
  exact (hp.of_mem_children h).1

theorem parent?_root : (ofParseTree parsed source).parent? root = none := by
  obtain ⟨h, _⟩ | ⟨_, _, _, _, _, h, _⟩ := (stands_root parsed source).parent?
  · exact h
  · cases h

theorem mem_children_iff : j ∈ (ofParseTree parsed source).children i ↔
    (ofParseTree parsed source).parent? j = some i := by
  refine ⟨parent?_of_mem_children parsed source, fun h => ?_⟩
  rcases (Relation.ReflTransGen.cases_tail_iff _ _ _).1
    (below_root parsed source (lt_size_of_parent? h)) with rfl | ⟨up, _, hj⟩
  · rw [parent?_root] at h
    cases h
  · have hup := parent?_of_mem_children parsed source hj
    obtain rfl : up = i := Option.some.inj (hup.symm.trans h)
    exact hj

theorem children_increasing (i : NodeId) :
    ((ofParseTree parsed source).children i).Pairwise (· < ·) := by
  rcases Nat.lt_or_ge i (ofParseTree parsed source).size with hlt | hge
  · obtain ⟨p, above, hp⟩ := stands_of_below parsed source (below_root parsed source hlt)
    obtain ⟨parent, hat⟩ := hp.holdsAt
    rw [hat.children]
    exact idsFrom_increasing (i + 1) p.children
  · have hnone : (ofParseTree parsed source).node? i = none := Array.getElem?_eq_none hge
    simp [SyntaxTree.children, hnone]

end OfParseTree

/-- The core of the correspondence, from which the rest follows: every place but the first hangs from
the nearest above it, and children are the converse of parents. -/
structure Numbers (t : SyntaxTree) (ks : List PlacedNode) : Prop where
  preordered : Preordered ks
  labels : t.nodes.toList.map (·.label) = ks.map (·.label)
  parent?_root : t.parent? root = none
  parent? : ∀ i n, root < i → ks[i]? = some n → ∃ up m, t.parent? i = some up ∧ up < i ∧
    ks[up]? = some m ∧ m.Nearest ks n
  mem_children : ∀ i j, j ∈ t.children i ↔ t.parent? j = some i

namespace Numbers

theorem size_eq (h : t.Numbers ks) : t.size = ks.length := by
  simpa [SyntaxTree.size] using congrArg List.length h.labels

theorem lookup (h : t.Numbers ks) (hi : i < t.size) : ∃ n, ks[i]? = some n :=
  ⟨_, List.getElem?_eq_getElem (h.size_eq ▸ hi)⟩

theorem nearest (h : t.Numbers ks) (hn : ks[i]? = some n) (hup : t.parent? i = some j) :
    j < i ∧ ∃ m, ks[j]? = some m ∧ m.Nearest ks n := by
  have hi : root < i := by
    refine Nat.pos_of_ne_zero ?_
    rintro rfl
    exact absurd (h.parent?_root.symm.trans hup) (by simp)
  obtain ⟨up, m, hup', hlt, hm, hnear⟩ := h.parent? i n hi hn
  obtain rfl : up = j := Option.some.inj (hup'.symm.trans hup)
  exact ⟨hlt, m, hm, hnear⟩

theorem parent_lt (h : t.Numbers ks) (hup : t.parent? i = some j) : j < i := by
  obtain ⟨n, hn⟩ := h.lookup (lt_size_of_parent? hup)
  exact (h.nearest hn hup).1

theorem parent?_eq_none_iff (h : t.Numbers ks) (hi : i < t.size) :
    t.parent? i = none ↔ i = root := by
  refine ⟨fun hnone => ?_, fun hroot => hroot ▸ h.parent?_root⟩
  by_contra hne
  obtain ⟨n, hn⟩ := h.lookup hi
  obtain ⟨up, _, hup, _⟩ := h.parent? i n (Nat.pos_of_ne_zero hne) hn
  exact absurd (hnone.symm.trans hup) (by simp)

/-- A node with a proper ancestor among the numbered ones is not the root, so it has a parent. -/
theorem parent?_of_above (h : t.Numbers ks) (hm : ks[j]? = some m) (hn : ks[i]? = some n)
    (hmn : m.Above n) (hne : m.address ≠ n.address) :
    ∃ up o, t.parent? i = some up ∧ up < i ∧ ks[up]? = some o ∧ o.Nearest ks n := by
  refine h.parent? i n (Nat.pos_of_ne_zero ?_) hn
  rintro rfl
  obtain rfl : j = 0 := Nat.le_zero.1 (h.preordered.le_of_above hm hn hmn)
  exact hne (congrArg _ (Option.some.inj (hm.symm.trans hn)))

theorem parent?_eq_some_iff (h : t.Numbers ks) (hn : ks[i]? = some n) :
    t.parent? i = some j ↔ ∃ m, ks[j]? = some m ∧ m.Nearest ks n := by
  refine ⟨fun hup => (h.nearest hn hup).2, ?_⟩
  rintro ⟨m, hm, hnear⟩
  obtain ⟨up, o, hup, _, ho, hnear'⟩ := h.parent?_of_above hm hn hnear.above hnear.proper
  -- Two nearest nodes are above each other, hence one.
  have hmo := hnear'.nearest m hnear.mem hnear.above hnear.proper
  have hom := hnear.nearest o hnear'.mem hnear'.above hnear'.proper
  obtain rfl : up = j :=
    Nat.le_antisymm (h.preordered.le_of_above ho hm hom) (h.preordered.le_of_above hm ho hmo)
  exact hup

/-- One step up from a number, or none. -/
theorem below_iff_up (h : t.Numbers ks) :
    t.Below j i ↔ i = j ∨ ∃ up, t.parent? i = some up ∧ t.Below j up := by
  rw [Below, Relation.ReflTransGen.cases_tail_iff]
  simp only [h.mem_children, and_comm, Below]

theorem le_of_below (h : t.Numbers ks) (hij : t.Below i j) : i ≤ j := by
  induction hij with
  | refl => exact Nat.le_refl i
  | tail _ hj ih => exact Nat.le_trans ih (Nat.le_of_lt (h.parent_lt ((h.mem_children _ _).1 hj)))

theorem lt_size_of_below (h : t.Numbers ks) (hij : t.Below i j) (hi : i < t.size) : j < t.size := by
  cases hij with
  | refl => exact hi
  | tail _ hj => exact lt_size_of_parent? ((h.mem_children _ _).1 hj)

/-- Going down by numbers is going down the parse tree. -/
theorem below_iff_above (h : t.Numbers ks) (hm : ks[i]? = some m) (hn : ks[j]? = some n) :
    t.Below i j ↔ m.Above n := by
  -- One step up is one step to the nearest numbered ancestor, which every other one is above.
  induction j using Nat.strong_induction_on generalizing n with
  | h j ih =>
  rw [h.below_iff_up]
  constructor
  · rintro (rfl | ⟨up, hup, hbelow⟩)
    · exact .of_address (congrArg _ (Option.some.inj (hm.symm.trans hn)))
    · obtain ⟨hlt, o, ho, hnear⟩ := h.nearest hn hup
      exact List.IsPrefix.trans ((ih up hlt ho).1 hbelow) hnear.above
  · intro hmn
    by_cases heq : m.address = n.address
    · exact Or.inl (h.preordered.eq_of_address hm hn heq).symm
    · obtain ⟨up, o, hup, hlt, ho, hnear⟩ := h.parent?_of_above hm hn hmn heq
      exact Or.inr ⟨up, hup, (ih up hlt ho).2 (hnear.nearest m (List.mem_of_getElem? hm) hmn heq)⟩

theorem below_of_between (h : t.Numbers ks) (hik : t.Below i k) (hi : i < t.size) (hij : i ≤ j)
    (hjk : j ≤ k) : t.Below i j := by
  have hk := h.lt_size_of_below hik hi
  obtain ⟨m, hm⟩ := h.lookup hi
  obtain ⟨n, hn⟩ := h.lookup (Nat.lt_of_le_of_lt hjk hk)
  obtain ⟨o, ho⟩ := h.lookup hk
  rw [h.below_iff_above hm ho] at hik
  exact (h.below_iff_above hm hn).2 (h.preordered.above_of_between hm hn ho hij hjk hik)

/-- What stands below a number is an interval: it ends at the first number that does not. -/
theorem exists_block (h : t.Numbers ks) (i : NodeId) :
    ∃ stop, i < t.size → ∀ j, t.Below i j ↔ i ≤ j ∧ j < stop := by
  classical
  by_cases hi : i < t.size
  · have hend : ∃ j, i ≤ j ∧ ¬ t.Below i j :=
      ⟨t.size, Nat.le_of_lt hi, fun hb => Nat.lt_irrefl _ (h.lt_size_of_below hb hi)⟩
    obtain ⟨hstop, hout⟩ := Nat.find_spec hend
    refine ⟨Nat.find hend, fun _ j => ⟨fun hb => ⟨h.le_of_below hb, ?_⟩, ?_⟩⟩
    · by_contra hge
      exact hout (h.below_of_between hb hi hstop (Nat.le_of_not_lt hge))
    · rintro ⟨hij, hlt⟩
      by_contra hb
      exact Nat.find_min hend hlt ⟨hij, hb⟩
  · exact ⟨0, fun hi' => absurd hi' hi⟩

theorem ancestors_of_parent (h : t.Numbers ks) (hup : t.parent? i = some j) :
    t.ancestors i = i :: t.ancestors j := by
  rw [ancestors, hup]
  simp [h.parent_lt hup]

theorem ancestors_of_orphan (hup : t.parent? i = none) : t.ancestors i = [i] := by
  rw [ancestors, hup]

theorem mem_ancestors_iff (h : t.Numbers ks) : j ∈ t.ancestors i ↔ t.Below j i := by
  induction i using Nat.strong_induction_on with
  | h i ih =>
  rw [h.below_iff_up]
  cases hup : t.parent? i with
  | none => simp [ancestors_of_orphan hup, eq_comm]
  | some up =>
    rw [h.ancestors_of_parent hup, List.mem_cons, ih up (h.parent_lt hup)]
    simp [eq_comm]

theorem ancestors_decreasing (h : t.Numbers ks) (i : NodeId) :
    (t.ancestors i).Pairwise (· > ·) := by
  induction i using Nat.strong_induction_on with
  | h i ih =>
  cases hup : t.parent? i with
  | none => simp [ancestors_of_orphan hup]
  | some up =>
    have hlt := h.parent_lt hup
    rw [h.ancestors_of_parent hup]
    refine List.pairwise_cons.2 ⟨fun j hj => ?_, ih up hlt⟩
    exact Nat.lt_of_le_of_lt (h.le_of_below (h.mem_ancestors_iff.1 hj)) hlt

theorem getLast?_ancestors (h : t.Numbers ks) (hi : i < t.size) :
    (t.ancestors i).getLast? = some root := by
  induction i using Nat.strong_induction_on with
  | h i ih =>
  cases hup : t.parent? i with
  | none =>
    obtain rfl := (h.parent?_eq_none_iff hi).1 hup
    rw [ancestors_of_orphan hup]
    rfl
  | some up =>
    have hlt := h.parent_lt hup
    rw [h.ancestors_of_parent hup, List.getLast?_cons, ih up hlt (Nat.lt_trans hlt hi)]
    rfl

end Numbers

theorem numbers_ofParseTree (parsed : ParseTree) (source : String) :
    (ofParseTree parsed source).Numbers parsed.kept := by
  have hpre := preordered_kept parsed
  have hroot := parent?_root parsed source
  have hchildren := fun i j => mem_children_iff parsed source (i := i) (j := j)
  obtain ⟨⟨named, label, ps⟩, hasError⟩ := parsed
  have hbelow := mirrors_namedOfAll 0 1 0 ps
  rw [ParseTree.kept_eq] at hpre ⊢
  refine ⟨hpre, ?_, hroot, ?_, hchildren⟩
  · simpa [nodes_ofParseTree, ParseTree.named, ParseNode.children, ParseNode.label,
      NamedTree.layout] using hbelow.labels
  · intro i n hi hn
    obtain ⟨x, rfl⟩ := Nat.exists_eq_succ_of_ne_zero (Nat.ne_of_gt hi)
    have hx : x < (layoutAll 0 1 (namedOfAll ps)).length := by
      rw [hbelow.length_eq]
      exact Nat.lt_of_succ_lt_succ (List.getElem?_eq_some_iff.1 hn).1
    have hs := List.getElem?_eq_getElem hx
    obtain ⟨up, hup, hhang⟩ := hbelow.parents x n _ hn hs
    have hplace : HangsFrom root 0 (⟨[], named, label⟩ :: _) (x + 1) n up := hhang.cons rfl
    obtain ⟨hlt, m, hm, hnear⟩ := hplace.nearest rfl hpre hn hi
    refine ⟨up, m, ?_, hlt, hm, hnear⟩
    rw [SyntaxTree.parent?, SyntaxTree.node?, ← Array.getElem?_toList, nodes_ofParseTree]
    simp [ParseTree.named, ParseNode.children, NamedTree.layout, hs, hup]

/-- A built syntax tree is the image in pre-order of the root and the named nodes of its parse tree. -/
theorem ofParseTree_preorderImage (parsed : ParseTree) (source : String) :
    ∃ stop, (ofParseTree parsed source).PreorderImage parsed.kept stop := by
  have h := numbers_ofParseTree parsed source
  choose stop hstop using h.exists_block
  refine ⟨stop, ?_⟩
  exact {
    labels := h.labels
    orphan := fun i hi => h.parent?_eq_none_iff hi
    parent := fun i n hn up => h.parent?_eq_some_iff hn
    parent_lt := fun i up => h.parent_lt
    children_increasing := children_increasing parsed source
    mem_children := h.mem_children
    below := fun i m hm j n hn => h.below_iff_above hm hn
    block := hstop
    ancestors_decreasing := h.ancestors_decreasing
    ancestors_last := fun i hi => h.getLast?_ancestors hi
    mem_ancestors := by
      intro i hi j
      rw [h.mem_ancestors_iff]
      rcases Nat.lt_or_ge j (ofParseTree parsed source).size with hj | hj
      · exact hstop j hj i
      · have hji : ¬ j ≤ i := Nat.not_le_of_lt (Nat.lt_of_lt_of_le hi hj)
        exact ⟨fun hb => absurd (h.le_of_below hb) hji, fun hb => absurd hb.1 hji⟩ }

end SyntaxTree

end Dependents
