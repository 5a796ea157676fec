import Dependents.Proofs.Outline

/-! The named tree of a parse tree, read off the nodes that have numbers: each of them carries a tree,
its label over the trees of those that it is the nearest above. -/
namespace Dependents

variable {ks ls : List PlacedNode} {n m top : PlacedNode} {ts us : List NamedTree}
  {tree tree' : PlacedNode → NamedTree} {k : Nat}

namespace PlacedNode

/-- The nodes of `ks` properly above a node. In pre-order they come from the top down, so this is the
nearest first. -/
def aboveIn (ks : List PlacedNode) (n : PlacedNode) : List PlacedNode :=
  (ks.filter fun m => m.address <+: n.address ∧ m.address ≠ n.address).reverse

/-- The nodes of `ks` right below a node. -/
def belowIn (ks : List PlacedNode) (n : PlacedNode) : List PlacedNode :=
  ks.filter fun m => (m.aboveIn ks).head? == some n

theorem mem_of_mem_aboveIn (h : m ∈ n.aboveIn ks) : m ∈ ks := by
  rw [aboveIn, List.mem_reverse] at h
  exact List.mem_of_mem_filter h

theorem aboveIn_root (htop : top.address = []) : top.aboveIn ks = [] := by
  rw [aboveIn, List.reverse_eq_nil_iff, List.filter_eq_nil_iff]
  intro m _
  cases m.address <;> simp [htop]

theorem aboveIn_cons (htop : top.address = []) (hn : n.address ≠ []) :
    n.aboveIn (top :: ks) = n.aboveIn ks ++ [top] := by
  rw [aboveIn, List.filter_cons_of_pos (by simpa [htop] using hn.symm), List.reverse_cons]
  rfl

theorem aboveIn_map_under : (n.under k).aboveIn (ks.map (under k)) = (n.aboveIn ks).map (under k) := by
  rw [aboveIn, aboveIn, List.filter_map, List.map_reverse]
  refine congrArg (fun l => (l.map (under k)).reverse) (List.filter_congr fun m _ => ?_)
  simp [under]

theorem under_inj : m.under k = n.under k ↔ m = n := by
  cases m
  cases n
  simp [under]

theorem belowIn_map_under : (n.under k).belowIn (ks.map (under k)) = (n.belowIn ks).map (under k) := by
  rw [belowIn, belowIn, List.filter_map]
  refine congrArg (List.map _) (List.filter_congr fun m _ => ?_)
  rw [Function.comp_apply, aboveIn_map_under, List.head?_map]
  cases (m.aboveIn ks).head? with
  | none => rfl
  | some up =>
    rw [Option.map_some, Option.some_beq_some, Option.some_beq_some, beq_eq_beq]
    exact under_inj

theorem belowIn_eq_nil (h : n ∉ ks) : n.belowIn ks = [] := by
  rw [belowIn, List.filter_eq_nil_iff]
  intro m _ hm
  exact h (mem_of_mem_aboveIn (List.mem_of_head? (beq_iff_eq.1 hm)))

/-- Right below a node above all others stand those with nothing else above them. -/
theorem belowIn_cons_self (htop : top.address = []) (hks : ∀ n ∈ ks, n.address ≠ []) :
    top.belowIn (top :: ks) = ks.filter fun n => (n.aboveIn ks).isEmpty := by
  have hnot : top ∉ ks := fun hmem => hks top hmem htop
  rw [belowIn, List.filter_cons_of_neg (by simp [aboveIn_root htop])]
  refine List.filter_congr fun m hm => ?_
  rw [aboveIn_cons htop (hks m hm)]
  cases habove : m.aboveIn ks with
  | nil => simp
  | cons up ups =>
    have hup : up ∈ ks := mem_of_mem_aboveIn (habove ▸ List.mem_cons_self)
    simpa using fun heq : up = top => hnot (heq ▸ hup)

theorem belowIn_cons (htop : top.address = []) (hks : ∀ n ∈ ks, n.address ≠ []) (hn : n ∈ ks) :
    n.belowIn (top :: ks) = n.belowIn ks := by
  have hne : top ≠ n := fun heq => hks n hn (heq ▸ htop)
  rw [belowIn, List.filter_cons_of_neg (by simp [aboveIn_root htop])]
  refine List.filter_congr fun m hm => ?_
  rw [aboveIn_cons htop (hks m hm)]
  cases m.aboveIn ks with
  | nil => simpa using hne
  | cons up ups => rfl

theorem filter_above_eq_nil (h : ∀ m ∈ ks, ¬ m.Above n) :
    ks.filter (fun m => m.address <+: n.address ∧ m.address ≠ n.address) = [] := by
  rw [List.filter_eq_nil_iff]
  intro m hm
  simp [show ¬ m.address <+: n.address from h m hm]

theorem aboveIn_append_left (h : ∀ m ∈ ls, ¬ m.Above n) : n.aboveIn (ks ++ ls) = n.aboveIn ks := by
  rw [aboveIn, List.filter_append, filter_above_eq_nil h, List.append_nil]
  rfl

theorem aboveIn_append_right (h : ∀ m ∈ ks, ¬ m.Above n) : n.aboveIn (ks ++ ls) = n.aboveIn ls := by
  rw [aboveIn, List.filter_append, filter_above_eq_nil h, List.nil_append]
  rfl

end PlacedNode

theorem NamedTree.placesOfAll_append (above : List NamedTree) :
    placesOfAll above (ts ++ us) = placesOfAll above ts ++ placesOfAll above us := by
  induction ts with
  | nil => rfl
  | cons t ts ih => rw [List.cons_append, placesOfAll, placesOfAll, ih, List.append_assoc]

/-- The trees `ts` are those at the top of the nodes `ks`. -/
structure Grows (ks : List PlacedNode) (ts : List NamedTree) (tree : PlacedNode → NamedTree) :
    Prop where
  node : ∀ n ∈ ks, tree n = .node n.label ((n.belowIn ks).map tree)
  tops : (ks.filter fun n => (n.aboveIn ks).isEmpty).map tree = ts
  places : ∀ above, NamedTree.placesOfAll above ts =
    ks.map fun n => (tree n, (n.aboveIn ks).map tree ++ above)

namespace Grows

theorem nil (tree : PlacedNode → NamedTree) : Grows [] [] tree where
  node _ hn := absurd hn List.not_mem_nil
  tops := rfl
  places _ := rfl

theorem congr (h : Grows ks ts tree) (heq : ∀ n ∈ ks, tree' n = tree n) : Grows ks ts tree' where
  node n hn := by
    rw [heq n hn, h.node n hn, PlacedNode.belowIn]
    exact congrArg _ (List.map_congr_left fun m hm => (heq m (List.mem_of_mem_filter hm)).symm)
  tops := by
    rw [← h.tops]
    exact List.map_congr_left fun m hm => heq m (List.mem_of_mem_filter hm)
  places above := by
    rw [h.places above]
    refine List.map_congr_left fun n hn => ?_
    have habove : (n.aboveIn ks).map tree' = (n.aboveIn ks).map tree :=
      List.map_congr_left fun m hm => heq m (PlacedNode.mem_of_mem_aboveIn hm)
    rw [heq n hn, habove]

/-- A node above all others is the one tree at the top. -/
theorem cons (h : Grows ks ts tree) (htop : top.address = []) (hks : ∀ n ∈ ks, n.address ≠ [])
    (htree : tree top = .node top.label ts) : Grows (top :: ks) [tree top] tree := by
  have hroot : top.aboveIn (top :: ks) = [] := PlacedNode.aboveIn_root htop
  have habove : ∀ n ∈ ks, n.aboveIn (top :: ks) = n.aboveIn ks ++ [top] :=
    fun n hn => PlacedNode.aboveIn_cons htop (hks n hn)
  refine ⟨List.forall_mem_cons.2 ⟨?_, fun n hn => ?_⟩, ?_, fun above => ?_⟩
  · rw [PlacedNode.belowIn_cons_self htop hks, h.tops, htree]
  · rw [PlacedNode.belowIn_cons htop hks hn, h.node n hn]
  · rw [List.filter_cons_of_pos (by simp [hroot]), List.filter_eq_nil_iff.2, List.map_singleton]
    intro n hn
    simp [habove n hn]
  · rw [List.map_cons, hroot, NamedTree.placesOfAll, NamedTree.placesOfAll, List.append_nil, htree,
      NamedTree.places, h.places]
    refine congrArg _ (List.map_congr_left fun n hn => ?_)
    rw [habove n hn, List.map_append, List.map_singleton, List.append_assoc, List.singleton_append,
      htree]

theorem map_under (k : Nat) (h : Grows ks ts fun n => tree (n.under k)) :
    Grows (ks.map (PlacedNode.under k)) ts tree := by
  refine ⟨List.forall_mem_map.2 fun n hn => ?_, ?_, fun above => ?_⟩
  · rw [h.node n hn, PlacedNode.belowIn_map_under, List.map_map]
    rfl
  · rw [← h.tops, List.filter_map, List.map_map]
    refine congrArg (List.map _) (List.filter_congr fun n _ => ?_)
    rw [Function.comp_apply, PlacedNode.aboveIn_map_under, List.isEmpty_map]
  · rw [h.places, List.map_map]
    refine List.map_congr_left fun n hn => ?_
    rw [Function.comp_apply, PlacedNode.aboveIn_map_under, List.map_map]
    rfl

/-- Nodes that stand side by side carry the trees of both. -/
theorem append (h : Grows ks ts tree) (hl : Grows ls us tree)
    (hapart : ∀ m ∈ ks, ∀ n ∈ ls, ¬ m.Above n ∧ ¬ n.Above m) : Grows (ks ++ ls) (ts ++ us) tree := by
  have hleft : ∀ n ∈ ks, n.aboveIn (ks ++ ls) = n.aboveIn ks := fun n hn =>
    PlacedNode.aboveIn_append_left fun m hm => (hapart n hn m hm).2
  have hright : ∀ n ∈ ls, n.aboveIn (ks ++ ls) = n.aboveIn ls := fun n hn =>
    PlacedNode.aboveIn_append_right fun m hm => (hapart m hm n hn).1
  have hbelow : ∀ n : PlacedNode, n.belowIn (ks ++ ls) = n.belowIn ks ++ n.belowIn ls := by
    intro n
    rw [PlacedNode.belowIn, List.filter_append]
    refine congrArg₂ _ ?_ ?_
    · exact List.filter_congr fun m hm => by rw [hleft m hm]
    · exact List.filter_congr fun m hm => by rw [hright m hm]
  have hdisjoint : ∀ n ∈ ks, n ∉ ls := fun n hn hn' => (hapart n hn n hn').1 (.of_address rfl)
  refine ⟨fun n hn => ?_, ?_, fun above => ?_⟩
  · rw [hbelow n]
    rcases List.mem_append.1 hn with hn | hn
    · rw [PlacedNode.belowIn_eq_nil (hdisjoint n hn), List.append_nil, h.node n hn]
    · rw [PlacedNode.belowIn_eq_nil fun hn' => hdisjoint n hn' hn, List.nil_append, hl.node n hn]
  · rw [← h.tops, ← hl.tops, List.filter_append, List.map_append]
    refine congrArg₂ _ (congrArg _ ?_) (congrArg _ ?_)
    · exact List.filter_congr fun n hn => by rw [hleft n hn]
    · exact List.filter_congr fun n hn => by rw [hright n hn]
  · rw [NamedTree.placesOfAll_append, h.places, hl.places, List.map_append]
    refine congrArg₂ _ ?_ ?_
    · exact List.map_congr_left fun n hn => by rw [hleft n hn]
    · exact List.map_congr_left fun n hn => by rw [hright n hn]

/-- Trees grown apart are grown by one function. -/
theorem exists_append (h : Grows ks ts tree) (hl : Grows ls us tree')
    (hapart : ∀ m ∈ ks, ∀ n ∈ ls, ¬ m.Above n ∧ ¬ n.Above m) :
    ∃ both, Grows (ks ++ ls) (ts ++ us) both := by
  refine ⟨fun n => if n ∈ ks then tree n else tree' n, append (h.congr ?_) (hl.congr ?_) hapart⟩
  · exact fun n hn => if_pos hn
  · exact fun n hn => if_neg fun hn' => (hapart n hn' n hn).1 (.of_address rfl)

/-- The root carries `ts`, and all other nodes what they carried. -/
def rooted (ts : List NamedTree) (tree : PlacedNode → NamedTree) (n : PlacedNode) : NamedTree :=
  if n.address = [] then .node n.label ts else tree n

theorem exists_cons (top : PlacedNode) (h : Grows ks ts tree) (htop : top.address = [])
    (hks : ∀ n ∈ ks, n.address ≠ []) :
    ∃ whole, whole top = .node top.label ts ∧ Grows (top :: ks) [.node top.label ts] whole := by
  have hroot : rooted ts tree top = .node top.label ts := if_pos htop
  have hbelow : Grows ks ts (rooted ts tree) := h.congr fun n hn => if_neg (hks n hn)
  have hgrows := hbelow.cons htop hks hroot
  rw [hroot] at hgrows
  exact ⟨_, hroot, hgrows⟩

theorem exists_map_under (k : Nat) (h : Grows ks ts tree) :
    ∃ under, Grows (ks.map (PlacedNode.under k)) ts under :=
  ⟨fun n => tree { n with address := n.address.tail }, map_under k h⟩

end Grows

theorem address_ne_nil_of_mem {ps : List ParseNode} (hn : n ∈ (outlineOfAll k ps).filter (·.named)) :
    n.address ≠ [] := by
  obtain ⟨i, rest, ha, _⟩ := le_head_of_mem_outlineOfAll (List.mem_of_mem_filter hn)
  simp [ha]

mutual

/-- The named nodes at and below a node carry the trees that it shows. -/
theorem grows_named : (p : ParseNode) → ∃ tree, Grows (p.outline.filter (·.named)) p.named tree
  | .node true label children => by
    obtain ⟨tree, h⟩ := grows_namedOfAll 0 children
    obtain ⟨whole, _, hwhole⟩ := h.exists_cons ⟨[], true, label⟩ rfl fun _ => address_ne_nil_of_mem
    exact ⟨whole, by simpa [ParseNode.outline, ParseNode.named] using hwhole⟩
  | .node false label children => by
    obtain ⟨tree, h⟩ := grows_namedOfAll 0 children
    exact ⟨tree, by simpa [ParseNode.outline, ParseNode.named] using h⟩

theorem grows_namedOfAll (k : Nat) : (ps : List ParseNode) →
    ∃ tree, Grows ((outlineOfAll k ps).filter (·.named)) (namedOfAll ps) tree
  | [] => ⟨fun n => .node n.label [], .nil _⟩
  | p :: ps => by
    obtain ⟨tree, h⟩ := grows_named p
    obtain ⟨first, hfirst⟩ := h.exists_map_under k
    obtain ⟨others, hothers⟩ := grows_namedOfAll (k + 1) ps
    rw [outlineOfAll, List.filter_append, List.filter_map, namedOfAll]
    refine hfirst.exists_append hothers fun m hm n hn => ?_
    -- The first numbers of the addresses differ.
    obtain ⟨m, _, rfl⟩ := List.mem_map.1 hm
    obtain ⟨i, rest, ha, hi⟩ := le_head_of_mem_outlineOfAll (List.mem_of_mem_filter hn)
    rw [PlacedNode.Above, PlacedNode.Above, ha]
    have hne : k ≠ i := Nat.ne_of_lt hi
    refine ⟨fun h => hne ?_, fun h => hne ?_⟩
    · exact (List.cons_prefix_cons.1 h).1
    · exact (List.cons_prefix_cons.1 h).1.symm

end

/-- The nodes of a parse tree that have numbers carry its trees, and the first of them the whole. -/
theorem ParseTree.exists_trees (parsed : ParseTree) :
    ∃ (root : PlacedNode) (tree : PlacedNode → NamedTree), parsed.kept.head? = some root ∧
      tree root = parsed.named ∧
      (∀ n ∈ parsed.kept, tree n = .node n.label ((n.belowIn parsed.kept).map tree)) ∧
      parsed.named.places [] =
        parsed.kept.map fun n => (tree n, (n.aboveIn parsed.kept).map tree) := by
  obtain ⟨⟨named, label, children⟩, hasError⟩ := parsed
  obtain ⟨below, h⟩ := grows_namedOfAll 0 children
  obtain ⟨tree, hwhole, hgrows⟩ := h.exists_cons ⟨[], named, label⟩ rfl fun _ => address_ne_nil_of_mem
  rw [ParseTree.kept_eq]
  have hplaces := hgrows.places []
  simp only [NamedTree.placesOfAll, List.append_nil] at hplaces
  exact ⟨_, tree, rfl, hwhole, hgrows.node, hplaces⟩

end Dependents
