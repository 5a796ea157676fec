import Dependents.Proofs.PreorderImage
import Mathlib.Data.List.Pairwise

/-! Spans that nest. Where the spans of a parse tree nest, document order is the order of start offsets,
siblings share no offset, and the way down to an offset passes every node that contains it. -/
namespace Dependents

namespace ParseNode

mutual

/-- The spans below a node nest: those of its children lie inside its own. -/
def Nested : ParseNode → Prop
  | .node _ label children => NestedBetween label.start label.stop children

/-- Consecutive siblings lie between two offsets, each after the one before it. -/
def NestedBetween (low high : Nat) : List ParseNode → Prop
  | [] => low ≤ high
  | n :: ns => low ≤ n.label.start ∧ n.Nested ∧ NestedBetween n.label.stop high ns

end

mutual

def decidableNested : (n : ParseNode) → Decidable n.Nested
  | .node _ label children => decidableNestedBetween label.start label.stop children

def decidableNestedBetween (low high : Nat) :
    (ns : List ParseNode) → Decidable (NestedBetween low high ns)
  | [] => inferInstanceAs (Decidable (low ≤ high))
  | n :: ns =>
    have := decidableNested n
    have := decidableNestedBetween n.label.stop high ns
    inferInstanceAs (Decidable (low ≤ n.label.start ∧ n.Nested ∧ NestedBetween n.label.stop high ns))

end

instance (n : ParseNode) : Decidable n.Nested := decidableNested n

end ParseNode

namespace NamedTree

mutual

/-- The spans below a node nest, as in a parse tree. -/
def Nested : NamedTree → Prop
  | .node label children => NestedBetween label.start label.stop children

/-- Consecutive siblings lie between two offsets, each after the one before it. -/
def NestedBetween (low high : Nat) : List NamedTree → Prop
  | [] => low ≤ high
  | n :: ns => low ≤ n.label.start ∧ n.Nested ∧ NestedBetween n.label.stop high ns

end

variable {low mid high : Nat} {n c : NamedTree} {ns os : List NamedTree}

theorem Nested.between (h : n.Nested) : NestedBetween n.label.start n.label.stop n.children := by
  cases n with
  | node label children => exact h

mutual

theorem Nested.le : (n : NamedTree) → n.Nested → n.label.start ≤ n.label.stop
  | .node _ children, h => NestedBetween.le children h

theorem NestedBetween.le : (ns : List NamedTree) → ∀ {low high}, NestedBetween low high ns → low ≤ high
  | [], _, _, h => h
  | n :: ns, _, _, h => by
    obtain ⟨hlow, hn, hns⟩ := h
    have := Nested.le n hn
    have := NestedBetween.le ns hns
    omega

end

theorem NestedBetween.lower (h : NestedBetween mid high ns) (hlow : low ≤ mid) :
    NestedBetween low high ns := by
  cases ns with
  | nil => exact Nat.le_trans hlow h
  | cons n ns => exact ⟨Nat.le_trans hlow h.1, h.2⟩

theorem NestedBetween.append (h : NestedBetween low mid ns) (h' : NestedBetween mid high os) :
    NestedBetween low high (ns ++ os) := by
  induction ns generalizing low with
  | nil => exact h'.lower h
  | cons n ns ih => exact ⟨h.1, h.2.1, ih h.2.2⟩

theorem NestedBetween.mem (h : NestedBetween low high ns) (hc : c ∈ ns) :
    c.Nested ∧ low ≤ c.label.start ∧ c.label.stop ≤ high := by
  induction ns generalizing low with
  | nil => cases hc
  | cons n ns ih =>
    obtain ⟨hlow, hn, hns⟩ := h
    rcases List.mem_cons.1 hc with rfl | hc
    · exact ⟨hn, hlow, NestedBetween.le ns hns⟩
    · obtain ⟨hnest, hle, hhigh⟩ := ih hns hc
      have := Nested.le n hn
      exact ⟨hnest, by omega, hhigh⟩

theorem NestedBetween.apart (h : NestedBetween low high ns) :
    ns.Pairwise fun a b => a.label.stop ≤ b.label.start := by
  induction ns generalizing low with
  | nil => exact List.Pairwise.nil
  | cons n ns ih =>
    obtain ⟨_, _, hns⟩ := h
    exact List.pairwise_cons.2 ⟨fun b hb => (hns.mem hb).2.1, ih hns⟩

mutual

/-- In pre-order no node starts before an earlier one. -/
theorem places_ordered (above : List NamedTree) : (n : NamedTree) → n.Nested →
    (n.places above).Pairwise (fun a b => a.1.label.start ≤ b.1.label.start) ∧
      ∀ place ∈ n.places above,
        n.label.start ≤ place.1.label.start ∧ place.1.label.start ≤ n.label.stop
  | .node label children, h => by
    have hle := Nested.le _ h
    obtain ⟨hsorted, hin⟩ := placesOfAll_ordered (.node label children :: above) children h
    refine ⟨List.pairwise_cons.2 ⟨fun place hp => (hin place hp).1, hsorted⟩, fun place hp => ?_⟩
    rcases List.mem_cons.1 hp with rfl | hp
    · exact ⟨Nat.le_refl _, hle⟩
    · exact hin place hp

theorem placesOfAll_ordered (above : List NamedTree) : (ns : List NamedTree) → ∀ {low high},
    NestedBetween low high ns →
    (placesOfAll above ns).Pairwise (fun a b => a.1.label.start ≤ b.1.label.start) ∧
      ∀ place ∈ placesOfAll above ns, low ≤ place.1.label.start ∧ place.1.label.start ≤ high
  | [], _, _, _ => ⟨List.Pairwise.nil, fun _ hp => by cases hp⟩
  | n :: ns, low, high, h => by
    obtain ⟨hlow, hn, hns⟩ := h
    have hle := Nested.le n hn
    have hhigh := NestedBetween.le ns hns
    obtain ⟨hfirst, hfirstin⟩ := places_ordered above n hn
    obtain ⟨hrest, hrestin⟩ := placesOfAll_ordered above ns hns
    refine ⟨List.pairwise_append.2 ⟨hfirst, hrest, fun a ha b hb => ?_⟩, fun place hp => ?_⟩
    · have := hfirstin a ha
      have := hrestin b hb
      omega
    · rcases List.mem_append.1 hp with hp | hp
      · have := hfirstin place hp
        omega
      · have := hrestin place hp
        omega

end

end NamedTree

namespace ParseNode

mutual

/-- Spans still nest when the nodes without names are left out. -/
theorem Nested.named : (p : ParseNode) → p.Nested →
    NamedTree.NestedBetween p.label.start p.label.stop p.named
  | .node true _ children, h =>
    ⟨Nat.le_refl _, NestedBetween.namedOfAll children h, Nat.le_refl _⟩
  | .node false _ children, h => NestedBetween.namedOfAll children h

theorem NestedBetween.namedOfAll : (ps : List ParseNode) → ∀ {low high},
    NestedBetween low high ps → NamedTree.NestedBetween low high (Dependents.namedOfAll ps)
  | [], _, _, h => h
  | p :: ps, _, _, h => by
    obtain ⟨hlow, hp, hps⟩ := h
    exact ((Nested.named p hp).lower hlow).append (NestedBetween.namedOfAll ps hps)

end

end ParseNode

theorem ParseTree.nested_named {parsed : ParseTree} (h : parsed.root.Nested) : parsed.named.Nested := by
  obtain ⟨⟨named, label, children⟩, hasError⟩ := parsed
  exact ParseNode.NestedBetween.namedOfAll children h

namespace SyntaxTree

variable {t : SyntaxTree} {ks : List PlacedNode} {i j up child offset : NodeId} {p : NamedTree}
  {above : List NamedTree}

/-- What the parser said of the node with a number. -/
def label? (t : SyntaxTree) (i : NodeId) : Option NodeLabel :=
  (t.node? i).map (·.label)

/-- Whether the span of the node with a number contains an offset. -/
def ContainsAt (t : SyntaxTree) (offset : Nat) (i : NodeId) : Prop :=
  ∃ label, t.label? i = some label ∧ label.start ≤ offset ∧ offset < label.stop

/-- The spans of numbered nodes nest: children lie inside their parent, one after another. -/
structure SpansNest (t : SyntaxTree) : Prop where
  inside : ∀ up, ∀ child ∈ t.children up, ∀ l m, t.label? up = some l → t.label? child = some m →
    l.start ≤ m.start ∧ m.stop ≤ l.stop
  apart : ∀ up, (t.children up).Pairwise fun i j =>
    ∀ l, t.label? i = some l → ∀ m, t.label? j = some m → l.stop ≤ m.start

theorem Stands.label? (h : t.Stands i p above) : t.label? i = some p.label := by
  obtain ⟨parent, hp⟩ := h.node?
  simp [SyntaxTree.label?, hp]

theorem Stands.labels_children (h : t.Stands i p above) :
    (t.children i).filterMap t.label? = p.children.map NamedTree.label := by
  rw [← List.filterMap_eq_map]
  exact filterMap_of_related h.children fun _ _ hc => hc.label?

/-- Going down to a child by number is going down to a child in the named tree. -/
theorem Stands.child_of_mem (h : t.Stands i p above) (hj : j ∈ t.children i) :
    ∃ c ∈ p.children, t.Stands j c (p :: above) := by
  have hrelated := h.children
  generalize t.children i = ids, p.children = nodes at hj hrelated
  induction hrelated with
  | nil => cases hj
  | cons hhead _ ih =>
    rcases List.mem_cons.1 hj with rfl | hj
    · exact ⟨_, List.mem_cons_self, hhead⟩
    · obtain ⟨c, hc, hs⟩ := ih hj
      exact ⟨c, List.mem_cons_of_mem _ hc, hs⟩

section OfParseTree

variable {parsed : ParseTree} {source : String}

/-- Each number stands for a node whose spans nest. -/
theorem stands_nested (h : parsed.root.Nested) (hi : (ofParseTree parsed source).Below root i) :
    ∃ q above, (ofParseTree parsed source).Stands i q above ∧ q.Nested := by
  induction hi with
  | refl => exact ⟨_, _, stands_root parsed source, parsed.nested_named h⟩
  | tail _ hj ih =>
    obtain ⟨p, above, hp, hnest⟩ := ih
    obtain ⟨c, hc, hs⟩ := hp.child_of_mem hj
    exact ⟨c, _, hs, (hnest.between.mem hc).1⟩

theorem spansNest_ofParseTree (h : parsed.root.Nested) (source : String) :
    (ofParseTree parsed source).SpansNest := by
  have hstands : ∀ up child, child ∈ (ofParseTree parsed source).children up →
      ∃ q above, (ofParseTree parsed source).Stands up q above ∧ q.Nested := by
    intro up child hchild
    exact stands_nested h (below_root parsed source (lt_size_of_mem_children hchild))
  constructor
  · intro up child hchild l m hl hm
    obtain ⟨p, above, hp, hnest⟩ := hstands up child hchild
    obtain ⟨c, hc, hs⟩ := hp.child_of_mem hchild
    cases hl.symm.trans hp.label?
    cases hm.symm.trans hs.label?
    exact (hnest.between.mem hc).2
  · intro up
    cases hchildren : (ofParseTree parsed source).children up with
    | nil => exact List.Pairwise.nil
    | cons child rest =>
      obtain ⟨p, above, hp, hnest⟩ := hstands up child (by simp [hchildren])
      have hspans : ((child :: rest).filterMap (ofParseTree parsed source).label?).Pairwise
          fun l m => l.stop ≤ m.start := by
        rw [← hchildren, hp.labels_children, List.pairwise_map]
        exact hnest.between.apart
      exact List.pairwise_filterMap.1 hspans

end OfParseTree

/-! Going down to an offset. -/

theorem any_contains_iff : ((t.node? i).any (·.contains offset)) = true ↔ t.ContainsAt offset i := by
  unfold ContainsAt label?
  cases t.node? i <;> simp [SyntaxNode.contains]

theorem SpansNest.containsAt_parent (h : t.SpansNest) (hchild : child ∈ t.children up)
    (hin : t.ContainsAt offset child) : t.ContainsAt offset up := by
  obtain ⟨m, hm, hstart, hstop⟩ := hin
  cases hl : t.label? up with
  | none =>
    have hnone : t.node? up = none := by simpa [label?] using hl
    simp [SyntaxTree.children, hnone] at hchild
  | some l =>
    have := h.inside up child hchild l m hl hm
    exact ⟨l, hl, by omega, by omega⟩

/-- Siblings share no offset. -/
theorem SpansNest.eq_of_containsAt (h : t.SpansNest) (hi : i ∈ t.children up) (hj : j ∈ t.children up)
    (hini : t.ContainsAt offset i) (hinj : t.ContainsAt offset j) : i = j := by
  have hnot : (t.children up).Pairwise fun i j => ¬ (t.ContainsAt offset i ∧ t.ContainsAt offset j) := by
    refine (h.apart up).imp fun hapart ⟨hi, hj⟩ => ?_
    obtain ⟨l, hl, _, hstop⟩ := hi
    obtain ⟨m, hm, hstart, _⟩ := hj
    have := hapart l hl m hm
    omega
  have : Std.Symm fun i j => ¬ (t.ContainsAt offset i ∧ t.ContainsAt offset j) :=
    ⟨fun _ _ hnot hboth => hnot hboth.symm⟩
  by_contra hne
  exact hnot.forall hi hj hne ⟨hini, hinj⟩

theorem SpansNest.descend_child (h : t.SpansNest) (hnum : t.Numbers ks) (hchild : child ∈ t.children up)
    (hin : t.ContainsAt offset child) : t.descend offset up = t.descend offset child := by
  have hfind : ((t.children up).find? fun child => (t.node? child).any (·.contains offset)) =
      some child := by
    cases hfound : (t.children up).find? fun child => (t.node? child).any (·.contains offset) with
    | none => exact absurd (any_contains_iff.2 hin) (List.find?_eq_none.1 hfound child hchild)
    | some first =>
      have hfirst : t.ContainsAt offset first := by
        have hany := List.find?_some hfound
        exact any_contains_iff.1 hany
      rw [h.eq_of_containsAt (List.mem_of_find?_eq_some hfound) hchild hfirst hin]
  have hparent := (hnum.mem_children up child).1 hchild
  rw [descend, hfind]
  simp [hnum.parent_lt hparent, lt_size_of_parent? hparent]

/-- The way down to an offset passes every node that contains it. -/
theorem SpansNest.descend_eq (h : t.SpansNest) (hnum : t.Numbers ks) (hbelow : t.Below i j)
    (hin : t.ContainsAt offset j) : t.descend offset i = t.descend offset j := by
  induction hbelow with
  | refl => rfl
  | tail _ hchild ih =>
    rw [ih (h.containsAt_parent hchild hin)]
    exact h.descend_child hnum hchild hin

theorem descend_of_childless (h : t.children i = []) (offset : Nat) : t.descend offset i = i := by
  rw [descend, h]
  rfl

end SyntaxTree

end Dependents
