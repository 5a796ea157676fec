import Dependents.Proofs.NamedReading
import Mathlib.Data.List.Forall2
import Mathlib.Data.Option.Basic

/-! The numbered nodes of a syntax tree stand for the nodes of its named tree: reading by numbers and
reading the tree itself give the same imports, calls and callers. -/
namespace Dependents

variable {t : SyntaxTree} {id pid cid : NodeId} {n p c : NamedTree} {ns above : List NamedTree}
  {parent : Option NodeId}

namespace SyntaxTree

/-- The nodes from `id` on start with those of a tree. -/
def HoldsAt (t : SyntaxTree) (parent : Option NodeId) (id : NodeId) (n : NamedTree) : Prop :=
  n.layout parent id <+: t.nodes.toList.drop id

/-- The nodes from `id` on start with those of consecutive siblings. -/
def HoldsAllAt (t : SyntaxTree) (pid id : NodeId) (ns : List NamedTree) : Prop :=
  layoutAll pid id ns <+: t.nodes.toList.drop id

theorem HoldsAt.node? (h : t.HoldsAt parent id n) :
    t.node? id = some ⟨n.label, parent, idsFrom (id + 1) n.children⟩ := by
  cases n with
  | node label children =>
    obtain ⟨rest, hr⟩ := h
    have hget := congrArg List.head? hr
    simp only [NamedTree.layout, List.cons_append, List.head?_cons, List.head?_drop] at hget
    simpa [SyntaxTree.node?, NamedTree.label, NamedTree.children] using hget.symm

theorem HoldsAt.below (h : t.HoldsAt parent id n) : t.HoldsAllAt id (id + 1) n.children := by
  cases n with
  | node label children =>
    obtain ⟨rest, hr⟩ := h
    refine ⟨rest, ?_⟩
    have htail := congrArg List.tail hr
    simpa [NamedTree.layout, NamedTree.children, Nat.add_comm] using htail

theorem HoldsAllAt.head (h : t.HoldsAllAt pid id (n :: ns)) : t.HoldsAt (some pid) id n :=
  (List.prefix_append _ _).trans h

theorem HoldsAllAt.tail (h : t.HoldsAllAt pid id (n :: ns)) : t.HoldsAllAt pid (id + n.size) ns := by
  obtain ⟨rest, hr⟩ := h
  refine ⟨rest, ?_⟩
  have hdrop := congrArg (List.drop n.size) hr
  rw [layoutAll, List.append_assoc, ← length_layout (some pid) id n, List.drop_left,
    List.drop_drop, length_layout] at hdrop
  exact hdrop

/-- Number `id` stands for a node of the named tree, below those of `above`, the nearest first. -/
inductive Stands (t : SyntaxTree) : NodeId → NamedTree → List NamedTree → Prop
  | root {n : NamedTree} : t.HoldsAt none 0 n → Stands t 0 n []
  | child {id cid : NodeId} {n c : NamedTree} {above : List NamedTree} :
    Stands t id n above → id < cid → t.HoldsAt (some id) cid c → Stands t cid c (n :: above)

theorem stands_root (parsed : ParseTree) (source : String) :
    (ofParseTree parsed source).Stands 0 parsed.named [] := by
  apply Stands.root
  rw [HoldsAt, nodes_ofParseTree]
  exact List.prefix_refl _

theorem Stands.holdsAt (h : t.Stands id n above) : ∃ parent, t.HoldsAt parent id n := by
  cases h with
  | root h => exact ⟨none, h⟩
  | child _ _ h => exact ⟨_, h⟩

theorem Stands.node? (h : t.Stands id n above) :
    ∃ parent, t.node? id = some ⟨n.label, parent, idsFrom (id + 1) n.children⟩ := by
  obtain ⟨parent, hp⟩ := h.holdsAt
  exact ⟨parent, hp.node?⟩

theorem Stands.kind (h : t.Stands id n above) : t.kind id = n.kind := by
  obtain ⟨parent, hp⟩ := h.node?
  simp [SyntaxTree.kind, hp, SyntaxNode.kind, NamedTree.kind]

theorem Stands.grammarKind (h : t.Stands id n above) : t.grammarKind id = n.label.kind := by
  obtain ⟨parent, hp⟩ := h.node?
  simp [SyntaxTree.grammarKind, hp]

theorem Stands.field (h : t.Stands id n above) (field : String) :
    ((t.node? id).any fun node => node.label.field == some field) =
      (n.label.field == some field) := by
  obtain ⟨parent, hp⟩ := h.node?
  simp [hp]

theorem Stands.text (h : t.Stands id n above) : t.text id = n.text t.source := by
  obtain ⟨parent, hp⟩ := h.node?
  simp [SyntaxTree.text, hp, NamedTree.text]

theorem Stands.startPosition (h : t.Stands id n above) :
    t.startPosition id = Text.positionOf t.source n.label.start := by
  obtain ⟨parent, hp⟩ := h.node?
  simp [SyntaxTree.startPosition, hp, positionOf]

theorem HoldsAllAt.siblings (hs : t.Stands pid p above) (hid : pid < id)
    (h : t.HoldsAllAt pid id ns) :
    List.Forall₂ (fun cid c => t.Stands cid c (p :: above)) (idsFrom id ns) ns := by
  induction ns generalizing id with
  | nil => exact .nil
  | cons n ns ih => exact .cons (.child hs hid h.head) (ih (Nat.lt_add_right n.size hid) h.tail)

theorem Stands.children (h : t.Stands id n above) :
    List.Forall₂ (fun cid c => t.Stands cid c (n :: above)) (t.children id) n.children := by
  obtain ⟨parent, hp⟩ := h.holdsAt
  rw [SyntaxTree.children, hp.node?]
  exact hp.below.siblings h (Nat.lt_succ_self id)

end SyntaxTree

/-- Searching related lists with tests that agree on related members finds related members. -/
theorem find?_of_related {α β : Type} {R : α → β → Prop} {p : α → Bool} {q : β → Bool}
    {as : List α} {bs : List β} (h : List.Forall₂ R as bs) (hpq : ∀ a b, R a b → p a = q b) :
    (as.find? p = none ∧ bs.find? q = none) ∨
      ∃ a b, as.find? p = some a ∧ bs.find? q = some b ∧ R a b := by
  induction h with
  | nil => exact Or.inl ⟨rfl, rfl⟩
  | @cons a b _ _ hab _ ih =>
    rw [List.find?_cons, List.find?_cons, hpq a b hab]
    cases q b with
    | true => exact Or.inr ⟨a, b, rfl, rfl, hab⟩
    | false => exact ih

theorem filterMap_of_related {α β γ : Type} {R : α → β → Prop} {f : α → Option γ}
    {g : β → Option γ} {as : List α} {bs : List β} (h : List.Forall₂ R as bs)
    (hfg : ∀ a b, R a b → f a = g b) : as.filterMap f = bs.filterMap g := by
  induction h with
  | nil => rfl
  | cons hab _ ih => rw [List.filterMap_cons, List.filterMap_cons, hfg _ _ hab, ih]

namespace SyntaxTree

theorem Stands.childByField? (h : t.Stands id n above) (field : String) :
    (t.childByField? id field = none ∧ n.childByField? field = none) ∨
      ∃ cid c, t.childByField? id field = some cid ∧ n.childByField? field = some c ∧
        t.Stands cid c (n :: above) :=
  find?_of_related h.children fun _ _ hc => hc.field field

theorem Stands.childrenOfKind (h : t.Stands id n above) (kind : NodeKind) :
    List.Forall₂ (fun cid c => ∃ above, t.Stands cid c above) (t.childrenOfKind id kind)
      (n.childrenOfKind kind) := by
  refine List.Forall₂.imp (fun cid c hc => ⟨n :: above, hc⟩) (List.rel_filter ?_ h.children)
  intro cid c hc
  simp only [hc.kind]

theorem Stands.localName? (h : t.Stands id n above) :
    t.localName? id = n.localName? t.source := by
  have hfilter : ∀ s : String, (if s.isEmpty = true then none else some s) =
      (some s).filter fun name => !name.isEmpty := by
    intro s
    cases hs : s.isEmpty <;> simp [Option.filter, hs]
  unfold SyntaxTree.localName? NamedTree.localName?
  rcases h.childByField? "alias" with ⟨ha, hb⟩ | ⟨cid, c, ha, hb, hc⟩
  · rcases h.childByField? "name" with ⟨hd, he⟩ | ⟨cid, c, hd, he, hc⟩
    · simp [ha, hb, hd, he]
    · simp only [ha, hb, hd, he, Option.none_or, Option.bind_some, Option.map_some, hc.text, hfilter]
  · simp only [ha, hb, Option.some_or, Option.bind_some, Option.map_some, hc.text, hfilter]

theorem Stands.localNames (h : t.Stands id n above) :
    t.localNames id = n.localNames t.source := by
  have hnamed := List.rel_flatMap (h.childrenOfKind .importClause)
    fun clause c ⟨_, hc⟩ => hc.childrenOfKind .namedImports
  have hspecifiers := List.rel_flatMap hnamed
    fun named c ⟨_, hc⟩ => hc.childrenOfKind .importSpecifier
  exact filterMap_of_related hspecifiers fun _ _ ⟨_, hc⟩ => hc.localName?

theorem Stands.importDeclaration? (h : t.Stands id n above) :
    t.importDeclaration? id = n.importDeclaration? t.source := by
  unfold SyntaxTree.importDeclaration? NamedTree.importDeclaration?
  rw [h.localNames]
  rcases h.childByField? "source" with ⟨ha, hb⟩ | ⟨cid, c, ha, hb, hc⟩
  · simp [ha, hb]
  · rw [ha, hb]
    by_cases hk : c.kind = .stringLiteral
    · cases n.localNames t.source <;> simp [Option.filter, hc.kind, hk, hc.text]
    · cases n.localNames t.source <;> simp [Option.filter, hc.kind, hk]

/-- The declarations found by numbers are those right below the root of the named tree. -/
theorem Stands.imports (h : t.Stands SyntaxTree.root n above) : t.imports = n.imports t.source :=
  filterMap_of_related (h.childrenOfKind .importStatement) fun _ _ ⟨_, hc⟩ => hc.importDeclaration?

theorem Stands.callee? (h : t.Stands id n above) : t.callee? id = n.callee? t.source := by
  unfold SyntaxTree.callee? NamedTree.callee?
  rcases h.childByField? "function" with ⟨ha, hb⟩ | ⟨cid, c, ha, hb, hc⟩
  · simp [ha, hb]
  · rcases h.childByField? "arguments" with ⟨hd, he⟩ | ⟨did, d, hd, he, hdc⟩
    · simp [ha, hb, hd, he, hc.text]
    · simp [ha, hb, hd, he, hc.text, hdc.grammarKind]

theorem Stands.parent? (h : t.Stands id n above) :
    (t.parent? id = none ∧ above = []) ∨
      ∃ pid p rest, t.parent? id = some pid ∧ pid < id ∧ above = p :: rest ∧ t.Stands pid p rest := by
  cases h with
  | root h => exact Or.inl ⟨by simp [SyntaxTree.parent?, h.node?], rfl⟩
  | @child pid _ p _ rest hp hlt h =>
    exact Or.inr ⟨pid, p, rest, by simp [SyntaxTree.parent?, h.node?], hlt, rfl, hp⟩

theorem Stands.boundName? (h : t.Stands id n above) :
    (t.boundName? id).map t.text =
      ((above.head?.filter fun up => up.kind == .variableDeclarator).bind fun declarator =>
        (declarator.childByField? "name").filter fun name => name.kind == .identifier).map
          (·.text t.source) := by
  unfold SyntaxTree.boundName?
  rcases h.parent? with ⟨hp, rfl⟩ | ⟨pid, p, rest, hp, _, rfl, hs⟩
  · simp [hp]
  · rw [hp]
    by_cases hk : p.kind = .variableDeclarator
    · rcases hs.childByField? "name" with ⟨ha, hb⟩ | ⟨cid, c, ha, hb, hc⟩
      · simp [Option.filter, hs.kind, hk, ha, hb]
      · by_cases hi : c.kind = .identifier
        · simp [Option.filter, hs.kind, hk, ha, hb, hc.kind, hi, hc.text]
        · simp [Option.filter, hs.kind, hk, ha, hb, hc.kind, hi]
    · simp [Option.filter, hs.kind, hk]

theorem Stands.functionName (h : t.Stands id n above) :
    t.functionName id = n.functionName t.source above.head? := by
  have hown : (t.childByField? id "name").map t.text =
      (n.childByField? "name").map (·.text t.source) := by
    rcases h.childByField? "name" with ⟨ha, hb⟩ | ⟨cid, c, ha, hb, hc⟩
    · simp [ha, hb]
    · simp [ha, hb, hc.text]
  have hdef : t.functionName id = (((if carriesName (t.kind id) then t.childByField? id "name"
      else none).or (t.boundName? id)).map t.text).getD anonymous := by
    simp only [SyntaxTree.functionName]
    generalize Option.or _ _ = o
    cases o <;> rfl
  rw [hdef, Option.map_or, h.boundName?, h.kind]
  simp only [NamedTree.functionName, Option.map_or]
  cases carriesName n.kind with
  | true => rw [if_pos rfl, if_pos rfl, hown]
  | false => rfl

theorem Stands.enclosingFunction? (h : t.Stands id n above) :
    (t.enclosingFunction? id).map (·.name) = NamedTree.callerIn t.source (n :: above) := by
  simp only [SyntaxTree.enclosingFunction?, enclosingFunctionId?, Option.map_map]
  induction h with
  | root hn =>
    have hs : t.Stands 0 _ [] := .root hn
    rw [ancestors, List.find?_cons, NamedTree.callerIn, hs.kind]
    cases NodeKind.isFunctionLike _ with
    | true => simp [hs.functionName]
    | false => simp [SyntaxTree.parent?, hn.node?, NamedTree.callerIn]
  | @child pid cid p c above hp hlt hc ih =>
    have hs := Stands.child hp hlt hc
    rw [ancestors, List.find?_cons, NamedTree.callerIn, hs.kind]
    cases NodeKind.isFunctionLike _ with
    | true => simp [hs.functionName]
    | false => simpa [SyntaxTree.parent?, hc.node?, hlt] using ih

mutual

/-- Going through the numbers of a tree is going through its nodes in pre-order. -/
theorem filterMap_places {β : Type} {f : NodeId → Option β}
    {g : NamedTree × List NamedTree → Option β}
    (hfg : ∀ id n above, t.Stands id n above → f id = g (n, above)) :
    (n : NamedTree) → ∀ {id above}, t.Stands id n above →
      (List.range' id n.size).filterMap f = (n.places above).filterMap g
  | .node label children, id, above, h => by
    obtain ⟨parent, hp⟩ := h.holdsAt
    have hrest := filterMap_placesOfAll hfg children h (Nat.lt_succ_self id) hp.below
    rw [NamedTree.size, Nat.add_comm, List.range'_succ, NamedTree.places, List.filterMap_cons,
      List.filterMap_cons, hfg _ _ _ h, hrest]

theorem filterMap_placesOfAll {β : Type} {f : NodeId → Option β}
    {g : NamedTree × List NamedTree → Option β}
    (hfg : ∀ id n above, t.Stands id n above → f id = g (n, above)) :
    (ns : List NamedTree) → ∀ {pid p above id}, t.Stands pid p above → pid < id →
      t.HoldsAllAt pid id ns →
      (List.range' id (sizeOfAll ns)).filterMap f =
        (NamedTree.placesOfAll (p :: above) ns).filterMap g
  | [], _, _, _, _, _, _, _ => by
    simp [sizeOfAll, NamedTree.placesOfAll]
  | n :: ns, pid, p, above, id, hp, hlt, h => by
    have hn := filterMap_places hfg n (.child hp hlt h.head)
    have hns := filterMap_placesOfAll hfg ns hp (Nat.lt_add_right n.size hlt) h.tail
    rw [sizeOfAll, ← List.range'_append_1, List.filterMap_append, hn, hns,
      NamedTree.placesOfAll, List.filterMap_append]

end

/-- The calls found by numbers are those of the named tree's nodes, in pre-order. -/
theorem callSites_ofParseTree (parsed : ParseTree) (source : String) (wanted : String → Bool) :
    (ofParseTree parsed source).callSites wanted =
      (parsed.named.places []).filterMap fun place =>
        (place.1.call? source.toList place.2).filter fun site => wanted site.callee := by
  rw [callSites, ids, size_ofParseTree, List.range_eq_range']
  refine filterMap_places ?_ parsed.named (stands_root parsed source)
  intro id n above h
  unfold callSite? NamedTree.call?
  have hsource : (ofParseTree parsed source).source = source.toList := rfl
  rw [h.kind, h.callee?, h.startPosition, h.enclosingFunction?, hsource]
  by_cases hk : n.kind = .callExpression
  · rw [if_pos (by simpa using hk), if_pos hk]
    cases n.callee? source.toList with
    | none => rfl
    | some callee => cases hw : wanted callee <;> simp [Option.filter, hw]
  · simp [hk]

theorem imports_ofParseTree (parsed : ParseTree) (source : String) :
    (ofParseTree parsed source).imports = parsed.named.imports source.toList :=
  (stands_root parsed source).imports

end SyntaxTree

end Dependents
