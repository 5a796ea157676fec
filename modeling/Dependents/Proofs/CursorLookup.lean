import Dependents.Proofs.Nesting
import Dependents.Query

/-! What a cursor finds. Where spans nest, the nodes that contain an offset are the node found there and
its ancestors, so the first function on the way up is the innermost one around the cursor. -/
namespace Dependents.SyntaxTree

variable {t : SyntaxTree} {ks : List PlacedNode} {i j f g : NodeId} {offset : Nat}

/-- Whether a node is around an offset. The root is around every offset. -/
def Covers (t : SyntaxTree) (offset : Nat) (i : NodeId) : Prop :=
  i = root ∨ t.ContainsAt offset i

instance (t : SyntaxTree) (offset : Nat) (i : NodeId) : Decidable (t.ContainsAt offset i) :=
  decidable_of_iff _ any_contains_iff

instance (t : SyntaxTree) (offset : Nat) (i : NodeId) : Decidable (t.Covers offset i) :=
  inferInstanceAs (Decidable (i = root ∨ t.ContainsAt offset i))

/-- Of the functions around an offset, the one that all others are around. -/
structure Innermost (t : SyntaxTree) (offset : Nat) (f : NodeId) : Prop where
  function : (t.kind f).isFunctionLike = true
  covers : t.Covers offset f
  inside : ∀ g, (t.kind g).isFunctionLike = true → t.Covers offset g → g ∈ t.ancestors f

theorem lt_size_of_isFunctionLike (h : (t.kind f).isFunctionLike = true) : f < t.size := by
  cases hnode : t.node? f with
  | none => simp [SyntaxTree.kind, hnode, NodeKind.isFunctionLike] at h
  | some node => exact lt_size_of_node? hnode

/-! Going down ends below the start, at a node that contains the offset unless it is the start. -/

theorem descend_spec (t : SyntaxTree) (offset : Nat) (i : NodeId) :
    t.Below i (t.descend offset i) ∧
      (t.descend offset i = i ∨ t.ContainsAt offset (t.descend offset i)) := by
  fun_induction SyntaxTree.descend t offset i with
  | case1 i child hfind _ ih =>
    obtain ⟨hbelow, hend⟩ := ih
    constructor
    · exact .head (List.mem_of_find?_eq_some hfind) hbelow
    · right
      rcases hend with hend | hend
      · rw [hend]
        have hany := List.find?_some hfind
        exact any_contains_iff.1 hany
      · exact hend
  | case2 i child hfind _ => exact ⟨.refl, .inl rfl⟩
  | case3 i hfind => exact ⟨.refl, .inl rfl⟩

theorem SpansNest.containsAt_above (h : t.SpansNest) (hbelow : t.Below i j)
    (hin : t.ContainsAt offset j) : t.ContainsAt offset i := by
  induction hbelow with
  | refl => exact hin
  | tail _ hchild ih => exact ih (h.containsAt_parent hchild hin)

/-- The nodes other than the root that contain an offset are the node found there and its ancestors. -/
theorem SpansNest.containsAt_iff (h : t.SpansNest) (hnum : t.Numbers ks) (hi : t.Below root i)
    (hroot : i ≠ root) : t.ContainsAt offset i ↔ i ∈ t.ancestors (t.nodeAt offset) := by
  rw [hnum.mem_ancestors_iff]
  constructor
  · intro hin
    rw [nodeAt, h.descend_eq hnum hi hin]
    exact (descend_spec t offset i).1
  · intro hbelow
    rcases (descend_spec t offset root).2 with hend | hend
    · -- Nothing but the root is around a cursor that does not leave the root.
      rw [nodeAt, hend] at hbelow
      have := hnum.le_of_below hbelow
      exact absurd (Nat.le_zero.1 this) hroot
    · exact h.containsAt_above hbelow hend

theorem SpansNest.covers_iff (h : t.SpansNest) (hnum : t.Numbers ks) (hi : t.Below root i) :
    t.Covers offset i ↔ i ∈ t.ancestors (t.nodeAt offset) := by
  by_cases hroot : i = root
  · subst hroot
    constructor
    · intro _
      exact hnum.mem_ancestors_iff.2 (descend_spec t offset root).1
    · intro _
      exact .inl rfl
  · rw [← h.containsAt_iff hnum hi hroot]
    constructor
    · intro hcovers
      exact hcovers.resolve_left hroot
    · exact .inr

/-- On the way up from a node, what comes after another ancestor is an ancestor of that one. -/
theorem Numbers.mem_ancestors_of_find? (hnum : t.Numbers ks) {p : NodeId → Bool}
    (hfind : (t.ancestors i).find? p = some f) (hg : g ∈ t.ancestors i) (hp : p g = true)
    (hsize : g < t.size) : g ∈ t.ancestors f := by
  have hf := List.mem_of_find?_eq_some hfind
  have hle : g ≤ f := by
    obtain ⟨_, before, after, happ, hbefore⟩ := List.find?_eq_some_iff_append.1 hfind
    have hdecreasing := hnum.ancestors_decreasing i
    rw [happ] at hg hdecreasing
    rcases List.mem_append.1 hg with hg | hg
    · exact absurd hp (by simpa using hbefore g hg)
    · rcases List.mem_cons.1 hg with rfl | hg
      · exact Nat.le_refl g
      · have hafter := (List.pairwise_append.1 hdecreasing).2.1
        exact Nat.le_of_lt ((List.pairwise_cons.1 hafter).1 g hg)
  rw [hnum.mem_ancestors_iff] at hf hg ⊢
  exact hnum.below_of_between hg hsize hle (hnum.le_of_below hf)

/-- The nearest function above what a cursor finds is the innermost one around the cursor. -/
theorem SpansNest.innermost_of_enclosing (h : t.SpansNest) (hnum : t.Numbers ks)
    (hall : ∀ i < t.size, t.Below root i)
    (hf : t.enclosingFunctionId? (t.nodeAt offset) = some f) : t.Innermost offset f := by
  have hfunction : (t.kind f).isFunctionLike = true := by
    have hfirst := List.find?_some (p := fun up => (t.kind up).isFunctionLike) hf
    exact hfirst
  refine ⟨hfunction, ?_, ?_⟩
  · have hbelow := hall f (lt_size_of_isFunctionLike hfunction)
    exact (h.covers_iff hnum hbelow).2 (List.mem_of_find?_eq_some hf)
  · intro g hg hcovers
    have hsize := lt_size_of_isFunctionLike hg
    have hmem := (h.covers_iff hnum (hall g hsize)).1 hcovers
    exact hnum.mem_ancestors_of_find? hf hmem hg hsize

theorem SpansNest.not_covers_of_enclosing (h : t.SpansNest) (hnum : t.Numbers ks)
    (hall : ∀ i < t.size, t.Below root i)
    (hnone : t.enclosingFunctionId? (t.nodeAt offset) = none)
    (hg : (t.kind g).isFunctionLike = true) : ¬ t.Covers offset g := by
  intro hcovers
  have hmem := (h.covers_iff hnum (hall g (lt_size_of_isFunctionLike hg))).1 hcovers
  exact List.find?_eq_none.1 hnone g hmem hg

theorem atOffset_of_none (hnone : t.enclosingFunctionId? (t.nodeAt offset) = none)
    (index : DependencyIndex) (file : Path) :
    index.atOffset t file offset = ⟨none, index.edgesOf file⟩ := by
  simp only [DependencyIndex.atOffset, enclosingFunction?, hnone, Option.map_none]

theorem atOffset_of_some (hf : t.enclosingFunctionId? (t.nodeAt offset) = some f)
    (index : DependencyIndex) (file : Path) :
    index.atOffset t file offset = ⟨some ⟨t.functionName f, t.startPosition f⟩,
      (index.edgesOf file).filter fun e => e.targetFunction = t.functionName f⟩ := by
  simp only [DependencyIndex.atOffset, enclosingFunction?, hf, Option.map_some,
    DependencyIndex.edgesOn, beq_eq_decide]

/-- The nodes other than the root that contain an offset are the node found there and its ancestors. So
a cursor is told a function exactly when one is around it, and then the innermost one with the edges on
its name; at module scope it is told all edges of the file. -/
theorem atOffset_innermost (parsed : ParseTree) (source : String) (h : parsed.root.Nested)
    (index : DependencyIndex) (file : Path) (offset : Nat) :
    let t := ofParseTree parsed source
    let answer := index.atOffset t file offset
    t.nodeAt offset < t.size ∧
    (∀ i < t.size, i ≠ root → (t.ContainsAt offset i ↔ i ∈ t.ancestors (t.nodeAt offset))) ∧
    (answer.function.isSome ↔ ∃ f, (t.kind f).isFunctionLike = true ∧ t.Covers offset f) ∧
    ((∃ f, t.Innermost offset f ∧
        answer = ⟨some ⟨t.functionName f, t.startPosition f⟩,
          (index.edgesOf file).filter fun e => e.targetFunction = t.functionName f⟩) ∨
      (∀ f, (t.kind f).isFunctionLike = true → ¬ t.Covers offset f) ∧
        answer = ⟨none, index.edgesOf file⟩) := by
  intro t answer
  have hnum := numbers_ofParseTree parsed source
  have hnest := spansNest_ofParseTree h source
  have hall : ∀ i < t.size, t.Below root i := fun i hi => below_root parsed source hi
  have hsize : root < t.size := by
    obtain ⟨_, hroot⟩ := (stands_root parsed source).node?
    exact lt_size_of_node? hroot
  refine ⟨hnum.lt_size_of_below (descend_spec t offset root).1 hsize, ?_, ?_⟩
  · intro i hi hne
    exact hnest.containsAt_iff hnum (hall i hi) hne
  · cases hf : t.enclosingFunctionId? (t.nodeAt offset) with
    | none =>
      have hnone : ∀ f, (t.kind f).isFunctionLike = true → ¬ t.Covers offset f :=
        fun f => hnest.not_covers_of_enclosing hnum hall hf
      have hanswer : answer = ⟨none, index.edgesOf file⟩ := atOffset_of_none hf index file
      refine ⟨iff_of_false ?_ ?_, .inr ⟨hnone, hanswer⟩⟩
      · simp [hanswer]
      · rintro ⟨f, hfunction, hcovers⟩
        exact hnone f hfunction hcovers
    | some f =>
      have hinner := hnest.innermost_of_enclosing hnum hall hf
      have hanswer := atOffset_of_some hf index file
      refine ⟨iff_of_true ?_ ⟨f, hinner.function, hinner.covers⟩, .inl ⟨f, hinner, hanswer⟩⟩
      simp [answer, hanswer]

/-- A function inside another one. A node without extent stands right after the inner one. -/
def innerText : String := "function f(){()=>{}}"

/-- The parse tree of that text. -/
def innerTree : ParseTree where
  root := .node true ⟨"program", none, 0, 20⟩ [
    .node true ⟨"function_declaration", none, 0, 20⟩ [
      .node false ⟨"function", none, 0, 8⟩ [],
      .node true ⟨"identifier", some "name", 9, 10⟩ [],
      .node true ⟨"formal_parameters", some "parameters", 10, 12⟩ [],
      .node true ⟨"statement_block", some "body", 12, 20⟩ [
        .node false ⟨"\x7b", none, 12, 13⟩ [],
        .node true ⟨"arrow_function", none, 13, 19⟩ [
          .node true ⟨"formal_parameters", some "parameters", 13, 15⟩ [],
          .node true ⟨"statement_block", some "body", 17, 19⟩ []],
        .node true ⟨"identifier", none, 19, 19⟩ [],
        .node false ⟨"\x7d", none, 19, 20⟩ []]]]
  hasError := true

/-- A cursor right behind the inner function, where that node is, stands in the outer one. -/
theorem atOffset_innermost_behind :
    let t := ofParseTree innerTree innerText
    let called : Edge := ⟨⟨"/m.ts"⟩, ⟨1, 0⟩, "f", none⟩
    let index : DependencyIndex := ⟨[⟨⟨"/f.ts"⟩, [called, ⟨⟨"/m.ts"⟩, ⟨2, 0⟩, "g", none⟩]⟩]⟩
    innerTree.root.Nested ∧ (t.kind 5).isFunctionLike = true ∧ ¬ t.ContainsAt 19 5 ∧
      index.atOffset t ⟨"/f.ts"⟩ 19 = ⟨some ⟨"f", ⟨0, 0⟩⟩, [called]⟩ := by
  intro t called index
  have hnested : innerTree.root.Nested := by decide
  have hfunctions : ∀ f < t.size, (t.kind f).isFunctionLike = true → t.Covers 19 f → f = 1 := by
    decide +kernel
  refine ⟨hnested, by decide +kernel, by decide +kernel, ?_⟩
  obtain ⟨_, _, _, ⟨f, hinner, hanswer⟩ | ⟨hnone, _⟩⟩ :=
    atOffset_innermost innerTree innerText hnested index ⟨"/f.ts"⟩ 19
  · obtain rfl := hfunctions f (lt_size_of_isFunctionLike hinner.function) hinner.function hinner.covers
    rw [hanswer]
    decide +kernel
  · exact absurd (show t.Covers 19 1 by decide +kernel) (hnone 1 (by decide +kernel))

end Dependents.SyntaxTree
