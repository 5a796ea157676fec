import Dependents.Proofs.IndexContents
import Dependents.Proofs.Nesting
import Dependents.Proofs.Positions
import Dependents.Query

/-! The position of a call leads back to the call. A cursor put there finds the callee, and through it
the function that was recorded as the caller. -/
namespace Dependents

/-- The parse tree of a text: spans nest, and lie between characters of the text. -/
structure ParseTree.WellNested (parsed : ParseTree) (source : String) : Prop where
  nested : parsed.root.Nested
  boundaries : ∀ n ∈ parsed.root.outline,
    Text.IsBoundary source.toList n.label.start ∧ Text.IsBoundary source.toList n.label.stop

theorem Text.lt_of_sliceBytes? {start stop : Nat} {cs : List Char}
    (h : (sliceBytes? start stop cs).getD [] ≠ []) : start < stop := by
  by_contra hge
  unfold sliceBytes? at h
  split at h
  · have hzero : stop - start = 0 := by omega
    rw [hzero] at h
    cases hdrop : dropBytes? start cs <;> simp [hdrop, takeBytes?] at h
  · simp at h

namespace SyntaxTree

variable {t : SyntaxTree} {ks : List PlacedNode} {call callee : NodeId} {site : CallSite}
  {wanted : String → Bool} {name : String}

/-- The call of a node, if it calls an imported name. -/
def importedCall? (t : SyntaxTree) (id : NodeId) : Option CallSite :=
  t.callSite? (fun callee => (FileSyntax.namesOf t.imports).contains callee) id

/-- A call whose callee is an identifier with nothing below it, and starts where the call does. -/
structure PlainCallee (t : SyntaxTree) (call callee : NodeId) : Prop where
  field : t.childByField? call "function" = some callee
  identifier : t.kind callee = .identifier
  childless : t.children callee = []
  start : (t.label? callee).map (·.start) = (t.label? call).map (·.start)

theorem callSite?_eq_some (h : t.callSite? wanted call = some site) :
    t.callee? call = some site.callee ∧ wanted site.callee = true ∧
      site.position = t.startPosition call ∧
      site.caller = (t.enclosingFunction? call).map (·.name) := by
  unfold callSite? at h
  split at h
  · obtain ⟨callee, hcallee, rfl⟩ := Option.map_eq_some_iff.1 h
    obtain ⟨hcallee, hwanted⟩ := Option.filter_eq_some_iff.1 hcallee
    exact ⟨hcallee, hwanted, rfl, rfl⟩
  · cases h

/-- An empty name is no local name. -/
theorem ne_empty_of_mem_namesOf (h : name ∈ FileSyntax.namesOf t.imports) : name.isEmpty = false := by
  obtain ⟨declaration, hdeclaration, hname⟩ := List.mem_flatMap.1 h
  obtain ⟨statement, _, hstatement⟩ := List.mem_filterMap.1 hdeclaration
  obtain ⟨source, _, hsource⟩ := Option.bind_eq_some_iff.1 hstatement
  dsimp only at hsource
  split at hsource
  · cases hsource
  · cases hsource
    obtain ⟨specifier, _, hspecifier⟩ := List.mem_filterMap.1 hname
    obtain ⟨binding, _, hbinding⟩ := Option.bind_eq_some_iff.1 hspecifier
    dsimp only at hbinding
    split at hbinding
    · cases hbinding
    · rename_i hne
      cases hbinding
      simpa using hne

theorem lt_of_text_ne_empty (h : (t.text callee).isEmpty = false) :
    ∃ label, t.label? callee = some label ∧ label.start < label.stop := by
  unfold text at h
  unfold label?
  cases hnode : t.node? callee with
  | none => simp [hnode] at h
  | some node =>
    rw [hnode] at h
    have hsome : (Text.sliceBytes? node.label.start node.label.stop t.source).getD [] ≠ [] := by
      intro hnil
      simp [hnil] at h
    exact ⟨node.label, rfl, Text.lt_of_sliceBytes? hsome⟩

/-- A cursor at the start of a plain call of an imported name finds the callee. -/
theorem PlainCallee.nodeAt (h : t.PlainCallee call callee) (hnest : t.SpansNest) (hnum : t.Numbers ks)
    (hroot : t.Below root callee) (hsite : t.importedCall? call = some site) {label : NodeLabel}
    (hlabel : t.label? call = some label) : t.nodeAt label.start = callee := by
  obtain ⟨hcallee, hwanted, _⟩ := callSite?_eq_some hsite
  have htext : (t.text callee).isEmpty = false := by
    have hname : t.text callee = site.callee := by
      unfold callee? at hcallee
      split at hcallee
      · cases hcallee
      · simpa [h.field] using hcallee
    rw [hname]
    exact ne_empty_of_mem_namesOf (by simpa using hwanted)
  obtain ⟨inner, hinner, hlt⟩ := lt_of_text_ne_empty htext
  have hstart : inner.start = label.start := by simpa [hinner, hlabel] using h.start
  have hin : t.ContainsAt label.start callee := ⟨inner, hinner, by omega, by omega⟩
  rw [SyntaxTree.nodeAt, hnest.descend_eq hnum hroot hin, descend_of_childless h.childless]

/-- An identifier stands in the same function as the node above it. -/
theorem PlainCallee.enclosingFunction? (h : t.PlainCallee call callee) (hnum : t.Numbers ks) :
    t.enclosingFunction? callee = t.enclosingFunction? call := by
  have hchild : callee ∈ t.children call := List.mem_of_find?_eq_some h.field
  have hparent := (hnum.mem_children call callee).1 hchild
  have hup : t.enclosingFunctionId? callee = t.enclosingFunctionId? call := by
    unfold enclosingFunctionId?
    rw [hnum.ancestors_of_parent hparent, List.find?_cons, h.identifier]
    rfl
  simp only [SyntaxTree.enclosingFunction?, hup]

theorem isBoundary_of_label? {parsed : ParseTree} {source : String} (h : parsed.WellNested source)
    {label : NodeLabel} (hlabel : (ofParseTree parsed source).label? call = some label) :
    Text.IsBoundary source.toList label.start := by
  obtain ⟨node, hnode, rfl⟩ := Option.map_eq_some_iff.1 hlabel
  have hmem : node.label ∈ parsed.kept.map (·.label) := by
    rw [← (numbers_ofParseTree parsed source).labels]
    refine List.mem_map_of_mem ?_
    have hget : (ofParseTree parsed source).nodes[call]? = some node := hnode
    simpa using Array.mem_of_getElem? hget
  obtain ⟨placed, hplaced, heq⟩ := List.mem_map.1 hmem
  rw [← heq]
  exact (h.boundaries placed (List.mem_of_mem_filter hplaced)).1

/-- The calls of a file are those of its nodes that call imported names. The position of such a call
leads back to its first byte, and if the callee is plain, a cursor there finds the recorded caller. -/
theorem atOffset_importedCall (parsed : ParseTree) (source : String) (h : parsed.WellNested source)
    (index : DependencyIndex) (file : Path) :
    let t := ofParseTree parsed source
    (FileSyntax.ofTree t).callSites = t.ids.filterMap t.importedCall? ∧
      ∀ call site callee, t.importedCall? call = some site → t.PlainCallee call callee →
        ∃ label, t.label? call = some label ∧ t.offsetOf site.position = some label.start ∧
          (index.atOffset t file label.start).function.map (·.name) = site.caller := by
  intro t
  refine ⟨Analysis.callSites_ofTree t, fun call site callee hsite hplain => ?_⟩
  have hnum := numbers_ofParseTree parsed source
  have hnest := spansNest_ofParseTree h.nested source
  obtain ⟨_, _, hposition, hcaller⟩ := callSite?_eq_some hsite
  have hchild : callee ∈ t.children call := List.mem_of_find?_eq_some hplain.field
  have hcallsize : call < t.size := lt_size_of_mem_children hchild
  have hcalleesize : callee < t.size := lt_size_of_parent? ((hnum.mem_children _ _).1 hchild)
  obtain ⟨label, hlabel⟩ : ∃ label, t.label? call = some label :=
    ⟨_, by rw [label?, node?, Array.getElem?_eq_getElem hcallsize]; rfl⟩
  have hstart : site.position = Text.positionOf source.toList label.start := by
    obtain ⟨node, hnode, rfl⟩ := Option.map_eq_some_iff.1 hlabel
    rw [hposition, startPosition, hnode]
    rfl
  refine ⟨label, hlabel, ?_, ?_⟩
  · rw [hstart]
    exact (isBoundary_of_label? h hlabel).offsetOf_positionOf
  · have hnode := hplain.nodeAt hnest hnum (below_root parsed source hcalleesize) hsite hlabel
    rw [hcaller, DependencyIndex.atOffset, hnode, hplain.enclosingFunction? hnum]
    cases t.enclosingFunction? call <;> rfl

/-- A call in a function that is bound to a name, below a line with a character of two units. -/
def arrowText : String := "import{f}from'./😀';\nconst g=()=>f()"

/-- The parse tree of that text. -/
def arrowTree : ParseTree where
  root := .node true ⟨"program", none, 0, 38⟩ [
    .node true ⟨"import_statement", none, 0, 22⟩ [
      .node true ⟨"import_clause", none, 6, 9⟩ [
        .node true ⟨"named_imports", none, 6, 9⟩ [
          .node true ⟨"import_specifier", none, 7, 8⟩ [
            .node true ⟨"identifier", some "name", 7, 8⟩ []]]],
      .node true ⟨"string", some "source", 13, 21⟩ []],
    .node true ⟨"lexical_declaration", none, 23, 38⟩ [
      .node false ⟨"const", some "kind", 23, 28⟩ [],
      .node true ⟨"variable_declarator", none, 29, 38⟩ [
        .node true ⟨"identifier", some "name", 29, 30⟩ [],
        .node true ⟨"arrow_function", some "value", 31, 38⟩ [
          .node true ⟨"formal_parameters", some "parameters", 31, 33⟩ [],
          .node false ⟨"=>", none, 33, 35⟩ [],
          .node true ⟨"call_expression", some "body", 35, 38⟩ [
            .node true ⟨"identifier", some "function", 35, 36⟩ [],
            .node true ⟨"arguments", some "arguments", 36, 38⟩ []]]]]]
  hasError := false

/-- The call is found again at byte 35, and it stands in the function bound to `g`. -/
theorem atOffset_importedCall_arrow :
    let t := ofParseTree arrowTree arrowText
    arrowTree.WellNested arrowText ∧ t.importedCall? 12 = some ⟨"f", ⟨1, 12⟩, some "g"⟩ ∧
      t.PlainCallee 12 13 ∧ t.offsetOf ⟨1, 12⟩ = some 35 ∧
      (DependencyIndex.empty.atOffset t ⟨"/g.ts"⟩ 35).function.map (·.name) = some "g" := by
  intro t
  have hnested : arrowTree.WellNested arrowText := ⟨by decide, by decide⟩
  have hcall : t.importedCall? 12 = some ⟨"f", ⟨1, 12⟩, some "g"⟩ := by decide +kernel
  have hplain : t.PlainCallee 12 13 :=
    ⟨by decide +kernel, by decide +kernel, by decide +kernel, by decide +kernel⟩
  obtain ⟨label, hlabel, hoffset, hcaller⟩ :=
    (atOffset_importedCall arrowTree arrowText hnested .empty ⟨"/g.ts"⟩).2 12 _ 13 hcall hplain
  have hstart : t.label? 12 = some ⟨"call_expression", some "body", 35, 38⟩ := by decide +kernel
  obtain rfl := Option.some.inj (hlabel.symm.trans hstart)
  exact ⟨hnested, hcall, hplain, hoffset, hcaller⟩

end SyntaxTree

end Dependents
