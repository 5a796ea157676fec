import Dependents.Proofs.IndexKeys

/-! Calls that are left out beforehand. A table binds no names but those that declarations list,
whatever the specifiers resolve to, so calls of other names make no edges. -/
namespace Dependents

namespace SyntaxTree

theorem callSite?_eq_filter (t : SyntaxTree) (wanted : String → Bool) (id : NodeId) :
    t.callSite? wanted id =
      (t.callSite? (fun _ => true) id).filter fun site => wanted site.callee := by
  unfold callSite?
  split
  · cases t.callee? id with
    | none => rfl
    | some callee => cases hwanted : wanted callee <;> simp [Option.filter, hwanted]
  · rfl

theorem callSites_eq_filter (t : SyntaxTree) (wanted : String → Bool) :
    t.callSites wanted = (t.callSites fun _ => true).filter fun site => wanted site.callee := by
  rw [callSites, callSites, List.filter_filterMap]
  apply List.filterMap_congr
  intro id _
  exact callSite?_eq_filter t wanted id

end SyntaxTree

namespace Analysis

/-- Where no names are declared, none is wanted, so the shortcut for that case changes nothing. -/
theorem callSites_ofTree (t : SyntaxTree) :
    (FileSyntax.ofTree t).callSites =
      t.callSites fun callee => (FileSyntax.namesOf t.imports).contains callee := by
  simp only [FileSyntax.ofTree]
  cases hn : FileSyntax.namesOf t.imports with
  | cons name names => rfl
  | nil =>
    rw [SyntaxTree.callSites_eq_filter]
    simp

end Analysis

namespace ImportTable

variable {resolve : String → Option Path} {declarations : List ImportDeclaration}

/-- Calls that are left out make no edges if their callees have no meaning. -/
theorem edges_filter {keep : CallSite → Bool} {sites : List CallSite}
    (h : ∀ site ∈ sites, ∀ file, meaning? resolve declarations site.callee = some file → keep site = true)
    (dependent : Path) :
    (ofDeclarations resolve declarations).edges dependent (sites.filter keep) =
      (ofDeclarations resolve declarations).edges dependent sites := by
  rw [edges, edges, List.filterMap_filter]
  apply List.filterMap_congr
  intro site hsite
  rw [edge?_ofDeclarations]
  cases hmeaning : meaning? resolve declarations site.callee with
  | none => simp
  | some file => rw [if_pos (h site hsite file hmeaning)]

/-- An edge names what a declaration lists, and leads where the declaration leads. -/
theorem declaration_of_mem_edges {sites : List CallSite} {dependent : Path} {pair : Path × Edge}
    (h : pair ∈ (ofDeclarations resolve declarations).edges dependent sites) :
    ∃ d ∈ declarations, pair.2.targetFunction ∈ d.localNames ∧ resolve d.specifier = some pair.1 := by
  obtain ⟨site, _, hsite⟩ := List.mem_filterMap.1 h
  rw [edge?_ofDeclarations] at hsite
  obtain ⟨file, hmeaning, rfl⟩ := Option.map_eq_some_iff.1 hsite
  exact exists_of_meaning? hmeaning

/-- A call of a name that a declaration lists makes an edge if the declaration resolves. -/
theorem exists_mem_edges {sites : List CallSite} {site : CallSite} {d : ImportDeclaration}
    (hsite : site ∈ sites) (hd : d ∈ declarations) (hname : site.callee ∈ d.localNames)
    (h : (resolve d.specifier).isSome = true) (dependent : Path) :
    ∃ file, (file, ⟨dependent, site.position, site.callee, site.caller⟩) ∈
      (ofDeclarations resolve declarations).edges dependent sites := by
  obtain ⟨file, hfile⟩ := Option.isSome_iff_exists.1 (isSome_meaning?_of_mem hd hname h)
  refine ⟨file, List.mem_filterMap.2 ⟨site, hsite, ?_⟩⟩
  rw [edge?_ofDeclarations, hfile]
  rfl

end ImportTable

namespace FileSyntax

/-- The calls that the syntax of a file leaves out make no edges, whatever its specifiers resolve to. -/
theorem edges_callSites (t : SyntaxTree) (resolve : String → Option Path) (path : Path) :
    (ImportTable.ofDeclarations resolve t.imports).edges path (ofTree t).callSites =
      (ImportTable.ofDeclarations resolve t.imports).edges path (t.callSites fun _ => true) := by
  rw [Analysis.callSites_ofTree, SyntaxTree.callSites_eq_filter]
  apply ImportTable.edges_filter
  intro site _ file hmeaning
  exact List.contains_iff_mem.2 (ImportTable.mem_namesOf_of_meaning? hmeaning)

/-- The calls that the syntax of a file keeps make the edges that all its calls make, in the same order.
Each edge names what a declaration of the file lists and leads to the file that the declaration resolves
to, and each call of a listed name makes an edge if the declaration resolves. -/
theorem edges_keptCalls (t : SyntaxTree) (files : FileSystem) (policy : ResolutionPolicy) (path : Path) :
    let table := ImportTable.ofDeclarations (Resolution.resolve files policy · path) t.imports
    table.edges path (ofTree t).callSites = table.edges path (t.callSites fun _ => true) ∧
    (∀ pair ∈ table.edges path (ofTree t).callSites,
      ∃ d ∈ t.imports, pair.2.targetFunction ∈ d.localNames ∧
        Resolution.resolve files policy d.specifier path = some pair.1) ∧
    ∀ site ∈ t.callSites fun _ => true, ∀ d ∈ t.imports, site.callee ∈ d.localNames →
      (Resolution.resolve files policy d.specifier path).isSome = true →
        ∃ file, (file, ⟨path, site.position, site.callee, site.caller⟩) ∈
          table.edges path (ofTree t).callSites := by
  intro table
  have hsame : table.edges path (ofTree t).callSites = table.edges path (t.callSites fun _ => true) :=
    edges_callSites t _ path
  refine ⟨hsame, ?_, ?_⟩
  · intro pair hpair
    exact ImportTable.declaration_of_mem_edges hpair
  · intro site hsite d hd hname hresolve
    rw [hsame]
    exact ImportTable.exists_mem_edges hsite hd hname hresolve path

/-- A text that imports one of the two names it calls. -/
def mixedText : String := "import{f}from'./m';g(),f()"

def mixedTree : ParseTree where
  root := .node true ⟨"program", none, 0, 26⟩ [
    .node true ⟨"import_statement", none, 0, 19⟩ [
      .node true ⟨"import_clause", none, 6, 9⟩ [
        .node true ⟨"named_imports", none, 6, 9⟩ [
          .node true ⟨"import_specifier", none, 7, 8⟩ [
            .node true ⟨"identifier", some "name", 7, 8⟩ []]]],
      .node true ⟨"string", some "source", 13, 18⟩ []],
    .node true ⟨"expression_statement", none, 19, 26⟩ [
      .node true ⟨"sequence_expression", none, 19, 26⟩ [
        .node true ⟨"call_expression", some "left", 19, 22⟩ [
          .node true ⟨"identifier", some "function", 19, 20⟩ [],
          .node true ⟨"arguments", some "arguments", 20, 22⟩ []],
        .node false ⟨",", none, 22, 23⟩ [],
        .node true ⟨"call_expression", some "right", 23, 26⟩ [
          .node true ⟨"identifier", some "function", 23, 24⟩ [],
          .node true ⟨"arguments", some "arguments", 24, 26⟩ []]]]]
  hasError := false

/-- The call of the name that is not imported is left out; the other one makes the same edge as before. -/
theorem edges_keptCalls_mixed :
    let t := SyntaxTree.ofParseTree mixedTree mixedText
    let files : FileSystem := ⟨[("m.ts", .file [])], []⟩
    let table := ImportTable.ofDeclarations (Resolution.resolve files .strict · ⟨"/a.ts"⟩) t.imports
    (t.callSites fun _ => true) = [⟨"g", ⟨0, 19⟩, none⟩, ⟨"f", ⟨0, 23⟩, none⟩] ∧
      (ofTree t).callSites = [⟨"f", ⟨0, 23⟩, none⟩] ∧
      table.edges ⟨"/a.ts"⟩ (ofTree t).callSites = table.edges ⟨"/a.ts"⟩ (t.callSites fun _ => true) ∧
      (⟨"/m.ts"⟩, ⟨⟨"/a.ts"⟩, ⟨0, 23⟩, "f", none⟩) ∈ table.edges ⟨"/a.ts"⟩ (ofTree t).callSites := by
  intro t files table
  have himports : t.imports = [⟨"./m", ["f"]⟩] := by decide +kernel
  have hall : (t.callSites fun _ => true) = [⟨"g", ⟨0, 19⟩, none⟩, ⟨"f", ⟨0, 23⟩, none⟩] := by
    decide +kernel
  have hfile : files.isFile ⟨"/m.ts"⟩ = true := by
    rw [FileSystem.isFile, FileSystem.find_top "m.ts" rfl (by decide +kernel) rfl]
  have hresolve : Resolution.resolve files .strict "./m" ⟨"/a.ts"⟩ = some ⟨"/m.ts"⟩ :=
    Resolution.resolve_of_isFile (by decide) (by decide +kernel : _ = some ⟨"/m"⟩) hfile
  obtain ⟨hsame, hleads, hmakes⟩ := edges_keptCalls t files .strict ⟨"/a.ts"⟩
  refine ⟨hall, by decide +kernel, hsame, ?_⟩
  obtain ⟨file, hedge⟩ := hmakes ⟨"f", ⟨0, 23⟩, none⟩ (by rw [hall]; simp) ⟨"./m", ["f"]⟩
    (by rw [himports]; simp) (by simp) (Option.isSome_of_eq_some hresolve)
  obtain ⟨d, hd, _, hfound⟩ := hleads _ hedge
  rw [himports, List.mem_singleton] at hd
  subst hd
  rw [hresolve] at hfound
  cases hfound
  exact hedge

end FileSyntax

end Dependents
