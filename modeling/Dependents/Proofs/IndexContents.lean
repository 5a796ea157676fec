import Dependents.Proofs.Arena
import Dependents.Proofs.FreshBuild
import Dependents.Proofs.ImportedCalls
import Dependents.Proofs.IndexBuckets
import Dependents.Proofs.KeptTrees

/-! What an index holds, said of the parse trees themselves: under each target, one edge for each
call of a name that the target gave to the calling file. -/
namespace Dependents.Analysis

variable {grammar : Grammar} {policy : ResolutionPolicy} {files : FileSystem} {path target : Path}

/-- The text of a file and the named tree it parses to. -/
def parsed? (grammar : Grammar) (files : FileSystem) (path : Path) :
    Option (List Char × NamedTree) :=
  match Source.read files path, Language.ofPath? path with
  | .ok text, some language => (grammar language text).map fun parsed => (text.toList, parsed.named)
  | _, _ => none

/-- The edge from a node to `target`: the node is a call, and the last declaration of the file that
lists the callee and resolves leads to `target`. -/
def edgeAt? (resolve : String → Option Path) (source : List Char) (root : NamedTree)
    (path target : Path) (node : NamedTree) (above : List NamedTree) : Option Edge :=
  match node.call? source above with
  | some call =>
    if (ImportTable.meaning? resolve (root.imports source) call.callee).any (·.same target) then
      some ⟨path, call.position, call.callee, call.caller⟩
    else none
  | none => none

/-- The edges from one file to `target`, node by node in pre-order. A file that cannot be read or
parsed has none. -/
def edgesFrom (grammar : Grammar) (policy : ResolutionPolicy) (files : FileSystem)
    (target path : Path) : List Edge :=
  match parsed? grammar files path with
  | some (source, root) => (root.places []).filterMap fun place =>
    edgeAt? (Resolution.resolve files policy · path) source root path target place.1 place.2
  | none => []

/-- The same edges, read off the nodes of the parse tree that have numbers. Each carries its label over
what the nodes right below it carry, and is asked with those above it, the nearest first. -/
theorem edgesFrom_eq_kept {text : String} {language : Language} {parsed : ParseTree}
    (hread : Source.read files path = .ok text) (hlanguage : Language.ofPath? path = some language)
    (hparse : grammar language text = some parsed) :
    ∃ (root : PlacedNode) (tree : PlacedNode → NamedTree), parsed.kept.head? = some root ∧
      (∀ n ∈ parsed.kept, tree n = .node n.label ((n.belowIn parsed.kept).map tree)) ∧
      edgesFrom grammar policy files target path = parsed.kept.filterMap fun n =>
        edgeAt? (Resolution.resolve files policy · path) text.toList (tree root) path target (tree n)
          ((n.aboveIn parsed.kept).map tree) := by
  obtain ⟨root, tree, hroot, hwhole, hnode, hplaces⟩ := parsed.exists_trees
  refine ⟨root, tree, hroot, hnode, ?_⟩
  have hparsed : parsed? grammar files path = some (text.toList, parsed.named) := by
    simp only [parsed?, hread, hlanguage, hparse, Option.map_some]
  simp only [edgesFrom, hparsed]
  rw [hplaces, List.filterMap_map, hwhole]
  rfl

/-- The edges of a file, place by place: those of the calls whose callees have a meaning. -/
theorem edges_ofTree (resolve : String → Option Path) (parsed : ParseTree) (text : String)
    (path : Path) {syntaxOf : FileSyntax}
    (h : syntaxOf = FileSyntax.ofTree (SyntaxTree.ofParseTree parsed text)) :
    (ImportTable.ofDeclarations resolve syntaxOf.imports).edges path syntaxOf.callSites =
      (parsed.named.places []).filterMap fun place =>
        (place.1.call? text.toList place.2).bind fun call =>
          (ImportTable.meaning? resolve (parsed.named.imports text.toList) call.callee).map fun file =>
            (file, ⟨path, call.position, call.callee, call.caller⟩) := by
  have himports : syntaxOf.imports = (SyntaxTree.ofParseTree parsed text).imports := by
    rw [h]
    rfl
  rw [himports, h, FileSyntax.edges_callSites, ImportTable.edges, SyntaxTree.callSites_ofParseTree,
    SyntaxTree.imports_ofParseTree, List.filterMap_filterMap]
  refine List.filterMap_congr fun place _ => ?_
  cases place.1.call? text.toList place.2 with
  | none => rfl
  | some call =>
    rw [Option.bind_some, ← ImportTable.edge?_ofDeclarations]
    simp [Option.filter]

theorem freshEdges_to (grammar : Grammar) (policy : ResolutionPolicy) (files : FileSystem)
    (path target : Path) :
    (((freshEdges grammar policy files path).filter fun pair => pair.1.same target).map (·.2)) =
      edgesFrom grammar policy files target path := by
  unfold freshEdges edgesFrom parsed?
  cases Source.read files path with
  | error e => rfl
  | ok text =>
    simp only [Except.bind, Source.fileSyntax, Source.parse, Source.language]
    cases Language.ofPath? path with
    | none => rfl
    | some language =>
      cases hg : grammar language text with
      | none => simp [hg, bind, Except.bind, Except.map, throw, throwThe, MonadExceptOf.throw]
      | some parsed =>
        simp only [hg, bind, Except.bind, Except.map, pure, Except.pure, Option.map_some,
          edgesOfSyntax, edges_ofTree _ parsed text path rfl, List.filter_filterMap,
          List.map_filterMap]
        refine List.filterMap_congr fun place _ => ?_
        unfold edgeAt?
        cases place.1.call? text.toList place.2 with
        | none => rfl
        | some call =>
          simp only [Option.bind_some]
          generalize ImportTable.meaning? _ _ call.callee = meaning
          cases meaning with
          | none => rfl
          | some file => cases hf : file.same target <;> simp [Option.filter, hf]

/-- The index of a workspace, built without a cache, holds under each target exactly the calls that
lead there: file by file in the order of the scan, and within a file in pre-order. -/
theorem edgesOf_analyze (grammar : Grammar) (config : Config) (files : FileSystem)
    (roots : List Path) (target : Path) :
    (analyze grammar config (Session.start files { config with cache := .off }) roots).1.edgesOf
        target =
      (Scan.roots files config roots).flatMap fun found =>
        edgesFrom grammar config.resolution files target found.path := by
  change (analyze grammar config ⟨files, none⟩ roots).1.edgesOf target = _
  rw [analyze_uncached, DependencyIndex.edgesOf_extend, List.filter_flatMap, List.map_flatMap,
    List.flatMap_map]
  refine congrArg₂ _ (funext fun found => ?_) rfl
  exact freshEdges_to grammar config.resolution files found.path target

end Dependents.Analysis
