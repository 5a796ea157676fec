import Dependents.Proofs.FreshBuild
import Dependents.Proofs.IndexBuckets
import Dependents.Proofs.IndexKeys
import Dependents.Proofs.Shapes

/-! Edits of what files hold. Two builds over file systems of one shape scan the same files and resolve
every import alike, so a file whose text is the same in both contributes the same edges to both. -/
namespace Dependents.Analysis

variable {grammar : Grammar} {policy : ResolutionPolicy} {files files' : FileSystem} {path : Path}
  {pair : Path × Edge}

/-- The scanned files that do not have the same text in both file systems. A file that can be read in
neither is not among them. -/
def editedFiles (files files' : FileSystem) (config : Config) (roots : List Path) : List Path :=
  ((Scan.roots files config roots).map (·.path)).filter fun path =>
    (Source.read files path).toOption ≠ (Source.read files' path).toOption

theorem dependent_of_mem_freshEdges (h : pair ∈ freshEdges grammar policy files path) :
    pair.2.dependent = path := by
  unfold freshEdges at h
  split at h
  · exact dependent_of_mem_edgesOfSyntax h
  · cases h

/-- The edges of a file depend on its own text and on the shape of the file system. -/
theorem freshEdges_of_shape (hshape : files'.shape = files.shape)
    (htext : (Source.read files path).toOption = (Source.read files' path).toOption) :
    freshEdges grammar policy files' path = freshEdges grammar policy files path := by
  have hresolve : ∀ specifier, Resolution.resolve files' policy specifier path =
      Resolution.resolve files policy specifier path := by
    intro specifier
    rw [← Resolution.resolve_shape files', ← Resolution.resolve_shape files, hshape]
  have hedges : edgesOfSyntax files' policy path = edgesOfSyntax files policy path := by
    funext syntaxOf
    simp only [edgesOfSyntax, hresolve]
  unfold freshEdges
  rw [hedges]
  cases hread : Source.read files path with
  | error e =>
    cases hread' : Source.read files' path with
    | error e' => rfl
    | ok text' => simp [hread, hread', Except.toOption] at htext
  | ok text =>
    cases hread' : Source.read files' path with
    | error e' => simp [hread, hread', Except.toOption] at htext
    | ok text' =>
      obtain rfl : text = text' := by simpa [hread, hread', Except.toOption] using htext
      rfl

/-- A filter of a bucket goes down to the edges of each file. -/
theorem filter_edgesOf_uncached (grammar : Grammar) (config : Config) (files : FileSystem)
    (roots : List Path) (target : Path) (keep : Edge → Bool) :
    ((analyze grammar config ⟨files, none⟩ roots).1.edgesOf target).filter keep =
      ((Scan.roots files config roots).map (·.path)).flatMap fun path =>
        (((freshEdges grammar config.resolution files path).filter fun pair =>
          pair.1.same target).map (·.2)).filter keep := by
  rw [analyze_uncached, DependencyIndex.edgesOf_extend, List.filter_flatMap, List.map_flatMap,
    List.filter_flatMap]

/-- Without the edges of some files, nothing is left of one of these files. -/
theorem filter_freshEdges_eq_nil {paths : List Path} (hpath : path ∈ paths) (grammar : Grammar)
    (policy : ResolutionPolicy) (files : FileSystem) (target : Path) :
    (((freshEdges grammar policy files path).filter fun pair => pair.1.same target).map (·.2)).filter
      (fun e => e.dependent ∉ paths) = [] := by
  apply List.filter_eq_nil_iff.2
  intro e he
  obtain ⟨pair, hpair, rfl⟩ := List.mem_map.1 he
  rw [dependent_of_mem_freshEdges (List.mem_filter.1 hpair).1]
  simpa using hpath

/-- Editing files never adds, drops, moves or re-attributes an edge of another file: the scan finds the
same files, and without the edges of the edited ones every bucket is the same list. -/
theorem edits_local (grammar : Grammar) (config : Config) (files files' : FileSystem)
    (roots : List Path) (hshape : files'.shape = files.shape) (target : Path) :
    let index := fun files =>
      (analyze grammar config (Session.start files { config with cache := .off }) roots).1
    let others := fun edges : List Edge =>
      edges.filter fun e => e.dependent ∉ editedFiles files files' config roots
    Scan.roots files' config roots = Scan.roots files config roots ∧
      others ((index files').edgesOf target) = others ((index files).edgesOf target) := by
  intro index others
  have hscan : Scan.roots files' config roots = Scan.roots files config roots := by
    rw [← Scan.roots_shape files', ← Scan.roots_shape files, hshape]
  have hothers : ∀ fs, others ((index fs).edgesOf target) = _ :=
    fun fs => filter_edgesOf_uncached grammar config fs roots target _
  refine ⟨hscan, ?_⟩
  rw [hothers files', hothers files, hscan]
  apply List.flatMap_congr
  intro path hpath
  by_cases htext : (Source.read files path).toOption = (Source.read files' path).toOption
  · rw [freshEdges_of_shape hshape htext]
  · -- All edges of an edited file are left out, of the old ones and of the new ones.
    have hedited : path ∈ editedFiles files files' config roots :=
      List.mem_filter.2 ⟨hpath, by simpa using htext⟩
    rw [filter_freshEdges_eq_nil hedited, filter_freshEdges_eq_nil hedited]

/-- The two callers with one of them emptied, and the entries listed the other way round. -/
def emptiedCaller : FileSystem :=
  ⟨[("m.ts", .file []), ("b.ts", .file (Text.bytesOf callsText.toList)), ("a.ts", .file []),
    ("c", .dir [])], []⟩

theorem shape_emptiedCaller : emptiedCaller.shape = twoCallers.shape := by
  have hroots : FileNode.sorted (FileNode.shapeOfAll twoCallers.root) =
      FileNode.sorted (FileNode.shapeOfAll emptiedCaller.root) := by
    apply FileNode.sorted_of_perm
    · exact (List.reverse_perm (FileNode.shapeOfAll twoCallers.root)).symm
    · decide
  simp only [FileSystem.shape, hroots]
  rfl

theorem editedFiles_emptiedCaller :
    editedFiles twoCallers emptiedCaller Config.standard [⟨"/a.ts"⟩, ⟨"/b.ts"⟩] = [⟨"/a.ts"⟩] := by
  have hempty : Source.read emptiedCaller ⟨"/a.ts"⟩ = .ok "" := by
    rw [Source.read, FileSystem.read, FileSystem.find_top "a.ts" rfl (by decide) rfl]
    decide +kernel
  have hsame : Source.read emptiedCaller ⟨"/b.ts"⟩ = .ok callsText := by
    rw [Source.read, FileSystem.read, FileSystem.find_top "b.ts" rfl (by decide) rfl]
    decide +kernel
  simp only [editedFiles, roots_twoCallers, List.map_cons, List.map_nil, List.filter_cons,
    List.filter_nil, read_twoCallers (.inl rfl), read_twoCallers (.inr rfl), hempty, hsame]
  decide

/-- Only the emptied caller loses its edges. -/
theorem edits_local_emptiedCaller :
    let roots : List Path := [⟨"/a.ts"⟩, ⟨"/b.ts"⟩]
    let edited := editedFiles twoCallers emptiedCaller Config.standard roots
    emptiedCaller.shape = twoCallers.shape ∧ edited = [⟨"/a.ts"⟩] ∧
      (((analyze callsGrammar Config.standard (Session.start emptiedCaller Config.standard)
          roots).1.edgesOf ⟨"/m.ts"⟩).filter fun e => e.dependent ∉ edited) =
        [⟨⟨"/b.ts"⟩, ⟨0, 19⟩, "f", none⟩, ⟨⟨"/b.ts"⟩, ⟨0, 23⟩, "f", none⟩] := by
  intro roots edited
  refine ⟨shape_emptiedCaller, editedFiles_emptiedCaller, ?_⟩
  have hlocal := (edits_local callsGrammar Config.standard twoCallers emptiedCaller roots
    shape_emptiedCaller ⟨"/m.ts"⟩).2
  refine hlocal.trans ?_
  change List.filter (fun e => e.dependent ∉ editedFiles _ _ _ _) (DependencyIndex.edgesOf
    (analyze callsGrammar Config.standard ⟨twoCallers, none⟩ roots).1 ⟨"/m.ts"⟩) = _
  rw [editedFiles_emptiedCaller, analyze_uncached, roots_twoCallers, List.map_cons, List.map_cons,
    List.map_nil, List.flatMap_cons, List.flatMap_cons, List.flatMap_nil,
    freshEdges_twoCallers (.inl rfl), freshEdges_twoCallers (.inr rfl)]
  decide +kernel

end Dependents.Analysis
