import Dependents.Proofs.FreshBuild
import Dependents.Proofs.IndexKeys

/-! What a lenient policy adds to a strict one: targets that are no files. As long as no name is
declared twice in a file, the strict index is the lenient one without those keys. -/
namespace Dependents

open Dependents.Path

/-- No name is bound by two declarations. -/
def FileSyntax.BindsOnce (syntaxOf : FileSyntax) : Prop :=
  syntaxOf.imports.Pairwise fun a b => a.localNames.Disjoint b.localNames

namespace FileSystem

variable {fs : FileSystem} {p q : Path}

/-- If some spelling of a straight path leads to a file, so does the path itself. -/
theorem isFile_of_same (hp : p.Straight) (h : p.same q = true) (hq : fs.isFile q = true) :
    fs.isFile p = true := by
  obtain ⟨content, hread⟩ := isFile_iff.1 hq
  obtain ⟨place, hlocate⟩ := read_eq_ok.1 hread
  obtain ⟨names, hne, hnames, rfl⟩ := hp
  have hwalk : walk fs.top maxLinks fs.workingDir q.components = .ok (place, some (.file content)) := by
    unfold locate at hlocate
    split at hlocate
    · cases hlocate
    · unfold Path.steps at hlocate
      split at hlocate
      · exact walk_of_snoc_current hlocate
      · rwa [List.append_nil] at hlocate
  rw [isFile_iff]
  refine ⟨content, read_eq_ok.2 ⟨place, ?_⟩⟩
  rw [locate, text_ofNames_ne_empty hnames, if_neg Bool.false_ne_true, steps_ofNames hnames hne,
    ← components_ofNames hnames, same_iff.1 h, hwalk]

end FileSystem

namespace Scan

variable {fs : FileSystem} {config config' : Config}

theorem below_congr (hdirs : config'.excludeDirs = config.excludeDirs)
    (hlinks : config'.followLinks = config.followLinks) (opened : List (List String))
    (place : List String) (path : Path) (entries : List (String × FileNode)) :
    below fs config' opened place path entries = below fs config opened place path entries := by
  induction opened, place, path, entries using below.induct fs config with
  | case1 opened place path entries ihdir ihlink =>
    rw [below, below]
    apply List.flatMap_congr
    rintro ⟨⟨name, node⟩, hentry⟩ _
    cases node with
    | file content => rfl
    | dir inner =>
      dsimp only
      rw [hdirs, ihdir name inner hentry]
    | link target =>
      dsimp only
      split
      · rfl
      · rw [hdirs, hlinks]
        split
        · rename_i hfollow
          exact ihlink name _ _ hfollow
        · rfl
      · rfl

theorem files_congr (hdirs : config'.excludeDirs = config.excludeDirs)
    (hlinks : config'.followLinks = config.followLinks) : files fs config' = files fs config := by
  funext root
  unfold files
  have hbelow := @below_congr fs config config' hdirs hlinks
  simp only [hbelow]

/-- Resolution has no part in what a scan finds. -/
theorem roots_resolution (fs : FileSystem) (config : Config) (policy : ResolutionPolicy)
    (roots : List Path) :
    Scan.roots fs { config with resolution := policy } roots = Scan.roots fs config roots := by
  have hfiles : files fs { config with resolution := policy } = files fs config := files_congr rfl rfl
  have hroot : root fs { config with resolution := policy } = root fs config := by
    funext path
    rw [root, root, hfiles]
    rfl
  rw [Scan.roots, Scan.roots, hroot]

end Scan

namespace Resolution

/-- A strict policy resolves what a lenient one does, if it is a file. -/
theorem resolve_strict (files : FileSystem) (specifier : String) (importer : Path) :
    resolve files .strict specifier importer =
      (resolve files .lenient specifier importer).filter files.isFile := by
  unfold resolve
  split
  · cases base? specifier importer with
    | none => rfl
    | some base =>
      simp only [Option.bind_some]
      cases hfind : (candidates base).find? files.isFile with
      | some file =>
        have hfile : files.isFile file = true := List.find?_some hfind
        simp [Option.filter, hfile]
      | none =>
        have hnone : files.isFile (base.withSuffix ".ts") = false := by
          rw [← Bool.not_eq_true]
          exact List.find?_eq_none.1 hfind _ List.mem_cons_self
        simp [Option.filter, hnone]
  · rfl

theorem isFile_of_resolve {files : FileSystem} {specifier : String} {importer target : Path}
    (h : resolve files .strict specifier importer = some target) : files.isFile target = true := by
  rw [resolve_strict] at h
  exact (Option.filter_eq_some_iff.1 h).2

end Resolution

namespace ImportTable

variable {resolve : String → Option Path} {declarations : List ImportDeclaration} {name : String}

/-- Where no name is declared twice, dropping resolutions drops meanings and changes none. -/
theorem meaning?_filter (p : Path → Bool)
    (h : declarations.Pairwise fun a b => a.localNames.Disjoint b.localNames) :
    meaning? (fun specifier => (resolve specifier).filter p) declarations name =
      (meaning? resolve declarations name).filter p := by
  unfold meaning?
  have hreverse : declarations.reverse.Pairwise fun a b => a.localNames.Disjoint b.localNames :=
    List.pairwise_reverse.2 (h.imp List.disjoint_symm)
  generalize declarations.reverse = ds at hreverse ⊢
  induction ds with
  | nil => rfl
  | cons d ds ih =>
    obtain ⟨hd, hds⟩ := List.pairwise_cons.1 hreverse
    rw [List.findSome?_cons, List.findSome?_cons]
    by_cases hname : name ∈ d.localNames
    · -- The other declarations do not list the name, so this one decides.
      have hothers : ∀ r : String → Option Path,
          ds.findSome? (fun d => if name ∈ d.localNames then r d.specifier else none) = none := by
        intro r
        rw [List.findSome?_eq_none_iff]
        intro other hother
        exact if_neg fun hmem => hd other hother hname hmem
      rw [if_pos hname, if_pos hname, hothers resolve,
        hothers fun specifier => (resolve specifier).filter p]
      dsimp only
      cases resolve d.specifier with
      | none => rfl
      | some file => cases hp : p file <;> simp [Option.filter, hp]
    · rw [if_neg hname, if_neg hname]
      exact ih hds

/-- A name that has a meaning with fewer resolutions has one with more. -/
theorem isSome_meaning? {p : Path → Bool} {file : Path}
    (h : meaning? (fun specifier => (resolve specifier).filter p) declarations name = some file) :
    ∃ other, meaning? resolve declarations name = some other := by
  obtain ⟨d, hd, hname, hfile⟩ := exists_of_meaning? h
  rw [← Option.isSome_iff_exists]
  apply isSome_meaning?_of_mem hd hname
  rw [(Option.filter_eq_some_iff.1 hfile).1]
  rfl

end ImportTable

namespace DependencyIndex

variable {target : Path} {edge : Edge} {bs : List Bucket} {pairs : List (Path × Edge)}

theorem insertEdge_of_lt (h : ∀ b ∈ bs, target.order b.target = .lt) :
    insertEdge target edge bs = ⟨target, [edge]⟩ :: bs := by
  cases bs with
  | nil => rfl
  | cons b bs => rw [insertEdge, h b List.mem_cons_self]

/-- Filing an edge and then dropping keys comes to dropping keys and then filing the edge, if its key
is not dropped. -/
theorem filter_insertEdge (p : Path → Bool) (edge : Edge) (h : Sorted bs)
    (hsame : ∀ b ∈ bs, target.same b.target = true → p b.target = p target) :
    (insertEdge target edge bs).filter (fun b => p b.target) =
      if p target then insertEdge target edge (bs.filter fun b => p b.target)
      else bs.filter fun b => p b.target := by
  induction bs with
  | nil => cases hp : p target <;> simp [insertEdge, hp]
  | cons b bs ih =>
    obtain ⟨hb, hbs⟩ := List.pairwise_cons.1 h
    have hrest := ih hbs fun c hc => hsame c (List.mem_cons_of_mem b hc)
    cases horder : target.order b.target with
    | lt =>
      have hlt : ∀ c ∈ (b :: bs).filter (fun b => p b.target), target.order c.target = .lt := by
        intro c hc
        rcases List.mem_cons.1 (List.mem_of_mem_filter hc) with rfl | hc
        · exact horder
        · exact order_trans horder (hb c hc)
      rw [insertEdge_of_lt hlt]
      simp only [insertEdge, horder]
      rw [List.filter_cons]
    | eq =>
      have hp : p b.target = p target := hsame b List.mem_cons_self (order_eq_iff.1 horder)
      simp only [insertEdge, horder, List.filter_cons, hp]
      cases p target
      · rfl
      · simp only [if_true, insertEdge, horder]
    | gt =>
      simp only [insertEdge, horder, List.filter_cons, hrest]
      cases p b.target <;> cases p target <;> simp [insertEdge, horder]

theorem straight_insertEdge (h : ∀ b ∈ bs, b.target.Straight) (htarget : target.Straight) :
    ∀ b ∈ insertEdge target edge bs, b.target.Straight := by
  intro b hb
  rcases target_insertEdge hb with heq | ⟨old, hold, heq⟩
  · rwa [heq]
  · rw [heq]
    exact h old hold

/-- A view of the buckets that goes along with filing an edge, or is blind to it, goes along with filing
many: it shows the buckets of the edges that it sees. -/
theorem buckets_extend_view {view : List Bucket → List Bucket} {sees : Path × Edge → Bool}
    (hstep : ∀ {bs : List Bucket} {target : Path} (edge : Edge), Sorted bs →
      (∀ b ∈ bs, target.same b.target = true → target = b.target) →
        view (insertEdge target edge bs) =
          if sees (target, edge) then insertEdge target edge (view bs) else view bs)
    (index index' : DependencyIndex) (hindex : index'.buckets = view index.buckets)
    (hsorted : Sorted index.buckets) (hbuckets : ∀ b ∈ index.buckets, b.target.Straight)
    (hpairs : ∀ pair ∈ pairs, pair.1.Straight) :
    (index'.extend (pairs.filter sees)).buckets = view (index.extend pairs).buckets := by
  induction pairs generalizing index index' with
  | nil => exact hindex
  | cons pair pairs ih =>
    have hpair := hpairs pair List.mem_cons_self
    have hfiled := hstep pair.2 hsorted fun b hb hsame =>
      hpair.eq_of_components (hbuckets b hb) (same_iff.1 hsame)
    have hrest := fun index' hindex' => ih (index.add pair.1 pair.2) index' hindex'
      (sorted_insertEdge _ _ hsorted) (straight_insertEdge hbuckets hpair)
      fun other hother => hpairs other (List.mem_cons_of_mem _ hother)
    rw [List.filter_cons]
    cases hsees : sees pair with
    | true =>
      apply hrest (index'.add pair.1 pair.2)
      rw [add, hindex, add, hfiled, hsees]
      rfl
    | false =>
      apply hrest index'
      rw [hindex, add, hfiled, hsees]
      rfl

/-- Filing fewer keys makes an index with fewer buckets and leaves the others as they are. -/
theorem buckets_extend_filter (p : Path → Bool) (hpairs : ∀ pair ∈ pairs, pair.1.Straight) :
    (empty.extend (pairs.filter fun pair => p pair.1)).buckets =
      (empty.extend pairs).buckets.filter fun b => p b.target := by
  refine buckets_extend_view (fun edge hsorted hsame => ?_) empty empty rfl .nil
    (fun _ hb => absurd hb List.not_mem_nil) hpairs
  exact filter_insertEdge p edge hsorted fun b hb h => by rw [hsame b hb h]

end DependencyIndex

namespace Analysis

variable {grammar : Grammar} {config : Config} {policy : ResolutionPolicy} {files : FileSystem}
  {path : Path} {roots : List Path} {syntaxOf : FileSyntax} {pair : Path × Edge}

/-- A policy's edges, from the meanings that names have under it. -/
theorem edgesOfSyntax_eq (files : FileSystem) (policy : ResolutionPolicy) (path : Path)
    (syntaxOf : FileSyntax) :
    edgesOfSyntax files policy path syntaxOf = syntaxOf.callSites.filterMap fun site =>
      (ImportTable.meaning? (Resolution.resolve files policy · path) syntaxOf.imports site.callee).map
        fun file => (file, ⟨path, site.position, site.callee, site.caller⟩) := by
  rw [edgesOfSyntax, ImportTable.edges]
  exact List.filterMap_congr fun site _ => ImportTable.edge?_ofDeclarations _ path site

theorem meaning?_strict (files : FileSystem) (path : Path) (declarations : List ImportDeclaration)
    (name : String) :
    ImportTable.meaning? (Resolution.resolve files .strict · path) declarations name =
      ImportTable.meaning? (fun specifier => (Resolution.resolve files .lenient specifier path).filter
        files.isFile) declarations name := by
  simp only [Resolution.resolve_strict]

/-- A strict policy matches calls that a lenient one matches, too. -/
theorem positions_strict (files : FileSystem) (path : Path) (syntaxOf : FileSyntax) :
    ((edgesOfSyntax files .strict path syntaxOf).map (·.2.position)).Sublist
      ((edgesOfSyntax files .lenient path syntaxOf).map (·.2.position)) := by
  rw [edgesOfSyntax_eq, edgesOfSyntax_eq, List.map_filterMap, List.map_filterMap]
  induction syntaxOf.callSites with
  | nil => exact .slnil
  | cons site sites ih =>
    rw [List.filterMap_cons, List.filterMap_cons, meaning?_strict]
    cases hstrict : ImportTable.meaning? (fun specifier =>
        (Resolution.resolve files .lenient specifier path).filter files.isFile)
        syntaxOf.imports site.callee with
    | none =>
      simp only [Option.map_none]
      split
      · exact ih
      · exact .cons _ ih
    | some file =>
      obtain ⟨other, hother⟩ := ImportTable.isSome_meaning? hstrict
      rw [hother]
      exact .cons_cons _ ih

/-- Where no name is bound twice, a strict policy drops the edges that lead to no file. -/
theorem edgesOfSyntax_strict (h : syntaxOf.BindsOnce) (files : FileSystem) (path : Path) :
    edgesOfSyntax files .strict path syntaxOf =
      (edgesOfSyntax files .lenient path syntaxOf).filter fun pair => files.isFile pair.1 := by
  rw [edgesOfSyntax_eq, edgesOfSyntax_eq, List.filter_filterMap]
  refine List.filterMap_congr fun site _ => ?_
  rw [meaning?_strict, ImportTable.meaning?_filter files.isFile h, Option.filter_map]
  rfl

/-- The edges of all files that a scan finds, under one policy. -/
def scannedEdges (grammar : Grammar) (config : Config) (files : FileSystem) (roots : List Path)
    (policy : ResolutionPolicy) : List (Path × Edge) :=
  (Scan.roots files config roots).flatMap fun found => freshEdges grammar policy files found.path

theorem analyze_scanned (grammar : Grammar) (config : Config) (files : FileSystem) (roots : List Path) :
    (analyze grammar config ⟨files, none⟩ roots).1 =
      DependencyIndex.empty.extend (scannedEdges grammar config files roots config.resolution) := by
  rw [analyze_uncached, List.flatMap_map]
  rfl

theorem analyze_policy (grammar : Grammar) (config : Config) (files : FileSystem) (roots : List Path)
    (policy : ResolutionPolicy) :
    (analyze grammar { config with resolution := policy } ⟨files, none⟩ roots).1 =
      DependencyIndex.empty.extend (scannedEdges grammar config files roots policy) := by
  rw [analyze_scanned, scannedEdges, Scan.roots_resolution]
  rfl

theorem resolve_of_mem_scannedEdges (h : pair ∈ scannedEdges grammar config files roots policy) :
    ∃ found ∈ Scan.roots files config roots, ∃ specifier,
      Resolution.resolve files policy specifier found.path = some pair.1 := by
  obtain ⟨found, hfound, hpair⟩ := List.mem_flatMap.1 h
  refine ⟨found, hfound, ?_⟩
  unfold freshEdges at hpair
  split at hpair
  · exact resolve_of_mem_edgesOfSyntax hpair
  · cases hpair

theorem straight_of_mem_scannedEdges (h : pair ∈ scannedEdges grammar config files roots policy) :
    pair.1.Straight := by
  obtain ⟨found, hfound, specifier, hresolve⟩ := resolve_of_mem_scannedEdges h
  exact Resolution.straight_of_resolve (Scan.isAbsolute_of_mem_roots hfound) hresolve

theorem isFile_of_mem_scannedEdges (h : pair ∈ scannedEdges grammar config files roots .strict) :
    files.isFile pair.1 = true := by
  obtain ⟨found, _, specifier, hresolve⟩ := resolve_of_mem_scannedEdges h
  exact Resolution.isFile_of_resolve hresolve

theorem positions_freshEdges_strict (grammar : Grammar) (files : FileSystem) (path : Path) :
    ((freshEdges grammar .strict files path).map (·.2.position)).Sublist
      ((freshEdges grammar .lenient files path).map (·.2.position)) := by
  unfold freshEdges
  split
  · exact positions_strict files path _
  · exact .slnil

/-- Of a workspace in which no file binds a name twice, a strict policy drops the edges that lead to no
file, and keeps the others in their order. -/
theorem scannedEdges_strict (h : ∀ found ∈ Scan.roots files config roots, ∀ text syntaxOf,
      Source.read files found.path = .ok text →
        Source.fileSyntax grammar found.path text = .ok syntaxOf → syntaxOf.BindsOnce) :
    scannedEdges grammar config files roots .strict =
      (scannedEdges grammar config files roots .lenient).filter fun pair => files.isFile pair.1 := by
  unfold scannedEdges
  rw [List.filter_flatMap]
  refine List.flatMap_congr fun found hfound => ?_
  unfold freshEdges
  cases hread : Source.read files found.path with
  | error e => rfl
  | ok text =>
    simp only [Except.bind]
    cases hs : Source.fileSyntax grammar found.path text with
    | error e => rfl
    | ok syntaxOf => exact edgesOfSyntax_strict (h found hfound text syntaxOf hread hs) files found.path

/-- What strict and lenient builds of the same files without a cache have to do with each other. All
keys of the strict index are files, and each file matches calls in the strict build that it matches in
the lenient one. If no scanned file binds a name twice, the strict index is the lenient one without the
keys that are no files. -/
theorem strict_lenient (grammar : Grammar) (config : Config) (files : FileSystem) (roots : List Path) :
    let session := Session.start files { config with cache := .off }
    let edges := fun policy path => (file grammar policy session path).1
    let index := fun policy => (analyze grammar { config with resolution := policy } session roots).1
    (∀ policy, index policy = DependencyIndex.empty.extend
      ((Scan.roots files config roots).flatMap fun found => edges policy found.path)) ∧
    (∀ key ∈ (index .strict).targets, files.isFile key = true) ∧
    (∀ path, ((edges .strict path).map (·.2.position)).Sublist
      ((edges .lenient path).map (·.2.position))) ∧
    ((∀ found ∈ Scan.roots files config roots, ∀ text syntaxOf,
        Source.read files found.path = .ok text →
          Source.fileSyntax grammar found.path text = .ok syntaxOf → syntaxOf.BindsOnce) →
      (∀ target, files.isFile target = true →
        (index .strict).edgesOf target = (index .lenient).edgesOf target) ∧
      (∀ key ∈ (index .lenient).targets, files.isFile key = false →
        ∀ other ∈ (index .strict).targets, key.same other = false) ∧
      (index .strict).buckets = (index .lenient).buckets.filter fun b => files.isFile b.target) := by
  intro session edges index
  have hedges : ∀ policy path, edges policy path = freshEdges grammar policy files path :=
    fun policy path => congrArg Prod.fst (file_uncached grammar policy files path)
  have hindex : ∀ policy, index policy =
      DependencyIndex.empty.extend (scannedEdges grammar config files roots policy) :=
    analyze_policy grammar config files roots
  have hstrict : ∀ key ∈ (index .strict).targets, files.isFile key = true := by
    intro key hkey
    rw [hindex] at hkey
    obtain ⟨pair, hpair, rfl⟩ := DependencyIndex.mem_targets_extend hkey
    exact isFile_of_mem_scannedEdges hpair
  refine ⟨fun policy => ?_, hstrict, fun path => ?_, fun hbinds => ⟨fun target htarget => ?_,
    fun key hkey hnone other hother => ?_, ?_⟩⟩
  · simp only [hindex, hedges, scannedEdges]
  · rw [hedges, hedges]
    exact positions_freshEdges_strict grammar files path
  · rw [hindex, hindex, DependencyIndex.edgesOf_extend, DependencyIndex.edgesOf_extend,
      scannedEdges_strict hbinds, List.filter_filter]
    refine congrArg _ (List.filter_congr fun pair hpair => ?_)
    cases hsame : pair.1.same target with
    | false => rfl
    | true =>
      have hstraight := straight_of_mem_scannedEdges hpair
      rw [FileSystem.isFile_of_same hstraight hsame htarget]
      rfl
  · rw [hindex] at hkey
    obtain ⟨pair, hpair, rfl⟩ := DependencyIndex.mem_targets_extend hkey
    have hstraight := straight_of_mem_scannedEdges hpair
    rw [← Bool.not_eq_true]
    intro hsame
    have hfile := FileSystem.isFile_of_same hstraight hsame (hstrict other hother)
    rw [hnone] at hfile
    cases hfile
  · rw [hindex, hindex, scannedEdges_strict hbinds]
    exact DependencyIndex.buckets_extend_filter files.isFile fun pair => straight_of_mem_scannedEdges

/-- Two imports, of which one is missing, and a call of each. -/
def missingText : String := "import{f}from'./m';import{g}from'./n';f(),g()"

/-- The parse tree of that text. -/
def missingTree : ParseTree where
  root := .node true ⟨"program", none, 0, 45⟩ [
    .node true ⟨"import_statement", none, 0, 19⟩ [
      .node true ⟨"import_clause", none, 6, 9⟩ [
        .node true ⟨"named_imports", none, 6, 9⟩ [
          .node true ⟨"import_specifier", none, 7, 8⟩ [
            .node true ⟨"identifier", some "name", 7, 8⟩ []]]],
      .node true ⟨"string", some "source", 13, 18⟩ []],
    .node true ⟨"import_statement", none, 19, 38⟩ [
      .node true ⟨"import_clause", none, 25, 28⟩ [
        .node true ⟨"named_imports", none, 25, 28⟩ [
          .node true ⟨"import_specifier", none, 26, 27⟩ [
            .node true ⟨"identifier", some "name", 26, 27⟩ []]]],
      .node true ⟨"string", some "source", 32, 37⟩ []],
    .node true ⟨"expression_statement", none, 38, 45⟩ [
      .node true ⟨"sequence_expression", none, 38, 45⟩ [
        .node true ⟨"call_expression", some "left", 38, 41⟩ [
          .node true ⟨"identifier", some "function", 38, 39⟩ [],
          .node true ⟨"arguments", some "arguments", 39, 41⟩ []],
        .node true ⟨"call_expression", some "right", 42, 45⟩ [
          .node true ⟨"identifier", some "function", 42, 43⟩ [],
          .node true ⟨"arguments", some "arguments", 43, 45⟩ []]]]]
  hasError := false

/-- A file with that text beside the one that it does not miss. -/
def missingFiles : FileSystem :=
  ⟨[("a.ts", .file (Text.bytesOf missingText.toList)), ("m.ts", .file [])], []⟩

theorem isFile_missing {p : Path} (hp : p ∈ Resolution.candidates ⟨"/n"⟩) :
    missingFiles.isFile p = false := by
  have hall : Resolution.candidates ⟨"/n"⟩ =
      [⟨"/n.ts"⟩, ⟨"/n.js"⟩, ⟨"/n/index.ts"⟩, ⟨"/n/index.js"⟩] := by decide +kernel
  simp only [hall, List.mem_cons, List.not_mem_nil, or_false] at hp
  rcases hp with rfl | rfl | rfl | rfl
  · exact FileSystem.isFile_top_none "n.ts" ⟨[], by decide⟩ rfl
  · exact FileSystem.isFile_top_none "n.js" ⟨[], by decide⟩ rfl
  · exact FileSystem.isFile_top_none "n" ⟨[.name "index.ts"], by decide⟩ rfl
  · exact FileSystem.isFile_top_none "n" ⟨[.name "index.js"], by decide⟩ rfl

/-- The lenient index has a key for the missing file, and the strict one has not. -/
theorem strict_lenient_missing :
    let index := fun policy => (analyze (fun _ _ => some missingTree)
      { Config.standard with resolution := policy } (Session.start missingFiles Config.standard)
      [⟨"/a.ts"⟩]).1
    let found : Bucket := ⟨⟨"/m.ts"⟩, [⟨⟨"/a.ts"⟩, ⟨0, 38⟩, "f", none⟩]⟩
    let missed : Bucket := ⟨⟨"/n.ts"⟩, [⟨⟨"/a.ts"⟩, ⟨0, 42⟩, "g", none⟩]⟩
    (index .lenient).buckets = [found, missed] ∧ (index .strict).buckets = [found] := by
  intro index found missed
  have hfind : missingFiles.find ⟨"/a.ts"⟩ =
      .ok (["a.ts"], .file (Text.bytesOf missingText.toList)) :=
    FileSystem.find_top "a.ts" rfl (by decide +kernel) rfl
  have hscan : Scan.roots missingFiles Config.standard [⟨"/a.ts"⟩] = [⟨⟨"/a.ts"⟩, .typescript⟩] := by
    simp only [Scan.roots, List.flatMap_cons, List.flatMap_nil, Scan.root_of_find hfind]
    decide +kernel
  have hread : Source.read missingFiles ⟨"/a.ts"⟩ = .ok missingText := by
    rw [Source.read, FileSystem.read, hfind]
    decide +kernel
  have hparsed : Source.fileSyntax (fun _ _ => some missingTree) ⟨"/a.ts"⟩ missingText =
      .ok ⟨[⟨"./m", ["f"]⟩, ⟨"./n", ["g"]⟩], [⟨"f", ⟨0, 38⟩, none⟩, ⟨"g", ⟨0, 42⟩, none⟩]⟩ :=
    Source.fileSyntax_eq_ok.2 ⟨.typescript, missingTree, by decide +kernel, rfl, by decide +kernel⟩
  have hm : missingFiles.isFile ⟨"/m.ts"⟩ = true := by
    rw [FileSystem.isFile, FileSystem.find_top "m.ts" rfl (by decide +kernel) rfl]
  have hn : missingFiles.isFile ⟨"/n.ts"⟩ = false := isFile_missing List.mem_cons_self
  have hresolve : Resolution.resolve missingFiles .lenient "./m" ⟨"/a.ts"⟩ = some ⟨"/m.ts"⟩ ∧
      Resolution.resolve missingFiles .lenient "./n" ⟨"/a.ts"⟩ = some ⟨"/n.ts"⟩ := by
    have hmbase : Resolution.base? "./m" ⟨"/a.ts"⟩ = some ⟨"/m"⟩ := by decide +kernel
    have hnbase : Resolution.base? "./n" ⟨"/a.ts"⟩ = some ⟨"/n"⟩ := by decide +kernel
    have hnfind : (Resolution.candidates ⟨"/n"⟩).find? missingFiles.isFile = none := by
      rw [List.find?_eq_none]
      intro p hp
      rw [isFile_missing hp]
      exact Bool.false_ne_true
    constructor
    · exact Resolution.resolve_of_isFile (by decide) hmbase hm
    · rw [Resolution.resolve, if_pos (by decide), hnbase, Option.bind_some, hnfind]
      rfl
  have hedges : freshEdges (fun _ _ => some missingTree) .lenient missingFiles ⟨"/a.ts"⟩ =
      [(⟨"/m.ts"⟩, ⟨⟨"/a.ts"⟩, ⟨0, 38⟩, "f", none⟩), (⟨"/n.ts"⟩, ⟨⟨"/a.ts"⟩, ⟨0, 42⟩, "g", none⟩)] := by
    simp [freshEdges, hread, Except.bind, hparsed, edgesOfSyntax_eq, ImportTable.meaning?, hresolve]
  obtain ⟨_, _, _, hstrict⟩ :=
    strict_lenient (fun _ _ => some missingTree) Config.standard missingFiles [⟨"/a.ts"⟩]
  have hlenient : (index .lenient).buckets = [found, missed] := by
    change (analyze _ _ ⟨missingFiles, none⟩ _).1.buckets = _
    rw [analyze_policy, scannedEdges, hscan, List.flatMap_singleton, hedges]
    decide +kernel
  have hbinds : ∀ other ∈ Scan.roots missingFiles Config.standard [⟨"/a.ts"⟩], ∀ text syntaxOf,
      Source.read missingFiles other.path = .ok text →
        Source.fileSyntax (fun _ _ => some missingTree) other.path text = .ok syntaxOf →
          syntaxOf.BindsOnce := by
    intro other hother text syntaxOf hok hsyntaxOf
    rw [hscan] at hother
    obtain rfl := List.mem_singleton.1 hother
    rw [hread] at hok
    cases hok
    rw [hparsed] at hsyntaxOf
    cases hsyntaxOf
    exact List.pairwise_pair.2 (by simp)
  refine ⟨hlenient, ((hstrict hbinds).2.2).trans ?_⟩
  change (index .lenient).buckets.filter _ = _
  rw [hlenient]
  simp [found, missed, hm, hn]

end Analysis

end Dependents
