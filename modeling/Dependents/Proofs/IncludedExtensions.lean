import Dependents.Proofs.ContentEdits
import Dependents.Proofs.FirstOccurrences
import Dependents.Proofs.Policies

/-! Including more extensions. The narrower index is the wider one without the edges of the files that
only the wider scan finds. -/
namespace Dependents

open Dependents.Path

/-- Whether a path has one of some extensions. -/
def Path.hasExtension (extensions : List String) (p : Path) : Bool :=
  p.extension?.any extensions.contains

theorem Path.hasExtension_of_same {p q : Path} (extensions : List String) (h : p.same q = true) :
    p.hasExtension extensions = q.hasExtension extensions := by
  rw [hasExtension, hasExtension, extension?, extension?, fileName?, fileName?, last?, last?,
    same_iff.1 h]

namespace Scan

variable {fs : FileSystem} {config : Config} {narrow wide : List String}

theorem sourceFile?_narrow (h : ∀ extension ∈ narrow, extension ∈ wide) (path : Path) :
    sourceFile? { config with includeExtensions := narrow } path =
      (sourceFile? { config with includeExtensions := wide } path).filter
        fun found => found.path.hasExtension narrow := by
  ext found
  rw [Option.filter_eq_some_iff, sourceFile?_eq_some, sourceFile?_eq_some]
  constructor
  · rintro ⟨rfl, extension, hextension, hnarrow, hlanguage⟩
    refine ⟨⟨rfl, extension, hextension, h extension hnarrow, hlanguage⟩, ?_⟩
    simpa [hasExtension, hextension] using hnarrow
  · rintro ⟨⟨rfl, extension, hextension, _, hlanguage⟩, hkept⟩
    refine ⟨rfl, extension, hextension, ?_, hlanguage⟩
    simpa [hasExtension, hextension] using hkept

theorem root_narrow (h : ∀ extension ∈ narrow, extension ∈ wide) (path : Path) :
    root fs { config with includeExtensions := narrow } path =
      (root fs { config with includeExtensions := wide } path).filter
        fun found => found.path.hasExtension narrow := by
  have hfiles : files fs { config with includeExtensions := narrow } =
      files fs { config with includeExtensions := wide } := files_congr rfl rfl
  rw [root, root, hfiles, List.filter_filterMap]
  exact List.filterMap_congr fun found _ => sourceFile?_narrow h found

/-- A narrower scan finds the files with one of its extensions among those that a wider scan finds. -/
theorem roots_narrow (h : ∀ extension ∈ narrow, extension ∈ wide) (roots : List Path) :
    Scan.roots fs { config with includeExtensions := narrow } roots =
      (Scan.roots fs { config with includeExtensions := wide } roots).filter
        fun found => found.path.hasExtension narrow := by
  have hroot : root fs { config with includeExtensions := narrow } = fun path =>
      (root fs { config with includeExtensions := wide } path).filter
        fun found => found.path.hasExtension narrow := funext (root_narrow h)
  rw [Scan.roots, Scan.roots, hroot, ← List.filter_flatMap]
  exact firstOfEach_filter _ _ fun a _ b _ hsame => hasExtension_of_same narrow hsame

end Scan

namespace DependencyIndex

variable {keep : Edge → Bool} {target : Path} {b : Bucket} {bs : List Bucket}
  {pairs : List (Path × Edge)}

/-- Buckets of some of their edges. One of which nothing is left goes. -/
def restrict (keep : Edge → Bool) (buckets : List Bucket) : List Bucket :=
  (buckets.map fun b => ⟨b.target, b.edges.filter keep⟩).filter fun b => !b.edges.isEmpty

theorem restrict_cons (keep : Edge → Bool) (b : Bucket) (bs : List Bucket) :
    restrict keep (b :: bs) = if b.edges.filter keep = [] then restrict keep bs
      else ⟨b.target, b.edges.filter keep⟩ :: restrict keep bs := by
  rw [restrict, List.map_cons, List.filter_cons]
  cases hkept : b.edges.filter keep with
  | nil => rfl
  | cons e es => rfl

theorem exists_of_mem_restrict (h : b ∈ restrict keep bs) : ∃ c ∈ bs, b.target = c.target := by
  obtain ⟨c, hc, rfl⟩ := List.mem_map.1 (List.mem_of_mem_filter h)
  exact ⟨c, hc, rfl⟩

/-- A new bucket in front is left out with its edge. -/
theorem restrict_insertEdge_of_lt (keep : Edge → Bool) (edge : Edge)
    (h : ∀ b ∈ bs, target.order b.target = .lt) :
    restrict keep (insertEdge target edge bs) =
      if keep edge then insertEdge target edge (restrict keep bs) else restrict keep bs := by
  have hkept : ∀ b ∈ restrict keep bs, target.order b.target = .lt := by
    intro b hb
    obtain ⟨c, hc, heq⟩ := exists_of_mem_restrict hb
    rw [heq]
    exact h c hc
  rw [insertEdge_of_lt h, insertEdge_of_lt hkept, restrict_cons]
  cases hkeep : keep edge <;> simp [hkeep]

/-- Filing an edge and then leaving edges out comes to leaving them out and then filing the edge, if it is
kept. -/
theorem restrict_insertEdge (keep : Edge → Bool) (edge : Edge) (h : Sorted bs)
    (hsame : ∀ b ∈ bs, target.same b.target = true → target = b.target) :
    restrict keep (insertEdge target edge bs) =
      if keep edge then insertEdge target edge (restrict keep bs) else restrict keep bs := by
  induction bs with
  | nil => exact restrict_insertEdge_of_lt keep edge fun _ hb => absurd hb List.not_mem_nil
  | cons b bs ih =>
    obtain ⟨hb, hbs⟩ := List.pairwise_cons.1 h
    cases horder : target.order b.target with
    | lt =>
      apply restrict_insertEdge_of_lt
      intro c hc
      rcases List.mem_cons.1 hc with rfl | hc
      · exact horder
      · exact order_trans horder (hb c hc)
    | eq =>
      obtain rfl := hsame b List.mem_cons_self (order_eq_iff.1 horder)
      simp only [insertEdge, horder, restrict_cons, List.filter_append]
      by_cases hkept : b.edges.filter keep = []
      · -- The bucket is gone, so the edge opens it anew.
        have hfront := restrict_insertEdge_of_lt keep edge hb
        rw [insertEdge_of_lt hb, restrict_cons] at hfront
        simpa [hkept] using hfront
      · cases hkeep : keep edge <;> simp [hkept, hkeep, insertEdge, horder]
    | gt =>
      have hrest := ih hbs fun c hc => hsame c (List.mem_cons_of_mem b hc)
      simp only [insertEdge, horder, restrict_cons, hrest]
      by_cases hkept : b.edges.filter keep = []
      · simp only [hkept, if_true]
      · cases keep edge <;> simp [hkept, insertEdge, horder]

/-- Filing fewer edges makes an index with fewer edges, each where it was. -/
theorem buckets_extend_restrict (keep : Edge → Bool) (hpairs : ∀ pair ∈ pairs, pair.1.Straight) :
    (empty.extend (pairs.filter fun pair => keep pair.2)).buckets =
      restrict keep (empty.extend pairs).buckets :=
  buckets_extend_view (fun edge => restrict_insertEdge keep edge) empty empty rfl .nil
    (fun _ hb => absurd hb List.not_mem_nil) hpairs

end DependencyIndex

namespace Analysis

variable {grammar : Grammar} {policy : ResolutionPolicy} {files : FileSystem} {roots : List Path}
  {narrow wide : List String}

theorem filter_freshEdges (keep : Path → Bool) (path : Path) :
    ((freshEdges grammar policy files path).filter fun pair => keep pair.2.dependent) =
      if keep path then freshEdges grammar policy files path else [] := by
  split
  · rename_i hkeep
    refine List.filter_eq_self.2 fun pair hpair => ?_
    rwa [dependent_of_mem_freshEdges hpair]
  · rename_i hkeep
    refine List.filter_eq_nil_iff.2 fun pair hpair => ?_
    rwa [dependent_of_mem_freshEdges hpair]

/-- A narrower scan drops the edges of the files that it does not find. -/
theorem scannedEdges_narrow (config : Config) (h : ∀ extension ∈ narrow, extension ∈ wide) :
    scannedEdges grammar { config with includeExtensions := narrow } files roots policy =
      (scannedEdges grammar { config with includeExtensions := wide } files roots policy).filter
        fun pair => pair.2.dependent.hasExtension narrow := by
  unfold scannedEdges
  rw [Scan.roots_narrow h]
  induction Scan.roots files { config with includeExtensions := wide } roots with
  | nil => rfl
  | cons found rest ih =>
    rw [List.flatMap_cons, List.filter_append, ← ih, filter_freshEdges, List.filter_cons]
    split
    · rw [List.flatMap_cons]
    · rfl

/-- Every bucket of a build with fewer extensions is the bucket of a build with more, less the edges of
files with an extension besides. -/
theorem fewer_extensions (grammar : Grammar) (config : Config) (files : FileSystem)
    (roots : List Path) (narrow wide : List String) (h : ∀ extension ∈ narrow, extension ∈ wide) :
    let build := fun extensions =>
      let settings := { config with includeExtensions := extensions, cache := .off }
      (analyze grammar settings (Session.start files settings) roots).1
    let kept := fun e : Edge => e.dependent.hasExtension narrow
    (∀ target, (build narrow).edgesOf target = ((build wide).edgesOf target).filter kept) ∧
      (build narrow).buckets = DependencyIndex.restrict kept (build wide).buckets := by
  intro build kept
  have hbuild : ∀ extensions, build extensions = DependencyIndex.empty.extend (scannedEdges grammar
      { config with includeExtensions := extensions, cache := .off } files roots config.resolution) := by
    intro extensions
    exact analyze_scanned grammar { config with includeExtensions := extensions, cache := .off } files roots
  have hnarrow : scannedEdges grammar { config with includeExtensions := narrow, cache := .off } files
        roots config.resolution =
      (scannedEdges grammar { config with includeExtensions := wide, cache := .off } files roots
        config.resolution).filter fun pair => kept pair.2 :=
    scannedEdges_narrow { config with cache := .off } h
  constructor
  · intro target
    rw [hbuild, hbuild, DependencyIndex.edgesOf_extend, DependencyIndex.edgesOf_extend, hnarrow,
      List.filter_map, List.filter_filter, List.filter_filter]
    refine congrArg _ (List.filter_congr fun pair _ => ?_)
    exact Bool.and_comm _ _
  · rw [hbuild, hbuild, hnarrow]
    exact DependencyIndex.buckets_extend_restrict kept fun _ => straight_of_mem_scannedEdges

/-- Two files with the text of a caller, in two languages, and the file they import from. -/
def mixedCallers : FileSystem :=
  ⟨[("a.js", .file (Text.bytesOf callsText.toList)), ("b.ts", .file (Text.bytesOf callsText.toList)),
    ("m.ts", .file [])], []⟩

theorem find_mixedCallers {path : Path} (hpath : path = ⟨"/a.js"⟩ ∨ path = ⟨"/b.ts"⟩) :
    ∃ name, path = ofNames [name] ∧
      mixedCallers.find path = .ok ([name], .file (Text.bytesOf callsText.toList)) := by
  rcases hpath with rfl | rfl
  · exact ⟨"a.js", by decide, FileSystem.find_top "a.js" rfl (by decide) rfl⟩
  · exact ⟨"b.ts", by decide, FileSystem.find_top "b.ts" rfl (by decide) rfl⟩

theorem freshEdges_mixedCallers {path : Path} (hpath : path = ⟨"/a.js"⟩ ∨ path = ⟨"/b.ts"⟩) :
    freshEdges callsGrammar .strict mixedCallers path = callsEdges path := by
  have hread : Source.read mixedCallers path = .ok callsText := by
    obtain ⟨name, _, hfind⟩ := find_mixedCallers hpath
    refine sourceRead_eq_ok.2 ⟨_, ?_, decodeLossy_callsText⟩
    rw [FileSystem.read, hfind]
  have hlanguage : ∃ language, Language.ofPath? path = some language := by
    rw [← Option.isSome_iff_exists]
    rcases hpath with rfl | rfl <;> decide
  have hfile : mixedCallers.isFile ⟨"/m.ts"⟩ = true := by
    rw [FileSystem.isFile, FileSystem.find_top "m.ts" rfl (by decide) rfl]
  have hbase : Resolution.base? "./m" path = some ⟨"/m"⟩ := by
    rcases hpath with rfl | rfl <;> decide
  obtain ⟨language, hlanguage⟩ := hlanguage
  exact freshEdges_calls hread hlanguage hfile hbase

/-- What a build of them with both extensions comes to; one of them is reached twice. -/
theorem buckets_mixedCallers :
    let settings := { Config.standard with includeExtensions := ["js", "ts"] }
    let calls := fun path : Path => ([⟨path, ⟨0, 19⟩, "f", none⟩, ⟨path, ⟨0, 23⟩, "f", none⟩] : List Edge)
    (analyze callsGrammar settings ⟨mixedCallers, none⟩
        [⟨"/a.js"⟩, ⟨"/b.ts"⟩, ⟨"/a.js"⟩]).1.buckets =
      [⟨⟨"/m.ts"⟩, calls ⟨"/a.js"⟩ ++ calls ⟨"/b.ts"⟩⟩] := by
  intro settings calls
  have hroot : ∀ path : Path, path = ⟨"/a.js"⟩ ∨ path = ⟨"/b.ts"⟩ →
      Scan.root mixedCallers settings path = (Scan.sourceFile? settings path).toList := by
    intro path hpath
    obtain ⟨name, hspelled, hfind⟩ := find_mixedCallers hpath
    rw [Scan.root_of_find hfind, hspelled]
  have hscan : Scan.roots mixedCallers settings [⟨"/a.js"⟩, ⟨"/b.ts"⟩, ⟨"/a.js"⟩] =
      [⟨⟨"/a.js"⟩, .javascript⟩, ⟨⟨"/b.ts"⟩, .typescript⟩] := by
    simp only [Scan.roots, List.flatMap_cons, List.flatMap_nil, hroot ⟨"/a.js"⟩ (.inl rfl),
      hroot ⟨"/b.ts"⟩ (.inr rfl)]
    decide
  have hpolicy : settings.resolution = .strict := rfl
  rw [analyze_scanned, scannedEdges, hscan, hpolicy, List.flatMap_cons, List.flatMap_cons,
    List.flatMap_nil, freshEdges_mixedCallers (.inl rfl), freshEdges_mixedCallers (.inr rfl)]
  decide

/-- Without the one extension, the edges of the other file stay in their order. -/
theorem fewer_extensions_mixedCallers :
    let settings := { Config.standard with includeExtensions := ["ts"] }
    (∀ extension ∈ ["ts"], extension ∈ ["js", "ts"]) ∧
      (analyze callsGrammar settings (Session.start mixedCallers settings)
          [⟨"/a.js"⟩, ⟨"/b.ts"⟩, ⟨"/a.js"⟩]).1.buckets =
        [⟨⟨"/m.ts"⟩, [⟨⟨"/b.ts"⟩, ⟨0, 19⟩, "f", none⟩, ⟨⟨"/b.ts"⟩, ⟨0, 23⟩, "f", none⟩]⟩] := by
  intro settings
  have hextensions : ∀ extension ∈ ["ts"], extension ∈ ["js", "ts"] := by decide
  refine ⟨hextensions, ?_⟩
  have hnarrow := (fewer_extensions callsGrammar Config.standard mixedCallers
    [⟨"/a.js"⟩, ⟨"/b.ts"⟩, ⟨"/a.js"⟩] ["ts"] ["js", "ts"] hextensions).2
  refine hnarrow.trans ((congrArg (DependencyIndex.restrict _) buckets_mixedCallers).trans ?_)
  decide

end Analysis

end Dependents
