import Dependents.Analysis
import Dependents.Proofs.Walk
import Mathlib.Data.List.Basic

/-! A build without a cache: every file contributes what its own text says, and nothing is carried
from one file to the next. -/
namespace Dependents

namespace Source

variable {grammar : Grammar} {path other : Path} {text : String} {syntaxOf : FileSyntax}

theorem fileSyntax_eq_ok : fileSyntax grammar path text = .ok syntaxOf ↔
    ∃ language parsed, Language.ofPath? path = some language ∧ grammar language text = some parsed ∧
      FileSyntax.ofTree (SyntaxTree.ofParseTree parsed text) = syntaxOf := by
  simp only [fileSyntax, parse, Source.language]
  cases Language.ofPath? path with
  | none => simp [bind, Except.bind, Except.map]
  | some language =>
    cases hg : grammar language text with
    | none => simp [hg, bind, Except.bind, Except.map, throw, throwThe, MonadExceptOf.throw]
    | some parsed => simp [hg, bind, Except.bind, Except.map, pure, Except.pure]

/-- The syntax of a text depends on the place it is read at, not on how the path is spelled. -/
theorem fileSyntax_congr (h : path.components = other.components)
    (hs : fileSyntax grammar path text = .ok syntaxOf) :
    fileSyntax grammar other text = .ok syntaxOf := by
  have hlanguage : Language.ofPath? other = Language.ofPath? path := by
    simp only [Language.ofPath?, Path.extension?, Path.fileName?, Path.last?, h]
  rw [fileSyntax_eq_ok] at hs ⊢
  rwa [hlanguage]

end Source

/-- A root that leads to a file stands for that file alone. -/
theorem Scan.root_of_find {fs : FileSystem} {config : Config} {path : Path} {names : List String}
    {content : List UInt8} (h : fs.find path = .ok (names, .file content)) :
    root fs config path = (sourceFile? config (Path.ofNames names)).toList := by
  rw [root, files, h, List.filterMap_cons, List.filterMap_nil]
  cases sourceFile? config (Path.ofNames names) <;> rfl

namespace Resolution

variable {fs : FileSystem} {policy : ResolutionPolicy} {specifier : String} {importer base : Path}

/-- The first candidate is taken wherever it is a file. -/
theorem resolve_of_isFile (hrelative : isRelative specifier = true)
    (hbase : base? specifier importer = some base) (hfile : fs.isFile (base.withSuffix ".ts") = true) :
    resolve fs policy specifier importer = some (base.withSuffix ".ts") := by
  have hfind : (candidates base).find? fs.isFile = some (base.withSuffix ".ts") :=
    List.find?_cons_of_pos hfile
  rw [resolve, if_pos hrelative, hbase, Option.bind_some, hfind]

/-- Where no candidate is a file, a strict policy finds none. -/
theorem resolve_of_no_file (hbase : base? specifier importer = some base)
    (hnone : ∀ q ∈ candidates base, fs.isFile q = false) :
    resolve fs .strict specifier importer = none := by
  have hfind : (candidates base).find? fs.isFile = none :=
    List.find?_eq_none.2 fun q hq => by simp [hnone q hq]
  rw [resolve]
  split
  · rw [hbase, Option.bind_some, hfind]
  · rfl

end Resolution

namespace Analysis

variable {grammar : Grammar} {policy : ResolutionPolicy} {files : FileSystem} {path : Path}

theorem sourceRead_eq_ok {text : String} : Source.read files path = .ok text ↔
    ∃ content, files.read path = .ok content ∧ Text.decodeLossy content = text := by
  unfold Source.read
  cases files.read path <;> simp

/-- The edges of one file, each with the file it leads to, when its text is read and parsed anew. -/
def freshEdges (grammar : Grammar) (policy : ResolutionPolicy) (files : FileSystem) (path : Path) :
    List (Path × Edge) :=
  match (Source.read files path).bind (Source.fileSyntax grammar path) with
  | .ok syntaxOf => edgesOfSyntax files policy path syntaxOf
  | .error _ => []

theorem file_uncached (grammar : Grammar) (policy : ResolutionPolicy) (files : FileSystem)
    (path : Path) :
    file grammar policy ⟨files, none⟩ path = (freshEdges grammar policy files path, ⟨files, none⟩) := by
  unfold file freshEdges Session.syntaxOfFile
  cases Source.read files path with
  | error e => rfl
  | ok text =>
    simp only [Session.syntaxOfText, Session.lookup, Except.bind]
    cases Source.fileSyntax grammar path text <;> rfl

theorem fileList_uncached (grammar : Grammar) (policy : ResolutionPolicy) (files : FileSystem)
    (paths : List Path) :
    fileList grammar policy ⟨files, none⟩ paths =
      (paths.flatMap (freshEdges grammar policy files), ⟨files, none⟩) := by
  induction paths with
  | nil => rfl
  | cons path paths ih =>
    rw [fileList, file_uncached]
    simp only [ih, List.flatMap_cons]

/-- The index of a build without a cache: the fresh edges of all files, filed in the order in which
the files were found. -/
theorem analyze_uncached (grammar : Grammar) (config : Config) (files : FileSystem)
    (roots : List Path) :
    (analyze grammar config ⟨files, none⟩ roots).1 =
      DependencyIndex.empty.extend
        (((Scan.roots files config roots).map (·.path)).flatMap
          (freshEdges grammar config.resolution files)) := by
  rw [analyze, fileList_uncached]

/-- Two calls of an imported name. -/
def callsText : String := "import{f}from'./m';f(),f()"

def callsTree : ParseTree where
  root := .node true ⟨"program", none, 0, 26⟩ [
    .node true ⟨"import_statement", none, 0, 19⟩ [
      .node true ⟨"import_clause", none, 6, 9⟩ [
        .node true ⟨"named_imports", none, 6, 9⟩ [
          .node true ⟨"import_specifier", none, 7, 8⟩ [
            .node true ⟨"identifier", some "name", 7, 8⟩ []]]],
      .node true ⟨"string", some "source", 13, 18⟩ []],
    .node true ⟨"expression_statement", none, 19, 26⟩ [
      .node true ⟨"sequence_expression", none, 19, 26⟩ [
        .node true ⟨"call_expression", some "left", 19, 22⟩ [
          .node true ⟨"identifier", some "function", 19, 20⟩ [],
          .node true ⟨"arguments", some "arguments", 20, 22⟩ []],
        .node false ⟨",", none, 22, 23⟩ [],
        .node true ⟨"call_expression", some "right", 23, 26⟩ [
          .node true ⟨"identifier", some "function", 23, 24⟩ [],
          .node true ⟨"arguments", some "arguments", 24, 26⟩ []]]]]
  hasError := false

def callsSyntax : FileSyntax :=
  ⟨[⟨"./m", ["f"]⟩], [⟨"f", ⟨0, 19⟩, none⟩, ⟨"f", ⟨0, 23⟩, none⟩]⟩

/-- The edges of a file with that text, if what it imports from is there. -/
def callsEdges (path : Path) : List (Path × Edge) :=
  [(⟨"/m.ts"⟩, ⟨path, ⟨0, 19⟩, "f", none⟩), (⟨"/m.ts"⟩, ⟨path, ⟨0, 23⟩, "f", none⟩)]

/-- Parsers to which any other text is an empty program. -/
def callsGrammar : Grammar := fun _ text =>
  some (if text = callsText then callsTree else ⟨.node true ⟨"program", none, 0, 0⟩ [], false⟩)

theorem decodeLossy_callsText : Text.decodeLossy (Text.bytesOf callsText.toList) = callsText := by
  decide +kernel

theorem fileSyntax_calls {language : Language} (hlanguage : Language.ofPath? path = some language) :
    Source.fileSyntax callsGrammar path callsText = .ok callsSyntax :=
  Source.fileSyntax_eq_ok.2 ⟨language, callsTree, hlanguage, rfl, by decide +kernel⟩

theorem fileSyntax_empty {language : Language} (hlanguage : Language.ofPath? path = some language) :
    Source.fileSyntax callsGrammar path "" = .ok ⟨[], []⟩ :=
  Source.fileSyntax_eq_ok.2 ⟨language, _, hlanguage, rfl, by decide +kernel⟩

theorem edgesOfSyntax_calls (hfile : files.isFile ⟨"/m.ts"⟩ = true)
    (hbase : Resolution.base? "./m" path = some ⟨"/m"⟩) :
    edgesOfSyntax files policy path callsSyntax = callsEdges path := by
  have hresolve : Resolution.resolve files policy "./m" path = some ⟨"/m.ts"⟩ :=
    Resolution.resolve_of_isFile (by decide) hbase hfile
  simp [edgesOfSyntax, callsSyntax, callsEdges, ImportTable.ofDeclarations, ImportTable.declare,
    hresolve, ImportTable.edges, ImportTable.edge?, ImportTable.insert, ImportTable.empty,
    ImportTable.get?]

theorem edgesOfSyntax_calls_missing (hbase : Resolution.base? "./m" path = some ⟨"/m"⟩)
    (hnone : ∀ q ∈ Resolution.candidates ⟨"/m"⟩, files.isFile q = false) :
    edgesOfSyntax files .strict path callsSyntax = [] := by
  have hresolve : Resolution.resolve files .strict "./m" path = none :=
    Resolution.resolve_of_no_file hbase hnone
  simp [edgesOfSyntax, callsSyntax, ImportTable.ofDeclarations, ImportTable.declare, hresolve,
    ImportTable.edges, ImportTable.edge?, ImportTable.empty, ImportTable.get?]

theorem freshEdges_calls {language : Language} (hread : Source.read files path = .ok callsText)
    (hlanguage : Language.ofPath? path = some language) (hfile : files.isFile ⟨"/m.ts"⟩ = true)
    (hbase : Resolution.base? "./m" path = some ⟨"/m"⟩) :
    freshEdges callsGrammar policy files path = callsEdges path := by
  simp only [freshEdges, hread, Except.bind, fileSyntax_calls hlanguage]
  exact edgesOfSyntax_calls hfile hbase

/-- Two files with that text, the file they import from, and an empty directory. -/
def twoCallers : FileSystem :=
  ⟨[("c", .dir []), ("a.ts", .file (Text.bytesOf callsText.toList)),
    ("b.ts", .file (Text.bytesOf callsText.toList)), ("m.ts", .file [])], []⟩

theorem root_twoCallers {path : Path} (hpath : path = ⟨"/b.ts"⟩ ∨ path = ⟨"/a.ts"⟩) :
    Scan.root twoCallers Config.standard path = [⟨path, .typescript⟩] := by
  rcases hpath with rfl | rfl
  · rw [Scan.root_of_find (FileSystem.find_top "b.ts" rfl (by decide) rfl)]
    decide
  · rw [Scan.root_of_find (FileSystem.find_top "a.ts" rfl (by decide) rfl)]
    decide

theorem roots_twoCallers : Scan.roots twoCallers Config.standard [⟨"/a.ts"⟩, ⟨"/b.ts"⟩] =
    [⟨⟨"/a.ts"⟩, .typescript⟩, ⟨⟨"/b.ts"⟩, .typescript⟩] := by
  simp only [Scan.roots, List.flatMap_cons, List.flatMap_nil, root_twoCallers (.inl rfl),
    root_twoCallers (.inr rfl)]
  decide

theorem read_twoCallers {path : Path} (hpath : path = ⟨"/b.ts"⟩ ∨ path = ⟨"/a.ts"⟩) :
    Source.read twoCallers path = .ok callsText := by
  have hread : twoCallers.read path = .ok (Text.bytesOf callsText.toList) := by
    rcases hpath with rfl | rfl
    · rw [FileSystem.read, FileSystem.find_top "b.ts" rfl (by decide) rfl]
    · rw [FileSystem.read, FileSystem.find_top "a.ts" rfl (by decide) rfl]
  rw [sourceRead_eq_ok]
  exact ⟨_, hread, decodeLossy_callsText⟩

theorem isFile_twoCallers : twoCallers.isFile ⟨"/m.ts"⟩ = true := by
  rw [FileSystem.isFile, FileSystem.find_top "m.ts" rfl (by decide) rfl]

theorem base?_twoCallers {path : Path} (hpath : path = ⟨"/b.ts"⟩ ∨ path = ⟨"/a.ts"⟩) :
    Resolution.base? "./m" path = some ⟨"/m"⟩ := by
  rcases hpath with rfl | rfl <;> decide

theorem freshEdges_twoCallers {path : Path} (hpath : path = ⟨"/b.ts"⟩ ∨ path = ⟨"/a.ts"⟩) :
    freshEdges callsGrammar Config.standard.resolution twoCallers path = callsEdges path := by
  have hlanguage : Language.ofPath? path = some .typescript := by
    rcases hpath with rfl | rfl <;> decide
  exact freshEdges_calls (read_twoCallers hpath) hlanguage isFile_twoCallers (base?_twoCallers hpath)

end Analysis

end Dependents
