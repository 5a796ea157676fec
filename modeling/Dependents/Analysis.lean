import Dependents.Cache.Basic
import Dependents.DependencyIndex
import Dependents.Digest.Content
import Dependents.ImportTable
import Dependents.Scan
import Dependents.Source

/-! The dependency index of a workspace: every source file contributes the edges of its own calls.
What lasts from one build to the next is the cache, which knows nothing but the syntax of texts. -/
namespace Dependents

structure Session where
  files : FileSystem
  cache : Option SyntaxCache

namespace Session

def start (files : FileSystem) (config : Config)
    (evict : Eviction := SyntaxCache.firstKey) : Session :=
  let (cache, files) := SyntaxCache.ofMode files config.cache evict
  ⟨files, cache⟩

def lookup (s : Session) (path : Path) (text : String) : Option FileSyntax × Session :=
  match s.cache with
  | none => (none, s)
  | some cache =>
    let (found, cache) := cache.get s.files path (Digest.content text)
    (found, { s with cache := some cache })

/-- Keeps the syntax of a file's text in the cache. A cache that refuses it is no reason to stop. -/
def keep (s : Session) (path : Path) (text : String) (syntaxOf : FileSyntax) : Session :=
  match s.cache with
  | none => s
  | some cache =>
    let (_, cache, files) := cache.store s.files path (Digest.content text) syntaxOf
    ⟨files, some cache⟩

/-- The syntax of a file's text: from the cache if it is there, else parsed and kept. -/
def syntaxOfText (grammar : Grammar) (s : Session) (path : Path) (text : String) :
    Except AnalysisError FileSyntax × Session :=
  match s.lookup path text with
  | (some found, s) => (.ok found, s)
  | (none, s) =>
    match Source.fileSyntax grammar path text with
    | .ok parsed => (.ok parsed, s.keep path text parsed)
    | .error e => (.error e, s)

def syntaxOfFile (grammar : Grammar) (s : Session) (path : Path) :
    Except AnalysisError FileSyntax × Session :=
  match Source.read s.files path with
  | .ok text => s.syntaxOfText grammar path text
  | .error e => (.error e, s)

end Session

namespace Analysis

/-- The edges that a file's syntax makes, each with the file it leads to. -/
def edgesOfSyntax (files : FileSystem) (policy : ResolutionPolicy) (path : Path)
    (syntaxOf : FileSyntax) : List (Path × Edge) :=
  let table := ImportTable.ofDeclarations (Resolution.resolve files policy · path) syntaxOf.imports
  table.edges path syntaxOf.callSites

/-- The edges of one file. A file that cannot be read or parsed has none. -/
def file (grammar : Grammar) (policy : ResolutionPolicy) (s : Session) (path : Path) :
    List (Path × Edge) × Session :=
  match s.syntaxOfFile grammar path with
  | (.ok syntaxOf, s) => (edgesOfSyntax s.files policy path syntaxOf, s)
  | (.error _, s) => ([], s)

def fileList (grammar : Grammar) (policy : ResolutionPolicy) (s : Session) :
    List Path → List (Path × Edge) × Session
  | [] => ([], s)
  | path :: paths =>
    let (edges, s) := file grammar policy s path
    let (more, s) := fileList grammar policy s paths
    (edges ++ more, s)

def analyze (grammar : Grammar) (config : Config) (s : Session) (roots : List Path) :
    DependencyIndex × Session :=
  let found := Scan.roots s.files config roots
  let (pairs, s) := fileList grammar config.resolution s (found.map (·.path))
  (DependencyIndex.empty.extend pairs, s)

end Analysis

end Dependents
