import Dependents.FileSyntax
import Dependents.FileSystem.Basic
import Dependents.Language
import Dependents.Text.Utf8

/-! Reading and parsing source files, with parsers given from outside. -/
namespace Dependents

/-- What the parsers make of a text in each language. -/
abbrev Grammar := Language → String → Option ParseTree

namespace Source

/-- The text of a source file. A stray byte does not hide the rest of it. -/
def read (fs : FileSystem) (path : Path) : Except AnalysisError String :=
  match fs.read path with
  | .ok bytes => .ok (Text.decodeLossy bytes)
  | .error e => .error (.io path e)

def readText (fs : FileSystem) (path : Path) : Except AnalysisError String :=
  match fs.read path with
  | .ok bytes =>
    match Text.decode? bytes with
    | some text => .ok text
    | none => .error (.io path .notUtf8)
  | .error e => .error (.io path e)

def language (path : Path) : Except AnalysisError Language :=
  match Language.ofPath? path with
  | some language => .ok language
  | none => .error (.unsupportedLanguage path)

def parse (grammar : Grammar) (path : Path) (text : String) : Except AnalysisError SyntaxTree := do
  let language ← language path
  match grammar language text with
  | some parsed => return SyntaxTree.ofParseTree parsed text
  | none => throw (.parse path)

/-- Reads and parses a file. The language is settled before the file is read. -/
def parseFile (grammar : Grammar) (fs : FileSystem) (path : Path) :
    Except AnalysisError SyntaxTree := do
  let _ ← language path
  parse grammar path (← read fs path)

def fileSyntax (grammar : Grammar) (path : Path) (text : String) : Except AnalysisError FileSyntax :=
  (parse grammar path text).map FileSyntax.ofTree

end Source

end Dependents
