import Dependents.Analysis
import Dependents.CommandLine.Arguments
import Dependents.Query
import Dependents.Report.Json
import Dependents.Report.Text

/-! What the command line does: it builds the index of the input roots and prints it, or the report on
one target. -/
namespace Dependents.CommandLine

/-- Why a run fails: the messages from the outermost to the innermost. -/
abbrev Chain := List String

def loadConfig (files : FileSystem) (path : Path) : Except AnalysisError Config := do
  Config.ofText path (← Source.readText files path)

def bareExtension (s : String) : String :=
  String.ofList ((Text.trimBlank s.toList).dropWhile (· == '.'))

/-- The settings of a run: those of the configuration file, if there is one, changed by what the
arguments say. -/
def config (files : FileSystem) (args : Arguments) : Except AnalysisError Config := do
  let given ← match args.config with
    | some path => loadConfig files path
    | none => pure Config.standard
  let config := { given with
    resolution := args.resolution.getD given.resolution
    includeExtensions := match args.extensions with
      | some extensions => (extensions.map bareExtension).filter (!·.isEmpty)
      | none => given.includeExtensions
    excludeDirs := match args.exclude with
      | some dirs => (dirs.map Text.trim).filter (!·.isEmpty)
      | none => given.excludeDirs
    cache := match args.cacheDir with
      | some dir => .disk dir
      | none => given.cache }
  config.validate
  return config

/-- The target as the index names it. A file that is not there is looked up by its lexical path. -/
def resolveTarget (files : FileSystem) (target : Path) : Path :=
  match files.canonicalize target with
  | .ok canonical => canonical
  | .error _ => (files.absolute target).normalize

def cursorOffset (tree : SyntaxTree) (target : Path) (args : Arguments) : Except Chain (Option Nat) :=
  match args.offset, args.cursor with
  | some offset, _ => .ok (some offset)
  | none, some position =>
    match tree.offsetOf position with
    | some offset => .ok (some offset)
    | none => .error [position.location ++ " is outside " ++ target.text]
  | none, none => .ok none

def report (grammar : Grammar) (files : FileSystem) (args : Arguments) (index : DependencyIndex)
    (target : Path) : Except Chain Report :=
  if args.offset.isNone ∧ args.cursor.isNone then .ok (.ofIndex index target args.function)
  else
    match Source.parseFile grammar files target with
    | .error e => .error (("failed to parse " ++ target.text) :: e.chain)
    | .ok tree => do
      match (← cursorOffset tree target args) with
      | some offset =>
        let answer := index.atOffset tree target offset
        return ⟨target, answer.function.map (·.name), answer.edges⟩
      | none => return .ofIndex index target args.function

def render (grammar : Grammar) (files : FileSystem) (args : Arguments) (index : DependencyIndex)
    (target : Option Path) : Except Chain String := do
  let base := args.inputs.head?.bind fun root => (files.canonicalize root).toOption
  match target, args.format.getD .text with
  | some target, .text => return (← report grammar files args index target).text base
  | some target, .json =>
    return (← report grammar files args index target).toJson.render .indented ++ "\n"
  | none, .text => return Report.indexText base index
  | none, .json => return index.toJson.render .indented ++ "\n"

def checkTarget (target : Option Path) : Except Chain Unit :=
  match target with
  | some target =>
    if (Language.ofPath? target).isNone then
      .error ["codescope only supports JavaScript and TypeScript files: " ++ target.text]
    else .ok ()
  | none => .ok ()

/-- Writes the text of a run where it belongs. What is left to print is returned. -/
def deliver (files : FileSystem) (args : Arguments) (text : String) :
    Except Chain (String × FileSystem) :=
  match args.output with
  | none => .ok (text, files)
  | some path =>
    match files.write path (Text.utf8 text) with
    | .ok files => .ok ("", files)
    | .error e => .error ["failed to write " ++ path.text, e.message]

/-- Runs the command line: what it prints, or why it fails, and the files afterwards. -/
def run (grammar : Grammar) (files : FileSystem) (args : Arguments) :
    Except Chain String × FileSystem :=
  match config files args with
  | .error e => (.error e.chain, files)
  | .ok config =>
    let target := args.target.map (resolveTarget files)
    match checkTarget target with
    | .error chain => (.error chain, files)
    | .ok () =>
      -- The cache may have written files by now, and a later failure does not undo that.
      let (index, session) := Analysis.analyze grammar config (Session.start files config) args.inputs
      match render grammar session.files args index target with
      | .error chain => (.error chain, session.files)
      | .ok text =>
        match deliver session.files args text with
        | .error chain => (.error chain, session.files)
        | .ok (printed, files) => (.ok printed, files)

end Dependents.CommandLine
