import Dependents.CommandLine.Run
import Dependents.ParseTree.Dump

/-! The program. It runs on a picture of the files that the arguments speak of, and writes back what
has changed. The parse tree of a source file is the dump beside it, with `.cst` after its name. -/
namespace Dependents.Main

def usageText : CommandLine.UsageFault → String
  | .missingRequiredArgument => "error: a required argument is missing"
  | .argumentConflict => "error: arguments cannot be used together"
  | .invalidValue => "error: a value is missing or not among the possible ones"
  | .valueValidation => "error: a value cannot be read"
  | .unknownArgument => "error: unexpected argument"
  | .tooManyValues => "error: unexpected value"
  | .displayHelp => "Usage: codescope [OPTIONS] --input <PATH> [TARGET]"
  | .displayVersion => "codescope 0.1.0"

def usageCode : CommandLine.UsageFault → UInt32
  | .displayHelp | .displayVersion => 0
  | _ => 2

def failureText : CommandLine.Chain → String
  | [] => "Error"
  | outer :: [] => "Error: " ++ outer
  | [outer, cause] => "Error: " ++ outer ++ "\n\nCaused by:\n    " ++ cause
  | outer :: causes => "Error: " ++ outer ++ "\n\nCaused by:" ++
    String.join (causes.zipIdx.map fun (cause, n) => "\n    " ++ toString n ++ ": " ++ cause)

/-- The places whose files a run may look at. -/
structure Interest where
  /-- Places that count with all that is below them. -/
  below : List Path
  /-- Places that imports name, which count with their neighbours and entries. -/
  beside : List Path

def Interest.keeps (interest : Interest) (p : Path) : Bool :=
  let above := p.parent?.map (·.components)
  interest.below.any (fun q => p.components.isPrefixOf q.components ||
    q.components.isPrefixOf p.components) ||
  interest.beside.any fun q => p.components.isPrefixOf q.components ||
    above == some q.components || above == q.parent?.map (·.components)

partial def picture (interest : Interest) (place : Path) : IO (Option FileNode) := do
  let file := System.mkFilePath [place.text]
  try
    match (← file.symlinkMetadata).type with
    | .symlink => return some (.link ⟨(← IO.FS.realPath file).toString⟩)
    | .file => return some (.file (← IO.FS.readBinFile file).toList)
    | .dir =>
      let mut entries := #[]
      for entry in (← file.readDir) do
        let inner := place.join ⟨entry.fileName⟩
        if interest.keeps inner then
          if let some node ← picture interest inner then
            entries := entries.push (entry.fileName, node)
      return some (.dir entries.toList)
    | .other => return none
  catch _ => return none

structure Parsed where
  path : Path
  language : Language
  text : String
  tree : ParseTree

partial def parsed (place : Path) : FileNode → List Parsed
  | .dir entries => entries.flatMap fun (name, node) =>
    let path := place.join ⟨name⟩
    match node, Language.ofPath? path, (FileNode.dir entries).child? (name ++ ".cst") with
    | .file content, some language, some (.file dump) =>
      (((Text.decode? dump).bind (ParseTree.ofDump? · false)).map
        (Parsed.mk path language (Text.decodeLossy content) ·)).toList
    | _, _, _ => parsed path node
  | _ => []

def Parsed.imported (p : Parsed) : List Path :=
  (FileSyntax.ofTree (SyntaxTree.ofParseTree p.tree p.text)).imports.filterMap fun declaration =>
    if Resolution.isRelative declaration.specifier then
      Resolution.base? declaration.specifier p.path
    else none

partial def targets : FileNode → List Path
  | .link target => [target]
  | .dir entries => entries.flatMap fun entry => targets entry.2
  | .file _ => []

/-- The picture of all that is of interest, with what links and imports lead to from there. -/
partial def gather (interest : Interest) : IO FileNode := do
  let top := (← picture interest ⟨"/"⟩).getD (.dir [])
  let linked := (targets top).filter fun target =>
    !interest.below.any fun place => place.components.isPrefixOf target.components
  let imported := ((parsed ⟨"/"⟩ top).flatMap Parsed.imported).filter fun place =>
    !interest.beside.any fun known => known.components == place.components
  if linked.isEmpty && imported.isEmpty then return top
  else gather ⟨interest.below ++ linked, interest.beside ++ imported⟩

def filesOf (workingDir : Path) (top : FileNode) : FileSystem where
  root := match top with
    | .dir entries => entries
    | _ => []
  workingDir := workingDir.components.filterMap fun
    | .name name => some name
    | _ => none

/-- Writes back what stands at a place after the run, if it differs from before. -/
partial def save (place : Path) (before : Option FileNode) (after : FileNode) : IO Unit := do
  let file := System.mkFilePath [place.text]
  match after with
  | .file content =>
    let same := match before with
      | some (.file old) => old == content
      | _ => false
    unless same do IO.FS.writeBinFile file ⟨content.toArray⟩
  | .dir entries =>
    unless ← file.pathExists do IO.FS.createDir file
    for (name, node) in entries do
      save (place.join ⟨name⟩) (before.bind (·.child? name)) node
  | .link _ => pure ()

def named (args : CommandLine.Arguments) : List Path :=
  args.inputs ++ args.target.toList ++ args.output.toList ++ args.cacheDir.toList ++
    args.config.toList

def runOnFiles (args : CommandLine.Arguments) : IO UInt32 := do
  let workingDir : Path := ⟨(← IO.currentDir).toString⟩
  let whole := fun p => (workingDir.join p).normalize
  let places := (named args).map whole
  let first := filesOf workingDir ((← picture ⟨args.config.toList.map whole, []⟩ ⟨"/"⟩).getD (.dir []))
  let cacheDir := match CommandLine.config first args with
    | .ok { cache := .disk dir, .. } => [whole dir]
    | _ => []
  let top ← gather ⟨places ++ cacheDir, [workingDir]⟩
  let before := filesOf workingDir top
  let trees := parsed ⟨"/"⟩ top
  let grammar : Grammar := fun language text =>
    (trees.find? fun p => p.language == language && p.text == text).map (·.tree)
  let (answer, after) := CommandLine.run grammar before args
  save ⟨"/"⟩ (some before.top) after.top
  match answer with
  | .ok text =>
    IO.print text
    return 0
  | .error chain =>
    IO.eprintln (failureText chain)
    return 1

end Dependents.Main

def main (args : List String) : IO UInt32 := do
  match Dependents.CommandLine.Arguments.read args with
  | .ok arguments => Dependents.Main.runOnFiles arguments
  | .error fault =>
    let text := Dependents.Main.usageText fault
    if Dependents.Main.usageCode fault = 0 then IO.println text else IO.eprintln text
    return Dependents.Main.usageCode fault
