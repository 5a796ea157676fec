import Dependents.Error
import Dependents.Path.Edit

/-! A file system as a value: directories, regular files and symbolic links. Paths are followed the
way the system does it, step by step and through links. -/
namespace Dependents

/-- What a directory can hold. The names in a directory are distinct, in no particular order. -/
inductive FileNode where
  | file (content : List UInt8)
  | link (target : Path)
  | dir (entries : List (String × FileNode))
deriving Repr, Inhabited

/-- All files, and the directory that relative paths start from, by the names on the way to it. -/
structure FileSystem where
  root : List (String × FileNode)
  workingDir : List String
deriving Repr, Inhabited

namespace FileNode

def child? (name : String) : FileNode → Option FileNode
  | .dir entries => (entries.find? fun entry => entry.1 == name).map (·.2)
  | _ => none

def isDir : FileNode → Bool
  | .dir _ => true
  | _ => false

/-- What stands at the end of some names. Links are not followed. -/
def at? : List String → FileNode → Option FileNode
  | [], node => some node
  | name :: names, node => (node.child? name).bind (at? names)

end FileNode

def Path.ofNames : List String → Path
  | [] => ⟨"/"⟩
  | names => ⟨String.join (names.map ("/" ++ ·))⟩

/-- Whether the text ends in a piece that is no step, so that a directory must stand there. -/
def Path.asksDirectory (p : Path) : Bool :=
  p.spelling.getLast?.any Path.silent

/-- The steps the system takes along a path. A silent end is a step on the spot, which only a
directory allows. -/
def Path.steps (p : Path) : List Component :=
  p.components ++ if p.asksDirectory then [.current] else []

def maxLinks : Nat := 40

namespace FileSystem

def top (fs : FileSystem) : FileNode := .dir fs.root

/-- Takes steps from the directory `here`. The answer is where the last step leads, by names that
pass through no link, and what stands there. The last name itself may be missing, but not the
directory it is looked for in. -/
def walk (top : FileNode) (links : Nat) (here : List String) :
    List Component → Except FileError (List String × Option FileNode)
  | [] => .ok (here, top.at? here)
  | .root :: rest => walk top links [] rest
  | .current :: rest => walk top links here rest
  | .parent :: rest => walk top links here.dropLast rest
  | .name name :: rest =>
    match (top.at? here).bind (·.child? name) with
    | none =>
      if rest.isEmpty && (top.at? here).any (·.isDir) then .ok (here ++ [name], none)
      else .error .notFound
    | some (.dir _) => walk top links (here ++ [name]) rest
    | some (.file content) =>
      if rest.isEmpty then .ok (here ++ [name], some (.file content)) else .error .notDirectory
    | some (.link target) =>
      match links with
      | 0 => .error .tooManyLinks
      -- A relative target starts from the directory that holds the link.
      | links + 1 => walk top links here (target.steps ++ rest)
termination_by steps => (links, steps.length)

/-- Where a path leads, links followed, and what stands there. The empty path leads nowhere. -/
def locate (fs : FileSystem) (p : Path) : Except FileError (List String × Option FileNode) :=
  if p.text.isEmpty then .error .notFound
  else walk fs.top maxLinks fs.workingDir p.steps

def find (fs : FileSystem) (p : Path) : Except FileError (List String × FileNode) :=
  match fs.locate p with
  | .ok (names, some node) => .ok (names, node)
  | .ok (_, none) => .error .notFound
  | .error e => .error e

/-- The absolute path without links and dots to what stands at a path. -/
def canonicalize (fs : FileSystem) (p : Path) : Except FileError Path :=
  (fs.find p).map fun (names, _) => Path.ofNames names

def holds (fs : FileSystem) (p : Path) : Bool :=
  (fs.find p).isOk

def isFile (fs : FileSystem) (p : Path) : Bool :=
  match fs.find p with
  | .ok (_, .file _) => true
  | _ => false

def isDir (fs : FileSystem) (p : Path) : Bool :=
  match fs.find p with
  | .ok (_, .dir _) => true
  | _ => false

def read (fs : FileSystem) (p : Path) : Except FileError (List UInt8) :=
  match fs.find p with
  | .ok (_, .file content) => .ok content
  | .ok _ => .error .isDirectory
  | .error e => .error e

def list (fs : FileSystem) (p : Path) : Except FileError (List String) :=
  match fs.find p with
  | .ok (_, .dir entries) => .ok (entries.map (·.1))
  | .ok _ => .error .notDirectory
  | .error e => .error e

/-- A path from the root that means what `p` means from the working directory. -/
def absolute (fs : FileSystem) (p : Path) : Path :=
  if p.isAbsolute then p else (Path.ofNames fs.workingDir).join p

end FileSystem

end Dependents
