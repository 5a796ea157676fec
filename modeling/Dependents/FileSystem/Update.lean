import Dependents.FileSystem.Basic

/-! Changing a file system: writing files, making directories, removing what stands somewhere. -/
namespace Dependents

def Path.endsInSlash (p : Path) : Bool :=
  match p.spelling.reverse with
  -- The last piece is empty after a slash. Of those before it the last that is not must be a step.
  | ([], _) :: before => (before.dropWhile (·.1.isEmpty)).head?.any (·.2.isSome)
  | _ => false

namespace FileNode

def putEntry (name : String) (node : FileNode) : List (String × FileNode) → List (String × FileNode)
  | [] => [(name, node)]
  | entry :: rest => if entry.1 = name then (name, node) :: rest else entry :: putEntry name node rest

def dropEntry (name : String) (entries : List (String × FileNode)) : List (String × FileNode) :=
  entries.filter fun entry => entry.1 != name

def change (edit : List (String × FileNode) → List (String × FileNode)) :
    List String → List (String × FileNode) → List (String × FileNode)
  | [], entries => edit entries
  | name :: names, entries => entries.map fun entry =>
    if entry.1 = name then
      match entry.2 with
      | .dir inner => (name, .dir (change edit names inner))
      | node => (name, node)
    else entry

end FileNode

namespace FileSystem

/-- Puts a node where some names lead. The directory above it is there. -/
def put (fs : FileSystem) (names : List String) (node : FileNode) : FileSystem :=
  match names.getLast? with
  | some name => { fs with root := FileNode.change (FileNode.putEntry name node) names.dropLast fs.root }
  | none => fs

/-- The place of an entry itself, whatever stands there: only links above it are followed. -/
def entryPlace (fs : FileSystem) (p : Path) : Except FileError (List String × Option FileNode) :=
  match p.parent?, p.fileName? with
  | some above, some name =>
    -- A name alone is looked for in the working directory.
    match fs.find (if above.text.isEmpty then ⟨"."⟩ else above) with
    | .ok (names, .dir entries) => .ok (names ++ [name], (FileNode.dir entries).child? name)
    | .ok _ => .error .notDirectory
    | .error e => .error e
  | _, _ => (fs.find p).map fun (names, node) => (names, some node)

/-- Whether a path, or the target of a link it ends in, puts a slash after its last name, where all
above that name is there. Follows at most `links` links. -/
def endsInSlashed (fs : FileSystem) : (links : Nat) → Path → Bool
  | 0, p => p.endsInSlash && (fs.entryPlace p).isOk
  | links + 1, p =>
    match fs.entryPlace p with
    | .error _ => false
    | .ok (names, some (.link target)) => p.endsInSlash ||
      !p.asksDirectory && fs.endsInSlashed links ((Path.ofNames names.dropLast).join target)
    | .ok _ => p.endsInSlash

/-- Writes a file, links followed. An existing file is replaced; a directory is not, and a name with
a slash after it asks for one. -/
def write (fs : FileSystem) (p : Path) (content : List UInt8) : Except FileError FileSystem :=
  match fs.locate p with
  | .ok (_, some (.dir _)) => .error .isDirectory
  | .ok (names, _) => .ok (fs.put names (.file content))
  | .error e =>
    if fs.endsInSlashed maxLinks p then .error .isDirectory
    else .error e

def makeDir (fs : FileSystem) (p : Path) : Except FileError FileSystem :=
  match fs.entryPlace p with
  | .ok (names, none) => .ok (fs.put names (.dir []))
  | .ok (_, some _) => .error .exists
  | .error e => .error e

/-- A path and those above it, the shortest first. Each has fewer steps than the one below it, so as
many as there are steps are enough. -/
def lineage : (steps : Nat) → Path → List Path
  | 0, _ => []
  | n + 1, p => (match p.parent? with
    | some above => lineage n above
    | none => []) ++ [p]

def makeDirs (fs : FileSystem) (p : Path) : Except FileError FileSystem :=
  ((lineage p.components.length p).filter fun q => !q.text.isEmpty).foldlM
    (fun fs q => if fs.isDir q then .ok fs else fs.makeDir q) fs

def remove (fs : FileSystem) (p : Path) : Except FileError FileSystem :=
  match fs.entryPlace p with
  | .ok (_, none) => .error .notFound
  | .ok (names, some _) =>
    match names.getLast? with
    | some name =>
      .ok { fs with root := FileNode.change (FileNode.dropEntry name) names.dropLast fs.root }
    | none => .error .isDirectory
  | .error e => .error e

def clearDir (fs : FileSystem) (names : List String) : FileSystem :=
  { fs with root := FileNode.change (fun _ => []) names fs.root }

def endsInLink (fs : FileSystem) (p : Path) : Bool :=
  match fs.entryPlace p with
  | .ok (_, some (.link _)) => p.fileName?.isSome
  | _ => false

/-- Why a directory cannot be removed by a path that leads to it: the system takes no dots and no root
for it, and nothing but the directory itself. -/
def irremovable? (fs : FileSystem) (p : Path) : Option FileError :=
  match p.spelling.reverse.dropWhile (·.1.isEmpty) with
  -- Nothing but slashes: the root.
  | [] => some .busy
  | (['.'], _) :: _ => some .invalid
  | (['.', '.'], _) :: _ => some .notEmpty
  | _ => if fs.endsInLink p then some .notDirectory else none

/-- Removes a directory with all that is below it. A link is removed itself, unless the text asks for a
directory. Where the directory cannot be removed it is still emptied. -/
def removeDir (fs : FileSystem) (p : Path) : Except FileError Unit × FileSystem :=
  let removed : Except FileError Unit × FileSystem :=
    match fs.remove p with
    | .ok fs => (.ok (), fs)
    | .error e => (.error e, fs)
  if fs.endsInLink p && !p.asksDirectory then removed
  else match fs.find p with
    | .ok (names, .dir _) =>
      match fs.irremovable? p with
      | some e => (.error e, fs.clearDir names)
      | none => removed
    | .ok _ => (.error .notDirectory, fs)
    | .error e => (.error e, fs)

end FileSystem

end Dependents
