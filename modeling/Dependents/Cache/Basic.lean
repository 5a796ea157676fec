import Dependents.Cache.Codec
import Dependents.Config.Basic
import Dependents.FileSystem.Update
import Dependents.Path.Digest
import Std.Data.HashMap

/-! The cache of file syntax, in memory and, if it has a directory, in files named after the digests
of paths. An entry counts only for the text it was read from. -/
namespace Dependents

/-- Which entry gives way when memory is full. Any choice will do. -/
abbrev Eviction := Std.HashMap (List Component) CacheEntry → Option (List Component)

/-- What is remembered in memory, by place, and the directory that backs it. -/
structure SyntaxCache where
  memory : Std.HashMap (List Component) CacheEntry
  dir : Option Path
  evict : Eviction

namespace SyntaxCache

def capacity : Nat := 4096

def firstKey : Eviction :=
  fun memory => memory.keys.head?

def blank (dir : Option Path) (evict : Eviction := firstKey) : SyntaxCache :=
  ⟨∅, dir, evict⟩

def inMemory (evict : Eviction := firstKey) : SyntaxCache :=
  blank none evict

/-- A cache backed by a directory, which is made if need be. Without it the cache only remembers. -/
def onDisk (fs : FileSystem) (dir : Path) (evict : Eviction := firstKey) : SyntaxCache × FileSystem :=
  match fs.makeDirs dir with
  | .ok fs => (blank (some dir) evict, fs)
  | .error _ => (inMemory evict, fs)

def ofMode (fs : FileSystem) (mode : CacheMode) (evict : Eviction := firstKey) :
    Option SyntaxCache × FileSystem :=
  match mode with
  | .off => (none, fs)
  | .memory => (some (inMemory evict), fs)
  | .disk dir => let (cache, fs) := onDisk fs dir evict; (some cache, fs)

def fileName (path : Path) : String :=
  "syntax_" ++ String.ofList (Nat.toDigits 16 path.digest.toNat) ++ ".bincode"

def filePath (dir path : Path) : Path :=
  dir.join ⟨fileName path⟩

/-- Reads the entry of a path from the directory. A file that cannot be read or decoded is as good
as none. -/
def load? (cache : SyntaxCache) (fs : FileSystem) (path : Path) : Option CacheEntry :=
  cache.dir.bind fun dir => (fs.read (filePath dir path)).toOption.bind CacheEntry.decode?

/-- Looks the syntax of a text up. What memory holds of the path is final; an entry from the
directory is remembered while there is room. -/
def get (cache : SyntaxCache) (fs : FileSystem) (path : Path) (contentHash : UInt64) :
    Option FileSyntax × SyntaxCache :=
  match cache.memory[path.components]? with
  -- Behind a stale entry the directory is not asked.
  | some entry => (if entry.isCurrent contentHash then some entry.syntaxOf else none, cache)
  | none =>
    match (cache.load? fs path).filter (·.isCurrent contentHash) with
    | some entry =>
      (some entry.syntaxOf,
        if cache.memory.size < capacity then
          { cache with memory := cache.memory.insert path.components entry }
        else cache)
    | none => (none, cache)

def makeRoom (cache : SyntaxCache) (path : Path) : SyntaxCache :=
  if cache.memory.size < capacity ∨ path.components ∈ cache.memory then cache
  else match cache.evict cache.memory with
    | some key => { cache with memory := cache.memory.erase key }
    | none => cache

/-- Keeps the syntax of a text, first in the directory and then in memory. If the directory refuses
it, memory does not take it either. -/
def store (cache : SyntaxCache) (fs : FileSystem) (path : Path) (contentHash : UInt64)
    (syntaxOf : FileSyntax) : Except AnalysisError Unit × SyntaxCache × FileSystem :=
  let entry : CacheEntry := ⟨CacheEntry.currentVersion, contentHash, syntaxOf⟩
  -- Room is made before the directory is asked, so a refusal may still cost an entry.
  let cache := cache.makeRoom path
  let remembering := { cache with memory := cache.memory.insert path.components entry }
  match cache.dir with
  | none => (.ok (), remembering, fs)
  | some dir =>
    match fs.write (filePath dir path) entry.encode with
    | .ok fs => (.ok (), remembering, fs)
    | .error e => (.error (.io (filePath dir path) e), cache, fs)

def clear (cache : SyntaxCache) (fs : FileSystem) :
    Except AnalysisError Unit × SyntaxCache × FileSystem :=
  let forgetting := { cache with memory := ∅ }
  match cache.dir with
  | none => (.ok (), forgetting, fs)
  | some dir =>
    -- A directory that is gone is not made again.
    if fs.holds dir then
      match fs.removeDir dir with
      | (.error e, fs) => (.error (.io dir e), forgetting, fs)
      | (.ok (), fs) =>
        match fs.makeDirs dir with
        | .error e => (.error (.io dir e), forgetting, fs)
        | .ok fs => (.ok (), forgetting, fs)
    else (.ok (), forgetting, fs)

def memoryEntries (cache : SyntaxCache) : Nat :=
  cache.memory.size

def diskEntries (cache : SyntaxCache) (fs : FileSystem) : Nat :=
  match cache.dir.map fs.list with
  | some (.ok names) => names.length
  | _ => 0

end SyntaxCache

end Dependents
