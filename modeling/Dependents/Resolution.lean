import Dependents.Config.Basic
import Dependents.FileSystem.Basic
import Dependents.Path.Normal

/-! Which file a module specifier means. Only relative specifiers mean files of the workspace. -/
namespace Dependents.Resolution

/-- Whether a specifier is relative to the file that holds it. Others name packages. -/
def isRelative (specifier : String) : Bool :=
  specifier == "." || specifier == ".." || ['.', '/'].isPrefixOf specifier.toList
    || ['.', '.', '/'].isPrefixOf specifier.toList

def base? (specifier : String) (importer : Path) : Option Path :=
  importer.parent?.map fun dir => (dir.join ⟨specifier⟩).normalize

/-- The suffixes that specifiers leave out, the preferred one first. -/
def suffixes : List String := [".ts", ".js"]

def indexFiles : List String := ["index.ts", "index.js"]

def candidates (base : Path) : List Path :=
  suffixes.map base.withSuffix ++ indexFiles.map fun name => base.join ⟨name⟩

/-- The file that a specifier means. Where no candidate exists, a lenient policy assumes the one
with the preferred suffix. -/
def resolve (fs : FileSystem) (policy : ResolutionPolicy) (specifier : String) (importer : Path) :
    Option Path :=
  if isRelative specifier then
    (base? specifier importer).bind fun base =>
      -- The base itself is no candidate, even if the specifier spells a suffix.
      match (candidates base).find? fs.isFile, policy with
      | some file, _ => some file
      | none, .strict => none
      | none, .lenient => some (base.withSuffix ".ts")
  else none

end Dependents.Resolution
