import Dependents.Error
import Dependents.Text.Blank

/-! The settings of an analysis. -/
namespace Dependents

/-- What becomes of a relative import that no file answers to. -/
inductive ResolutionPolicy where
  /-- It is dropped. -/
  | strict
  /-- It is taken for a file that is yet to be written. -/
  | lenient
deriving DecidableEq, Repr

/-- Where syntax is kept between builds. -/
inductive CacheMode where
  | off
  | memory
  | disk (dir : Path)
deriving DecidableEq, Repr

structure Config where
  includeExtensions : List String
  excludeDirs : List String
  resolution : ResolutionPolicy
  followLinks : Bool
  cache : CacheMode
deriving DecidableEq, Repr

namespace Config

def standard : Config where
  includeExtensions := ["ts", "js"]
  excludeDirs := ["node_modules"]
  resolution := .strict
  followLinks := false
  cache := .off

def isBadExtension (extension : String) : Bool :=
  extension.isEmpty || extension.toList.head? == some '.'

/-- Refuses settings under which no file could be found. -/
def validate (c : Config) : Except AnalysisError Unit :=
  if c.includeExtensions.isEmpty then .error (.config .noExtension)
  else match c.includeExtensions.find? isBadExtension with
    | some bad => .error (.config (.badExtension bad))
    | none => .ok ()

end Config

end Dependents
