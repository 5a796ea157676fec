import Dependents.Path.Basic

/-! What can go wrong, and how it is said. -/
namespace Dependents

inductive FileError where
  | notFound
  | exists
  | notDirectory
  | isDirectory
  | tooManyLinks
  | invalid
  | notEmpty
  | busy
  | notUtf8
deriving DecidableEq, Repr

/-- The system's words for a refusal. -/
def FileError.message : FileError → String
  | .notFound => "No such file or directory (os error 2)"
  | .exists => "File exists (os error 17)"
  | .notDirectory => "Not a directory (os error 20)"
  | .isDirectory => "Is a directory (os error 21)"
  | .tooManyLinks => "Too many levels of symbolic links (os error 40)"
  | .invalid => "Invalid argument (os error 22)"
  | .notEmpty => "Directory not empty (os error 39)"
  | .busy => "Device or resource busy (os error 16)"
  | .notUtf8 => "stream did not contain valid UTF-8"

inductive ConfigFault where
  | malformed (path : Path)
  | noExtension
  | badExtension (extension : String)
deriving DecidableEq, Repr

def ConfigFault.message : ConfigFault → String
  | .malformed path => path.text ++ ": <json error>"
  | .noExtension => "include_extensions must name at least one extension"
  | .badExtension extension =>
    "extension '" ++ extension ++ "' must be non-empty and given without a leading dot"

/-- Why an analysis, or a step of one, has no result. -/
inductive AnalysisError where
  | io (path : Path) (cause : FileError)
  | parse (path : Path)
  | unsupportedLanguage (path : Path)
  | config (fault : ConfigFault)
deriving DecidableEq, Repr

namespace AnalysisError

def message : AnalysisError → String
  | .io path cause => "failed to read " ++ path.text ++ ": " ++ cause.message
  | .parse path => "failed to parse " ++ path.text
  | .unsupportedLanguage path => "unsupported source file: " ++ path.text
  | .config fault => "invalid configuration: " ++ fault.message

/-- An error and the one behind it, if there is one. -/
def chain : AnalysisError → List String
  | .io path cause => [(AnalysisError.io path cause).message, cause.message]
  | e => [e.message]

end AnalysisError

end Dependents
