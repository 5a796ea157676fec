import Dependents.FileSyntax

/-! What a cache keeps of one file. -/
namespace Dependents

/-- The syntax of a file, with the digest of the text it was read from and the version of the format
it is kept in. -/
structure CacheEntry where
  version : UInt32
  contentHash : UInt64
  syntaxOf : FileSyntax
deriving DecidableEq, Repr

namespace CacheEntry

/-- The version that is written, and the only one that is trusted. -/
def currentVersion : UInt32 := 1

def isCurrent (e : CacheEntry) (contentHash : UInt64) : Bool :=
  e.version == currentVersion && e.contentHash == contentHash

end CacheEntry

end Dependents
