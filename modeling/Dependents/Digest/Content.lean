import Dependents.Digest.SipHash
import Dependents.Text.Utf8

/-! The digest that tells one version of a source text from another. -/
namespace Dependents.Digest

/-- Digests the UTF-8 bytes of a text and an end mark that no text contains. -/
def content (text : String) : UInt64 :=
  sip13.digest (Text.utf8 text ++ [0xff])

end Dependents.Digest
