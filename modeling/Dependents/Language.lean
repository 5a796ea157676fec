import Dependents.Path.Edit

/-! The source languages, and how a file's extension names one. -/
namespace Dependents

inductive Language where
  | typescript
  | tsx
  | javascript
deriving DecidableEq, Repr

namespace Language

/-- The language of an extension. Case matters. -/
def ofExtension? : String → Option Language
  | "ts" | "mts" | "cts" => some .typescript
  | "tsx" => some .tsx
  | "js" | "jsx" | "mjs" | "cjs" => some .javascript
  | _ => none

def ofPath? (p : Path) : Option Language :=
  p.extension?.bind ofExtension?

def name : Language → String
  | .typescript => "typescript"
  | .tsx => "tsx"
  | .javascript => "javascript"

end Language

end Dependents
