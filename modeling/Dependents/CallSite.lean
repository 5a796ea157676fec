import Dependents.Scope

/-! Calls found in a file, before they are tied to what they call. -/
namespace Dependents

/-- A call: the text of what is called, where the call starts, and the function it stands in. -/
structure CallSite where
  callee : String
  position : Position
  caller : Option String
deriving DecidableEq, Repr

namespace SyntaxTree

/-- The text of what a call expression calls. A tag before a template is spelled like a call but
is none. -/
def callee? (t : SyntaxTree) (call : NodeId) : Option String :=
  if (t.childByField? call "arguments").any fun arguments =>
      t.grammarKind arguments == "template_string" then none
  else (t.childByField? call "function").map t.text

def callSite? (t : SyntaxTree) (wanted : String → Bool) (id : NodeId) : Option CallSite :=
  if t.kind id == .callExpression then
    ((t.callee? id).filter wanted).map fun callee =>
      ⟨callee, t.startPosition id, (t.enclosingFunction? id).map (·.name)⟩
  else none

def callSites (t : SyntaxTree) (wanted : String → Bool) : List CallSite :=
  t.ids.filterMap (t.callSite? wanted)

end SyntaxTree

end Dependents
