import Dependents.Path.Basic

/-! Keeping the first of all things that lie at one place. -/
namespace Dependents.Path

/-- The items whose paths are none of `seen` and of those before them. -/
def firstOfEach {α : Type} (pathOf : α → Path) (seen : List Path) : List α → List α
  | [] => []
  | a :: rest =>
    if seen.any (pathOf a).same then firstOfEach pathOf seen rest
    else a :: firstOfEach pathOf (pathOf a :: seen) rest

end Dependents.Path
