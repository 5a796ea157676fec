import Dependents.Path.Edit

/-! Lexical normal form: dots are dropped and a parent step cancels the name before it. -/
namespace Dependents.Path

def empty : Path := ⟨""⟩

def pop (p : Path) : Path :=
  p.parent?.getD p

/-- Takes one more step from a path in normal form. -/
def fold (p : Path) : Component → Path
  | .root => p.join ⟨"/"⟩
  | .current => p
  | .parent =>
    match p.last? with
    | some (.name _) => p.pop
    | some .root => p
    | _ => p.join ⟨".."⟩
  | .name text => p.join ⟨text⟩

/-- The normal form of a path. A parent step at the root stays there; one that nothing before it
cancels is kept. -/
def normalize (p : Path) : Path :=
  p.components.foldl fold empty

end Dependents.Path
