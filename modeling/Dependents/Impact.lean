import Dependents.Edge
import Dependents.Text.Decimal

/-! How far a change reaches, judged by how many files depend on what is changed. -/
namespace Dependents

/-- A rough measure of reach. -/
inductive ImpactLevel where
  | none
  | low
  | moderate
  | high
deriving DecidableEq, Repr, Ord

namespace ImpactLevel

def ofCount : Nat → ImpactLevel
  | 0 => .none
  | 1 => .low
  | 2 | 3 | 4 | 5 => .moderate
  | _ => .high

def name : ImpactLevel → String
  | .none => "none"
  | .low => "low"
  | .moderate => "moderate"
  | .high => "high"

end ImpactLevel

structure Impact where
  dependentFiles : Nat
deriving DecidableEq, Repr

namespace Impact

/-- Judges edges by the distinct places they come from. -/
def ofEdges (edges : List Edge) : Impact :=
  ⟨(edges.map (·.dependent.components)).eraseDups.length⟩

def level (i : Impact) : ImpactLevel :=
  ImpactLevel.ofCount i.dependentFiles

def message (i : Impact) : String :=
  match i.level with
  | .none =>
    "This file appears to have no direct dependents in the workspace. Changes may be low-risk."
  | .low =>
    "This file has a small number of dependents. Changes are likely localized and lower-risk."
  | .moderate =>
    "This file is a shared dependency for " ++ Text.decimal i.dependentFiles
      ++ " files. Consider the impact on each before making changes."
  | .high =>
    "Warning: This file is a high-impact dependency, affecting " ++ Text.decimal i.dependentFiles
      ++ " other files. Changes here could have widespread effects. Recommend thorough testing."

def toJson (i : Impact) : Json :=
  .object [("level", .string i.level.name), ("dependentFiles", .natural i.dependentFiles),
    ("message", .string i.message)]

end Impact

end Dependents
