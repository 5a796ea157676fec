import Dependents.Path.Edit
import Dependents.Report.Basic
import Dependents.Text.LineCol

/-! Reports and whole indexes as text for people, grouped by dependent file. -/
namespace Dependents.Report

structure Group where
  file : Path
  edges : List Edge
deriving DecidableEq, Repr

/-- Puts an edge into the group of its file, or into a new last one. -/
def placeEdge (groups : List Group) (edge : Edge) : List Group :=
  match groups with
  | [] => [⟨edge.dependent, [edge]⟩]
  | g :: rest =>
    if g.file.same edge.dependent then ⟨g.file, g.edges ++ [edge]⟩ :: rest
    else g :: placeEdge rest edge

def groups (edges : List Edge) : List Group :=
  edges.foldl placeEdge []

def padRight (width : Nat) (s : String) : String :=
  s ++ String.ofList (List.replicate (width - s.length) ' ')

def locationWidth : Nat := 8

/-- Where an edge stands, what it calls and from where. -/
def edgeLine (edge : Edge) : String :=
  let caller := match edge.caller with
    | some caller => "in " ++ caller
    | none => "at module scope"
  padRight locationWidth edge.position.location ++ " " ++ edge.targetFunction ++ "  " ++ caller

/-- The lines of a group: its file, then its edges two blanks deeper. -/
def groupText (base : Option Path) (indent : String) (g : Group) : String :=
  indent ++ g.file.shownFrom base ++ "\n"
    ++ String.join (g.edges.map fun edge => indent ++ "  " ++ edgeLine edge ++ "\n")

def groupedText (base : Option Path) (indent : String) (edges : List Edge) : String :=
  String.join ((groups edges).map (groupText base indent))

def counted (n : Nat) (noun : String) : String :=
  Text.decimal n ++ " " ++ noun ++ (if n = 1 then "" else "s")

def text (base : Option Path) (r : Report) : String :=
  let impact := r.impact
  "Dependents of " ++ r.target.shownFrom base ++ "\n"
    ++ (match r.function with
      | some function => "Function: " ++ function ++ "\n"
      | none => "")
    ++ "Impact: " ++ impact.level.name ++ " (" ++ counted impact.dependentFiles "file" ++ "). "
    ++ impact.message ++ "\n"
    ++ (if r.edges.isEmpty then "\nNo dependents found.\n"
      else "\n" ++ groupedText base "" r.edges)

def bucketText (base : Option Path) (index : DependencyIndex) (b : Bucket) : String :=
  b.target.shownFrom base ++ " (" ++ counted b.edges.length "call" ++ ", "
    ++ counted (index.dependentFiles b.target).length "file" ++ ")\n"
    ++ groupedText base "  " b.edges

def indexText (base : Option Path) (index : DependencyIndex) : String :=
  if index.isEmpty then "No dependencies found.\n"
  else String.join (index.buckets.map (bucketText base index))

end Dependents.Report
