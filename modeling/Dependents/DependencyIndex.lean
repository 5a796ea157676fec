import Dependents.Edge
import Dependents.Path.Distinct

/-! The reverse index: under each file that something depends on, the edges that lead to it. Buckets
are sorted by path and never empty. -/
namespace Dependents

/-- The edges that lead to one file, which is shown as it was first spelled. -/
structure Bucket where
  target : Path
  edges : List Edge
deriving DecidableEq, Repr

structure DependencyIndex where
  buckets : List Bucket
deriving DecidableEq, Repr

namespace DependencyIndex

def empty : DependencyIndex := ⟨[]⟩

/-- Files an edge in sorted buckets. -/
def insertEdge (target : Path) (edge : Edge) : List Bucket → List Bucket
  | [] => [⟨target, [edge]⟩]
  | b :: rest =>
    match target.order b.target with
    | .lt => ⟨target, [edge]⟩ :: b :: rest
    | .eq => ⟨b.target, b.edges ++ [edge]⟩ :: rest
    | .gt => b :: insertEdge target edge rest

def add (index : DependencyIndex) (target : Path) (edge : Edge) : DependencyIndex :=
  ⟨insertEdge target edge index.buckets⟩

def extend (index : DependencyIndex) (pairs : List (Path × Edge)) : DependencyIndex :=
  pairs.foldl (fun index (target, edge) => index.add target edge) index

def edgesOf (index : DependencyIndex) (target : Path) : List Edge :=
  match index.buckets.find? fun b => b.target.same target with
  | some b => b.edges
  | none => []

/-- The edges that call one function of a file. -/
def edgesOn (index : DependencyIndex) (target : Path) (function : String) : List Edge :=
  (index.edgesOf target).filter fun e => e.targetFunction == function

/-- The files that depend on a file, in the order in which they first appear. -/
def dependentFiles (index : DependencyIndex) (target : Path) : List Path :=
  Path.firstOfEach id [] ((index.edgesOf target).map (·.dependent))

def targets (index : DependencyIndex) : List Path :=
  index.buckets.map (·.target)

def targetCount (index : DependencyIndex) : Nat :=
  index.buckets.length

def edgeCount (index : DependencyIndex) : Nat :=
  index.buckets.foldr (fun bucket count => bucket.edges.length + count) 0

def isEmpty (index : DependencyIndex) : Bool :=
  index.buckets.isEmpty

end DependencyIndex

end Dependents
