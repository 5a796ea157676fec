import Dependents.Json.Printer
import Dependents.Report.Basic

/-! Reports and whole indexes as JSON. -/
namespace Dependents

/-- A report as JSON. The function is left out where none is asked about. -/
def Report.toJson (r : Report) : Json :=
  .object ([("target", .string r.target.text)]
    ++ r.function.toList.map (fun function => ("function", .string function))
    ++ [("impact", r.impact.toJson), ("dependencies", .array (r.edges.map Edge.toJson))])

def Bucket.toJson (b : Bucket) : Json :=
  .object [("file", .string b.target.text), ("dependencies", .array (b.edges.map Edge.toJson))]

def DependencyIndex.toJson (index : DependencyIndex) : Json :=
  .object [("targets", .array (index.buckets.map Bucket.toJson))]

def Report.edgesOfJson? (value : Json) : Option (List Edge) :=
  (value.field? "dependencies").bind (Json.listOf? Edge.ofJson?)

def Bucket.pairsOfJson? (value : Json) : Option (List (Path × Edge)) := do
  let target ← (← value.field? "file").asString?
  let edges ← Json.listOf? Edge.ofJson? (← value.field? "dependencies")
  return edges.map fun edge => (⟨target⟩, edge)

/-- Reads an index by filing the edges of its buckets in order. -/
def DependencyIndex.ofJson? (value : Json) : Option DependencyIndex := do
  let buckets ← Json.listOf? Bucket.pairsOfJson? (← value.field? "targets")
  return DependencyIndex.empty.extend buckets.flatten

end Dependents
