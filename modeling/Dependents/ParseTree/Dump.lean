import Dependents.ParseTree.Basic
import Dependents.Text.Decimal

/-! The dump of a parse tree: one line per node in pre-order, `depth N|A field start stop kind`, where
`N` marks a named node and a dash stands for no field. -/
namespace Dependents.ParseTree

structure DumpLine where
  depth : Nat
  named : Bool
  label : NodeLabel
deriving DecidableEq, Repr

def lines : List Char → List (List Char)
  | [] => []
  | c :: cs =>
    if c = '\n' then [] :: lines cs
    else match lines cs with
      | [] => [[c]]
      | line :: rest => (c :: line) :: rest

/-- Cuts the text before the first blank off, and drops the blank. -/
def word (cs : List Char) : List Char × List Char :=
  (cs.takeWhile (· != ' '), (cs.dropWhile (· != ' ')).drop 1)

def readMark? : List Char → Option Bool
  | ['N'] => some true
  | ['A'] => some false
  | _ => none

def readLine? (cs : List Char) : Option DumpLine := do
  let (depth, cs) := word cs
  let (mark, cs) := word cs
  let (field, cs) := word cs
  let (start, cs) := word cs
  let (stop, kind) := word cs
  return {
    depth := ← Text.readNatural? depth
    named := ← readMark? mark
    label := {
      kind := String.ofList kind
      field := if field = ['-'] then none else some (String.ofList field)
      start := ← Text.readNatural? start
      stop := ← Text.readNatural? stop } }

/-- Puts a line in front of finished trees, each with its depth: those below the line become its
children. -/
def attach (line : DumpLine) (finished : List (Nat × ParseNode)) : List (Nat × ParseNode) :=
  let below := finished.takeWhile (line.depth < ·.1)
  (line.depth, .node line.named line.label (below.map (·.2))) :: finished.drop below.length

def ofDump? (dump : String) (hasError : Bool) : Option ParseTree :=
  ((lines dump.toList).mapM readLine?).bind fun read =>
    match read.foldr attach [] with
    | [(0, root)] => some ⟨root, hasError⟩
    | _ => none

end Dependents.ParseTree
