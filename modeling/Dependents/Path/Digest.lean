import Dependents.Path.Basic
import Dependents.Digest.SipHash
import Dependents.Text.Utf8

/-! A digest of a path, read off its bytes in one pass. Slashes and silent dots are skipped on the
way, so it depends on the components alone; the root leaves no trace in it. -/
namespace Dependents.Path

def slash : UInt8 := 0x2f

def dot : UInt8 := 0x2e

/-- Skips a dot that stands alone between slashes, or between a slash and the end. -/
def skipDot : List UInt8 → List UInt8
  | [b] => if b = dot then [] else [b]
  | b :: c :: rest => if b = dot ∧ c = slash then c :: rest else b :: c :: rest
  | [] => []

theorem length_skipDot_le (bytes : List UInt8) : (skipDot bytes).length ≤ bytes.length := by
  match bytes with
  | [] => simp [skipDot]
  | [b] => simp only [skipDot]; split <;> simp
  | b :: c :: rest => simp only [skipDot]; split <;> simp

/-- The runs of bytes that are digested; `taken` is the start of the present one. -/
def chunks (taken : List UInt8) : List UInt8 → List (List UInt8)
  | [] => if taken.isEmpty then [] else [taken]
  | b :: rest =>
    if b = slash then
      if taken.isEmpty then chunks [] (skipDot rest) else taken :: chunks [] (skipDot rest)
    else chunks (taken ++ [b]) rest
termination_by bytes => bytes.length
decreasing_by
  all_goals
    have := length_skipDot_le rest
    simp only [List.length_cons]
    omega

/-- Where the runs were divided, folded into one word. -/
def chunkMark (runs : List (List UInt8)) : UInt64 :=
  runs.foldl (fun mark run => Digest.turnRight (mark + run.length.toUInt64) 2) 0

def digest (p : Path) : UInt64 :=
  let runs := chunks [] (Text.utf8 p.text)
  Digest.sip13.digest (runs.flatten ++ Digest.bytesOfWord (chunkMark runs))

end Dependents.Path
