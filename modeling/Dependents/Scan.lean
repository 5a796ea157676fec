import Dependents.Config.Basic
import Dependents.FileSystem.Basic
import Dependents.Language
import Dependents.Path.Distinct

/-! Finding the source files below some roots. Entries are visited in the order of their names, and
what a directory holds is visited in its place, so files come in the order of their paths. -/
namespace Dependents

structure SourceFile where
  path : Path
  language : Language
deriving DecidableEq, Repr

namespace FileNode

mutual

def dirsFrom (here : List String) : FileNode → List (List String)
  | .dir entries => here :: dirsOfAll here entries
  | _ => []

def dirsOfAll (here : List String) : List (String × FileNode) → List (List String)
  | [] => []
  | (name, node) :: rest => dirsFrom (here ++ [name]) node ++ dirsOfAll here rest

end

end FileNode

namespace FileSystem

def dirs (fs : FileSystem) : List (List String) :=
  fs.top.dirsFrom []

end FileSystem

namespace Scan

/-- How many directories are not among those that are open. -/
def unopened (fs : FileSystem) (opened : List (List String)) : Nat :=
  fs.dirs.countP fun dir => decide (dir ∉ opened)

theorem unopened_cons_le (fs : FileSystem) (opened : List (List String)) (dir : List String) :
    unopened fs (dir :: opened) ≤ unopened fs opened := by
  apply List.countP_mono_left
  intro d _ h
  simp only [List.mem_cons, not_or, decide_eq_true_eq] at h ⊢
  exact h.2

theorem countP_lt {α : Type} {p q : α → Bool} {l : List α} (h : ∀ x ∈ l, p x → q x) {a : α}
    (ha : a ∈ l) (hq : q a) (hp : ¬ p a) : l.countP p < l.countP q := by
  induction l with
  | nil => simp at ha
  | cons b l ih =>
    have hl := List.countP_mono_left fun x hx => h x (List.mem_cons_of_mem b hx)
    rcases List.mem_cons.1 ha with rfl | ha
    · simp only [List.countP_cons, hq, hp, if_true]
      simp
      omega
    · have := ih (fun x hx => h x (List.mem_cons_of_mem b hx)) ha
      have hb := h b List.mem_cons_self
      simp only [List.countP_cons]
      split <;> split <;> first | omega | simp_all

theorem unopened_cons_lt (fs : FileSystem) (opened : List (List String)) (dir : List String)
    (hd : dir ∈ fs.dirs) (ho : dir ∉ opened) :
    unopened fs (dir :: opened) < unopened fs opened := by
  apply countP_lt _ hd
  · simpa using ho
  · simp
  · intro d _ h
    simp only [List.mem_cons, not_or, decide_eq_true_eq] at h ⊢
    exact h.2

def nameLE (a b : String) : Bool :=
  compare a b != .gt

/-- The files below a directory, in order. `opened` are the directories that are being visited, the
innermost first, and `path` is how this one was reached. Directories with an excluded name are left
out. A link to a file counts as a file; a link to a directory is entered if links are followed and
the directory is not being visited already. -/
def below (fs : FileSystem) (config : Config) (opened : List (List String)) (place : List String)
    (path : Path) (entries : List (String × FileNode)) : List Path :=
  (entries.attach.mergeSort fun a b => nameLE a.1.1 b.1.1).flatMap fun ⟨(name, node), _⟩ =>
    let entryPath := path.join ⟨name⟩
    match node with
    | .file _ => [entryPath]
    | .dir inner =>
      if config.excludeDirs.contains name then []
      else below fs config ((place ++ [name]) :: opened) (place ++ [name]) entryPath inner
    | .link _ =>
      match fs.find entryPath with
      | .ok (_, .file _) => [entryPath]
      | .ok (target, .dir inner) =>
        if config.followLinks ∧ ¬ config.excludeDirs.contains name ∧ target ∈ fs.dirs
            ∧ target ∉ opened then
          below fs config (target :: opened) target entryPath inner
        else []
      | _ => []
-- Links lead to directories that are not open yet, all else goes down in the tree.
termination_by (unopened fs opened, sizeOf entries)
decreasing_by
  · rename_i hmem _
    have hle := unopened_cons_le fs opened (place ++ [name])
    have hlt := List.sizeOf_lt_of_mem hmem
    simp only [Prod.mk.sizeOf_spec, FileNode.dir.sizeOf_spec] at hlt
    rcases Nat.lt_or_eq_of_le hle with h | h
    · exact Prod.Lex.left _ _ h
    · rw [h]
      exact Prod.Lex.right _ (by omega)
  · rename_i h
    exact Prod.Lex.left _ _ (unopened_cons_lt fs opened target h.2.2.1 h.2.2.2)

/-- The files at or below a root, by absolute paths. A root that is missing has none. -/
def files (fs : FileSystem) (config : Config) (root : Path) : List Path :=
  match fs.find root with
  | .ok (names, .dir entries) => below fs config [names] names (Path.ofNames names) entries
  | .ok (names, _) => [Path.ofNames names]
  | .error _ => []

def sourceFile? (config : Config) (path : Path) : Option SourceFile :=
  path.extension?.bind fun extension =>
    if config.includeExtensions.contains extension then
      (Language.ofExtension? extension).map (⟨path, ·⟩)
    else none

def root (fs : FileSystem) (config : Config) (root : Path) : List SourceFile :=
  (files fs config root).filterMap (sourceFile? config)

/-- The source files below several roots. A file that several of them reach comes once, in its first
place. -/
def roots (fs : FileSystem) (config : Config) (roots : List Path) : List SourceFile :=
  Path.firstOfEach SourceFile.path [] (roots.flatMap (root fs config))

end Scan

end Dependents
