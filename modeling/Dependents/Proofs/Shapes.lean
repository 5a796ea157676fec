import Dependents.Proofs.Places
import Dependents.Resolution
import Dependents.Scan
import Mathlib.Data.List.Nodup

/-! The shape of a file system: its directories, links and files by name. Paths are followed, sources
are scanned and imports are resolved by the shape alone. -/
namespace Dependents

namespace FileNode

variable {entries : List (String × FileNode)} {names here : List String}

/-- The entries of a directory in the order of their names. -/
def sorted (entries : List (String × FileNode)) : List (String × FileNode) :=
  entries.mergeSort fun a b => Scan.nameLE a.1 b.1

mutual

/-- A node with its files emptied and its directories sorted. -/
def shape : FileNode → FileNode
  | .file _ => .file []
  | .link target => .link target
  | .dir entries => .dir (sorted (shapeOfAll entries))

/-- Entries with their files emptied and the directories below them sorted. -/
def shapeOfAll : List (String × FileNode) → List (String × FileNode)
  | [] => []
  | (name, node) :: rest => (name, node.shape) :: shapeOfAll rest

end

/-! Sorting by name keeps the entries of one name in their order, so the first one stays the first. -/

theorem nameLE_trans (a b c : String) (hab : Scan.nameLE a b = true) (hbc : Scan.nameLE b c = true) :
    Scan.nameLE a c = true := by
  have hle : ∀ x y : String, Scan.nameLE x y = (compare x y).isLE := by
    intro x y
    unfold Scan.nameLE
    cases compare x y <;> rfl
  rw [hle] at hab hbc ⊢
  exact Std.TransCmp.isLE_trans hab hbc

theorem nameLE_total (a b : String) : (Scan.nameLE a b || Scan.nameLE b a) = true := by
  have hswap : compare b a = (compare a b).swap := Std.OrientedCmp.eq_swap
  unfold Scan.nameLE
  rw [hswap]
  cases compare a b <;> rfl

theorem nameLE_refl (a : String) : Scan.nameLE a a = true := by
  simpa using nameLE_total a a

theorem nameLE_antisymm {a b : String} (hab : Scan.nameLE a b = true) (hba : Scan.nameLE b a = true) :
    a = b := by
  have hswap : compare b a = (compare a b).swap := Std.OrientedCmp.eq_swap
  unfold Scan.nameLE at hab hba
  rw [hswap] at hba
  apply Std.LawfulEqOrd.eq_of_compare
  cases hcompare : compare a b with
  | lt => simp [hcompare] at hba
  | eq => rfl
  | gt => simp [hcompare] at hab

theorem pairwise_sorted (entries : List (String × FileNode)) :
    (sorted entries).Pairwise fun a b => Scan.nameLE a.1 b.1 = true := by
  apply List.pairwise_mergeSort
  · intro a b c
    exact nameLE_trans a.1 b.1 c.1
  · intro a b
    exact nameLE_total a.1 b.1

theorem sorted_sorted (entries : List (String × FileNode)) : sorted (sorted entries) = sorted entries :=
  List.mergeSort_of_pairwise (pairwise_sorted entries)

theorem find?_sorted (name : String) (entries : List (String × FileNode)) :
    (sorted entries).find? (fun entry => entry.1 == name) =
      entries.find? fun entry => entry.1 == name := by
  have hsub : (entries.filter fun entry => entry.1 == name).Sublist (sorted entries) := by
    apply List.sublist_mergeSort
    · intro a b c
      exact nameLE_trans a.1 b.1 c.1
    · intro a b
      exact nameLE_total a.1 b.1
    · apply List.pairwise_of_forall_mem_list
      intro a ha b hb
      have hname : ∀ entry ∈ entries.filter (fun entry => entry.1 == name), entry.1 = name := by
        intro entry hentry
        simpa using (List.mem_filter.1 hentry).2
      rw [hname a ha, hname b hb]
      exact nameLE_refl name
    · exact List.filter_sublist
  have hlength : ((sorted entries).filter fun entry => entry.1 == name).length =
      (entries.filter fun entry => entry.1 == name).length :=
    ((List.mergeSort_perm entries _).filter _).length_eq
  have hfilter := hsub.filter fun entry => entry.1 == name
  rw [List.filter_filter] at hfilter
  simp only [Bool.and_self] at hfilter
  rw [← List.head?_filter, ← List.head?_filter, hfilter.eq_of_length hlength.symm]

/-- Entries of different names are sorted the same way in whatever order they are listed. -/
theorem sorted_of_perm {others : List (String × FileNode)} (h : entries.Perm others)
    (hnames : (entries.map (·.1)).Nodup) : sorted entries = sorted others := by
  refine List.Perm.eq_of_pairwise ?_ (pairwise_sorted entries) (pairwise_sorted others)
    ((List.mergeSort_perm _ _).trans (h.trans (List.mergeSort_perm _ _).symm))
  intro a b ha hb hab hba
  apply List.inj_on_of_nodup_map hnames (List.mem_mergeSort.1 ha)
  · exact h.mem_iff.2 (List.mem_mergeSort.1 hb)
  · exact nameLE_antisymm hab hba

/-! Looking things up in a shape. -/

theorem shapeOfAll_eq (entries : List (String × FileNode)) :
    shapeOfAll entries = entries.map fun entry => (entry.1, entry.2.shape) := by
  induction entries with
  | nil => rfl
  | cons entry entries ih =>
    obtain ⟨name, node⟩ := entry
    rw [shapeOfAll, ih, List.map_cons]

theorem sorted_shapeOfAll (entries : List (String × FileNode)) :
    sorted (shapeOfAll entries) = (sorted entries).map fun entry => (entry.1, entry.2.shape) := by
  rw [shapeOfAll_eq]
  symm
  apply List.map_mergeSort
  intro a _ b _
  rfl

theorem child?_shape (name : String) (node : FileNode) :
    node.shape.child? name = (node.child? name).map shape := by
  cases node with
  | file content => rfl
  | link target => rfl
  | dir entries =>
    simp only [shape, child?, sorted_shapeOfAll, List.find?_map, Option.map_map]
    have hfind := find?_sorted name entries
    simp only [Function.comp_def, hfind]

theorem at?_shape (names : List String) (node : FileNode) :
    node.shape.at? names = (node.at? names).map shape := by
  induction names generalizing node with
  | nil => rfl
  | cons name names ih =>
    rw [at?, at?, child?_shape]
    cases node.child? name with
    | none => rfl
    | some child => exact ih child

theorem isDir_shape (node : FileNode) : node.shape.isDir = node.isDir := by
  cases node <;> simp [shape, isDir]

theorem mem_dirsOfAll : names ∈ dirsOfAll here entries ↔
    ∃ entry ∈ entries, names ∈ dirsFrom (here ++ [entry.1]) entry.2 := by
  induction entries with
  | nil => simp [dirsOfAll]
  | cons entry entries ih => simp [dirsOfAll, ih]

mutual

theorem mem_dirsFrom_shape (here : List String) :
    (node : FileNode) → (names ∈ dirsFrom here node.shape ↔ names ∈ dirsFrom here node)
  | .file _ => by simp [shape, dirsFrom]
  | .link _ => by simp [shape, dirsFrom]
  | .dir entries => by
    have hbelow := mem_dirsOfAll_shape here entries
    have hsorted : names ∈ dirsOfAll here (sorted (shapeOfAll entries)) ↔
        names ∈ dirsOfAll here (shapeOfAll entries) := by
      simp only [mem_dirsOfAll, sorted, List.mem_mergeSort]
    simp only [shape, dirsFrom, List.mem_cons, hsorted, hbelow]

theorem mem_dirsOfAll_shape (here : List String) : (entries : List (String × FileNode)) →
    (names ∈ dirsOfAll here (shapeOfAll entries) ↔ names ∈ dirsOfAll here entries)
  | [] => by simp [shapeOfAll]
  | (name, node) :: rest => by
    simp only [shapeOfAll, dirsOfAll, List.mem_append, mem_dirsFrom_shape (here ++ [name]) node,
      mem_dirsOfAll_shape here rest]

end

end FileNode

namespace FileSystem

/-- A file system with its files emptied and its directories sorted. -/
def shape (fs : FileSystem) : FileSystem :=
  ⟨FileNode.sorted (FileNode.shapeOfAll fs.root), fs.workingDir⟩

theorem top_shape (fs : FileSystem) : fs.shape.top = fs.top.shape := by
  simp [top, shape, FileNode.shape]

/-- A walk goes the same way in the shape, and ends at the shape of what it finds. -/
theorem walk_shape (top : FileNode) (links : Nat) (here : List String) (steps : List Component) :
    walk top.shape links here steps =
      (walk top links here steps).map fun found => (found.1, found.2.map FileNode.shape) := by
  have hchild : ∀ here name, (top.shape.at? here).bind (·.child? name) =
      ((top.at? here).bind (·.child? name)).map FileNode.shape := by
    intro here name
    rw [FileNode.at?_shape]
    cases top.at? here with
    | none => rfl
    | some node => exact FileNode.child?_shape name node
  have hdir : ∀ here, (top.shape.at? here).any (·.isDir) = (top.at? here).any (·.isDir) := by
    intro here
    rw [FileNode.at?_shape]
    cases top.at? here with
    | none => rfl
    | some node => exact FileNode.isDir_shape node
  fun_induction walk top links here steps with
  | case1 links here => rw [walk, FileNode.at?_shape]; rfl
  | case2 links here rest ih => rw [walk, ih]
  | case3 links here rest ih => rw [walk, ih]
  | case4 links here rest ih => rw [walk, ih]
  | case5 links here name rest hnone hlast =>
    rw [walk, hchild, hnone, hdir]
    simp only [Option.map_none]
    rw [if_pos hlast]
    rfl
  | case6 links here name rest hnone hlast =>
    rw [walk, hchild, hnone, hdir]
    simp only [Option.map_none]
    rw [if_neg hlast]
    rfl
  | case7 links here name rest entries hfound ih =>
    rw [walk, hchild, hfound]
    exact ih
  | case8 links here name rest content hfound hlast =>
    rw [walk, hchild, hfound]
    simp [FileNode.shape, hlast, Except.map]
  | case9 links here name rest content hfound hlast =>
    rw [walk, hchild, hfound]
    simp [FileNode.shape, hlast, Except.map]
  | case10 here name rest target hfound =>
    rw [walk, hchild, hfound]
    rfl
  | case11 here name rest target hfound links ih =>
    rw [walk, hchild, hfound]
    exact ih

theorem find_shape (fs : FileSystem) (p : Path) :
    fs.shape.find p = (fs.find p).map fun found => (found.1, found.2.shape) := by
  have hlocate : fs.shape.locate p =
      (fs.locate p).map fun found => (found.1, found.2.map FileNode.shape) := by
    unfold locate
    rw [top_shape, walk_shape]
    split <;> rfl
  unfold find
  rw [hlocate]
  cases fs.locate p with
  | error e => rfl
  | ok place =>
    obtain ⟨names, found⟩ := place
    cases found <;> rfl

theorem isFile_shape (fs : FileSystem) (p : Path) : fs.shape.isFile p = fs.isFile p := by
  unfold isFile
  rw [find_shape]
  cases fs.find p with
  | error e => rfl
  | ok place =>
    obtain ⟨names, found⟩ := place
    cases found <;> rfl

theorem contains_dirs_shape (fs : FileSystem) (names : List String) :
    fs.shape.dirs.contains names = fs.dirs.contains names := by
  rw [Bool.eq_iff_iff, List.contains_iff_mem, List.contains_iff_mem, dirs, dirs, top_shape]
  exact FileNode.mem_dirsFrom_shape [] fs.top

end FileSystem

theorem Resolution.resolve_shape (fs : FileSystem) (policy : ResolutionPolicy) (specifier : String)
    (importer : Path) :
    resolve fs.shape policy specifier importer = resolve fs policy specifier importer := by
  have hfile : fs.shape.isFile = fs.isFile := funext fs.isFile_shape
  simp only [resolve, hfile]

namespace Scan

/-- Whether a scan goes on into the directory that a link of some name leads to. -/
def follows (fs : FileSystem) (config : Config) (opened : List (List String)) (name : String)
    (target : List String) : Bool :=
  config.followLinks && !config.excludeDirs.contains name && fs.dirs.contains target &&
    !opened.contains target

theorem follows_iff {fs : FileSystem} {config : Config} {opened : List (List String)} {name : String}
    {target : List String} : follows fs config opened name target = true ↔
      config.followLinks ∧ ¬ config.excludeDirs.contains name ∧ target ∈ fs.dirs ∧ target ∉ opened := by
  simp [follows, and_assoc]

/-- What a scan finds at one entry of a directory. -/
def entryFiles (fs : FileSystem) (config : Config) (opened : List (List String)) (place : List String)
    (path : Path) (entry : String × FileNode) : List Path :=
  match entry.2 with
  | .file _ => [path.join ⟨entry.1⟩]
  | .dir inner =>
    if config.excludeDirs.contains entry.1 then []
    else below fs config ((place ++ [entry.1]) :: opened) (place ++ [entry.1]) (path.join ⟨entry.1⟩) inner
  | .link _ =>
    match fs.find (path.join ⟨entry.1⟩) with
    | .ok (_, .file _) => [path.join ⟨entry.1⟩]
    | .ok (target, .dir inner) =>
      if follows fs config opened entry.1 target then
        below fs config (target :: opened) target (path.join ⟨entry.1⟩) inner
      else []
    | _ => []

/-- A directory is scanned entry by entry, in the order of the names. -/
theorem below_eq (fs : FileSystem) (config : Config) (opened : List (List String)) (place : List String)
    (path : Path) (entries : List (String × FileNode)) :
    below fs config opened place path entries =
      (FileNode.sorted entries).flatMap (entryFiles fs config opened place path) := by
  have hsorted : (entries.attach.mergeSort fun a b => nameLE a.1.1 b.1.1).map Subtype.val =
      (entries.attach.map Subtype.val).mergeSort fun a b => nameLE a.1 b.1 :=
    List.map_mergeSort fun _ _ _ _ => rfl
  rw [List.attach_map_subtype_val] at hsorted
  rw [below, FileNode.sorted, ← hsorted, List.flatMap_map]
  apply List.flatMap_congr
  rintro ⟨⟨name, node⟩, _⟩ _
  cases node with
  | file content => rfl
  | dir inner => rfl
  | link target =>
    simp only [entryFiles]
    cases fs.find (path.join ⟨name⟩) with
    | error e => rfl
    | ok found =>
      obtain ⟨names, found⟩ := found
      cases found with
      | file content => rfl
      | link target => rfl
      | dir inner => simp only [follows_iff]

/-- A scan sees the shape alone. -/
theorem below_shape (fs : FileSystem) (config : Config) (opened : List (List String))
    (place : List String) (path : Path) (entries : List (String × FileNode)) :
    below fs.shape config opened place path (FileNode.sorted (FileNode.shapeOfAll entries)) =
      below fs config opened place path entries := by
  induction opened, place, path, entries using below.induct fs config with
  | case1 opened place path entries ihdir ihlink =>
    rw [below_eq, below_eq, FileNode.sorted_sorted, FileNode.sorted_shapeOfAll, List.flatMap_map]
    apply List.flatMap_congr
    rintro ⟨name, node⟩ hentry
    have hmem : (name, node) ∈ entries := List.mem_mergeSort.1 hentry
    cases node with
    | file content => rfl
    | dir inner =>
      simp only [entryFiles, FileNode.shape]
      rw [ihdir name inner hmem]
    | link target =>
      simp only [entryFiles, FileNode.shape, FileSystem.find_shape]
      cases hfind : fs.find (path.join ⟨name⟩) with
      | error e => rfl
      | ok found =>
        obtain ⟨names, found⟩ := found
        cases found with
        | file content => rfl
        | link target => rfl
        | dir inner =>
          have hfollows : follows fs.shape config opened name names =
              follows fs config opened name names := by
            simp only [follows, FileSystem.contains_dirs_shape]
          simp only [Except.map, FileNode.shape, hfollows]
          split
          · rename_i hfollow
            exact ihlink name names inner (follows_iff.1 hfollow)
          · rfl

/-- The sources that a scan finds depend on the shape alone. -/
theorem root_shape (fs : FileSystem) (config : Config) (path : Path) :
    root fs.shape config path = root fs config path := by
  unfold root files
  rw [FileSystem.find_shape]
  cases fs.find path with
  | error e => rfl
  | ok found =>
    obtain ⟨names, found⟩ := found
    cases found with
    | file content => rfl
    | link target => rfl
    | dir inner =>
      simp only [Except.map, FileNode.shape]
      rw [below_shape]

theorem roots_shape (fs : FileSystem) (config : Config) (roots : List Path) :
    Scan.roots fs.shape config roots = Scan.roots fs config roots := by
  have hroot : root fs.shape config = root fs config := funext (root_shape fs config)
  rw [Scan.roots, Scan.roots, hroot]

end Scan

end Dependents
