import Dependents.Proofs.CanonicalPaths
import Mathlib.Data.List.Nodup

/-! File systems as they can be: the entries of a directory have names of their own. Where no link is
on the way, looking a path up is a descent along its names. -/
namespace Dependents

open Dependents.Path

namespace Path

instance (name : String) : Decidable (IsName name) :=
  decidable_of_iff (name.toList ≠ [] ∧ '/' ∉ name.toList ∧ name.toList ≠ ['.'] ∧
      name.toList ≠ ['.', '.'])
    ⟨fun h => ⟨h.1, h.2.1, h.2.2.1, h.2.2.2⟩, fun h => ⟨h.ne_nil, h.no_slash, h.ne_dot, h.ne_dots⟩⟩

instance (names : List String) : Decidable (AreNames names) :=
  inferInstanceAs (Decidable (∀ name ∈ names, IsName name))

end Path

namespace FileNode

variable {P : FileNode → Prop} {node found : FileNode} {entries : List (String × FileNode)}
  {name : String} {names : List String}

/-- What holds of a node and of all nodes below it. -/
inductive Throughout (P : FileNode → Prop) : FileNode → Prop
  | intro {node : FileNode} (here : P node)
      (below : ∀ entries, node = .dir entries → ∀ entry ∈ entries, Throughout P entry.2) :
      Throughout P node

theorem throughout_file {content : List UInt8} : (file content).Throughout P ↔ P (file content) := by
  constructor
  · rintro ⟨here, _⟩
    exact here
  · exact fun here => ⟨here, fun _ heq => by cases heq⟩

theorem throughout_link {target : Path} : (link target).Throughout P ↔ P (link target) := by
  constructor
  · rintro ⟨here, _⟩
    exact here
  · exact fun here => ⟨here, fun _ heq => by cases heq⟩

theorem throughout_dir : (dir entries).Throughout P ↔
    P (dir entries) ∧ ∀ entry ∈ entries, entry.2.Throughout P := by
  constructor
  · rintro ⟨here, below⟩
    exact ⟨here, below entries rfl⟩
  · rintro ⟨here, below⟩
    refine ⟨here, fun _ heq => ?_⟩
    cases heq
    exact below

theorem Throughout.here (h : node.Throughout P) : P node := by
  obtain ⟨here, _⟩ := h
  exact here

theorem mem_of_child? (h : (dir entries).child? name = some node) : (name, node) ∈ entries := by
  obtain ⟨⟨other, child⟩, hfind, rfl⟩ := Option.map_eq_some_iff.1 h
  have hname : other = name := by simpa using List.find?_some hfind
  rw [← hname]
  exact List.mem_of_find?_eq_some hfind

theorem Throughout.child? (h : node.Throughout P) (hchild : node.child? name = some found) :
    found.Throughout P := by
  cases node with
  | file content => cases hchild
  | link target => cases hchild
  | dir entries => exact (throughout_dir.1 h).2 _ (mem_of_child? hchild)

theorem Throughout.at? (h : node.Throughout P) (hat : node.at? names = some found) :
    found.Throughout P := by
  induction names generalizing node with
  | nil =>
    cases hat
    exact h
  | cons name names ih =>
    obtain ⟨child, hchild, hrest⟩ := Option.bind_eq_some_iff.1 hat
    exact ih (h.child? hchild) hrest

/-- Entries stand under proper names, each under its own. -/
def WellNamed : FileNode → Prop
  | .dir entries => (∀ entry ∈ entries, IsName entry.1) ∧ (entries.map (·.1)).Nodup
  | _ => True

theorem child?_eq_some_iff (h : (dir entries).WellNamed) :
    (dir entries).child? name = some node ↔ (name, node) ∈ entries := by
  refine ⟨mem_of_child?, fun hmem => ?_⟩
  obtain ⟨other, hfind⟩ : ∃ other, entries.find? (fun entry => entry.1 == name) = some other := by
    rw [← Option.isSome_iff_exists, List.find?_isSome]
    exact ⟨_, hmem, by simp⟩
  have hname : other.1 = name := by simpa using List.find?_some hfind
  have heq : other = (name, node) :=
    List.inj_on_of_nodup_map h.2 (List.mem_of_find?_eq_some hfind) hmem hname
  rw [child?, hfind, heq]
  rfl

/-- Only names lead to something. -/
theorem areNames_of_at? (h : node.Throughout WellNamed) (hat : node.at? names = some found) :
    AreNames names := by
  induction names generalizing node with
  | nil => exact fun _ hmem => absurd hmem List.not_mem_nil
  | cons name names ih =>
    obtain ⟨child, hchild, hrest⟩ := Option.bind_eq_some_iff.1 hat
    intro other hother
    rcases List.mem_cons.1 hother with rfl | hother
    · cases node with
      | file content => cases hchild
      | link target => cases hchild
      | dir entries => exact h.here.1 _ (mem_of_child? hchild)
    · exact ih (h.child? hchild) hrest other hother

end FileNode

namespace FileSystem

variable {fs : FileSystem} {top node : FileNode} {links : Nat} {here m names : List String}
  {name : String} {rest : List Component} {entries : List (String × FileNode)}

/-- A file system in which every directory is well named, and whose working directory is there. -/
structure WellFormed (fs : FileSystem) : Prop where
  named : fs.top.Throughout FileNode.WellNamed
  working : ∃ entries, fs.top.at? fs.workingDir = some (.dir entries)

/-- A file system without links. -/
def NoLinks (fs : FileSystem) : Prop :=
  fs.top.Throughout fun node => ∀ target, node ≠ .link target

theorem NoLinks.linkFree (h : fs.NoLinks) (names : List String) : LinkFree fs.top names := by
  intro before _ target hlink
  exact (h.at? hlink).here target rfl

/-- No link is on the way to a directory. -/
theorem linkFree_of_dir (h : top.at? names = some (.dir entries)) : LinkFree top names := by
  rintro before ⟨more, rfl⟩ target hlink
  obtain ⟨inner, hdir⟩ := dir_of_at?_append h
  rw [hdir] at hlink
  cases hlink

/-- Names that lead to a directory are passed one by one. -/
theorem walk_dirs (h : top.at? (here ++ names) = some (.dir entries)) (rest : List Component) :
    walk top links here (names.map .name ++ rest) = walk top links (here ++ names) rest := by
  induction names generalizing here with
  | nil => rw [List.map_nil, List.nil_append, List.append_nil]
  | cons name names ih =>
    rw [List.append_cons] at h ⊢
    obtain ⟨inner, hdir⟩ := dir_of_at?_append h
    rw [List.map_cons, List.cons_append, walk_name_dir hdir, ih h]

theorem walk_of_find {p : Path} (h : fs.find p = .ok (m, node)) :
    walk fs.top maxLinks fs.workingDir p.steps = .ok (m, some node) := by
  unfold find at h
  split at h
  · rename_i hlocate
    cases h
    unfold locate at hlocate
    split at hlocate
    · cases hlocate
    · exact hlocate
  · cases h
  · cases h

/-- What a path leads to stands at the names that it leads to. -/
theorem at?_of_find {p : Path} (h : fs.find p = .ok (m, node)) : fs.top.at? m = some node :=
  (walk_at (walk_of_find h)).symm

theorem canonicalize_eq_ok {p c : Path} :
    fs.canonicalize p = .ok c ↔ ∃ m node, fs.find p = .ok (m, node) ∧ ofNames m = c := by
  unfold canonicalize
  cases fs.find p with
  | error e => simp [Except.map]
  | ok found =>
    obtain ⟨m, node⟩ := found
    simp [Except.map]

/-- No link is on the way along the names that a path leads to. -/
theorem WellFormed.linkFree_of_find (h : fs.WellFormed) {p : Path} (hfind : fs.find p = .ok (m, node)) :
    LinkFree fs.top m := by
  obtain ⟨entries, hdir⟩ := h.working
  exact linkFree_of_walk (fun _ htop => by cases htop) (linkFree_of_dir hdir) (walk_of_find hfind)

theorem find_root (fs : FileSystem) : fs.find (ofNames []) = .ok ([], fs.top) := by
  have hsteps : (ofNames []).steps = [.root, .current] := by decide
  rw [find, locate, text_ofNames_ne_empty fun _ hmem => absurd hmem List.not_mem_nil,
    if_neg Bool.false_ne_true, hsteps, walk, walk, walk, FileNode.at?]

theorem locate_ofNames (h : AreNames names) (hne : names ≠ []) :
    fs.locate (ofNames names) = walk fs.top maxLinks [] (names.map .name) := by
  rw [locate, text_ofNames_ne_empty h, if_neg Bool.false_ne_true, steps_ofNames h hne, walk]

/-- What stands at some names is found by the path that spells them, unless it is a link. -/
theorem find_of_at? (h : AreNames names) (hat : fs.top.at? names = some node)
    (hlink : ∀ target, node ≠ .link target) : fs.find (ofNames names) = .ok (names, node) := by
  rcases List.eq_nil_or_concat' names with rfl | ⟨most, last, rfl⟩
  · cases hat
    exact find_root fs
  · obtain ⟨above, habove, hchild⟩ := Option.bind_eq_some_iff.1 (FileNode.at?_concat _ _ _ ▸ hat)
    obtain ⟨entries, rfl⟩ : ∃ entries, above = .dir entries := by
      cases above with
      | file content => cases hchild
      | link target => cases hchild
      | dir entries => exact ⟨entries, rfl⟩
    have hwalk : fs.locate (ofNames (most ++ [last])) = walk fs.top maxLinks most [.name last] := by
      rw [locate_ofNames h (by simp), List.map_append, walk_dirs (List.nil_append most ▸ habove)]
      rfl
    cases node with
    | link target => exact absurd rfl (hlink target)
    | file content => rw [find, hwalk, walk_name_file hat]
    | dir inner => rw [find, hwalk, walk_name_dir hat, walk, hat]

/-- What is found by a path without links stands at the names that it spells. -/
theorem at?_of_find_ofNames (h : AreNames names) (hfree : LinkFree fs.top names)
    (hfind : fs.find (ofNames names) = .ok (m, node)) : m = names ∧ fs.top.at? names = some node := by
  by_cases hne : names = []
  · subst hne
    rw [find_root] at hfind
    cases hfind
    exact ⟨rfl, rfl⟩
  · obtain ⟨_, hiff⟩ := find_ofNames h hne hfind
    have hm : m = names := by
      rw [hiff, linkOn_ofNames h, not_not]
      exact hfree
    refine ⟨hm, ?_⟩
    rw [← hm]
    exact at?_of_find hfind

theorem isFile_iff_find {p : Path} :
    fs.isFile p = true ↔ ∃ m content, fs.find p = .ok (m, .file content) := by
  unfold isFile
  split
  · rename_i hfind
    simp [hfind]
  · rename_i hother
    simp only [Bool.false_eq_true, false_iff, not_exists]
    exact fun m content => hother m content

/-- A path without links leads to a file exactly if one stands there. -/
theorem isFile_iff_at? (h : AreNames names) (hfree : LinkFree fs.top names) :
    fs.isFile (ofNames names) = true ↔ ∃ content, fs.top.at? names = some (.file content) := by
  rw [isFile_iff_find]
  constructor
  · rintro ⟨m, content, hfind⟩
    exact ⟨content, (at?_of_find_ofNames h hfree hfind).2⟩
  · rintro ⟨content, hat⟩
    exact ⟨names, content, find_of_at? h hat fun _ heq => by cases heq⟩

/-- A file stands at some names, or a link that leads to one. -/
def HoldsFile (fs : FileSystem) (names : List String) : Prop :=
  (∃ content, fs.top.at? names = some (.file content)) ∨
    ∃ target, fs.top.at? names = some (.link target) ∧ fs.isFile (ofNames names) = true

/-- A path that passes no link before its end leads to a file exactly if a file stands at its end, or a
link to one. -/
theorem holdsFile_concat_iff (h : AreNames (names ++ [name])) :
    fs.HoldsFile (names ++ [name]) ↔
      fs.isFile (ofNames (names ++ [name])) = true ∧ LinkFree fs.top names := by
  constructor
  · intro hholds
    obtain ⟨node, hat⟩ : ∃ node, fs.top.at? (names ++ [name]) = some node := by
      rcases hholds with ⟨content, hat⟩ | ⟨target, hat, _⟩
      · exact ⟨_, hat⟩
      · exact ⟨_, hat⟩
    obtain ⟨above, habove, hchild⟩ := Option.bind_eq_some_iff.1 (FileNode.at?_concat _ _ _ ▸ hat)
    have hfree : LinkFree fs.top names := by
      cases above with
      | file content => cases hchild
      | link target => cases hchild
      | dir entries => exact linkFree_of_dir habove
    refine ⟨?_, hfree⟩
    rcases hholds with ⟨content, hfile⟩ | ⟨_, _, hfile⟩
    · rw [isFile_iff_find]
      exact ⟨_, content, find_of_at? h hfile fun _ heq => by cases heq⟩
    · exact hfile
  · rintro ⟨hfile, hfree⟩
    obtain ⟨m, content, hfind⟩ := isFile_iff_find.1 hfile
    cases hat : fs.top.at? (names ++ [name]) with
    | some node =>
      cases node with
      | file content => exact Or.inl ⟨content, hat⟩
      | link target => exact Or.inr ⟨target, hat, hfile⟩
      | dir entries =>
        rw [find_of_at? h hat fun _ heq => by cases heq] at hfind
        cases hfind
    | none =>
      have hfree' : LinkFree fs.top (names ++ [name]) := by
        refine hfree.concat fun target hlink => ?_
        rw [hat] at hlink
        cases hlink
      rw [(at?_of_find_ofNames h hfree' hfind).2] at hat
      cases hat

end FileSystem

end Dependents
