import Dependents.Cache.Basic
import Dependents.Proofs.RemadeDirectories
import Dependents.Proofs.WrittenFiles

/-! The files that keep cache entries. Writing one is seen at its own place and nowhere else: not in
the other entries, and not by a path that ends in another name. -/
namespace Dependents.SyntaxCache

variable {fs fs' : FileSystem} {dir path other : Path} {place names : List String}
  {entries : List (String × FileNode)} {content : List UInt8}

theorem slash_not_mem_toDigits (n : Nat) : '/' ∉ Nat.toDigits 16 n := by
  induction n using Nat.strong_induction_on with
  | h n ih =>
    rw [Nat.toDigits_eq_if (by decide)]
    split
    · simp
    · have hrest := ih (n / 16) (by omega)
      simp [hrest]

theorem toList_fileName (path : Path) : (fileName path).toList =
    "syntax_".toList ++ Nat.toDigits 16 path.digest.toNat ++ ".bincode".toList := by
  simp [fileName]

theorem isName_fileName (path : Path) : Path.IsName (fileName path) := by
  have hlength : 2 < (fileName path).toList.length := by
    rw [toList_fileName, List.length_append, List.length_append]
    have hfirst : "syntax_".toList.length = 7 := by decide
    omega
  apply Path.isName_of_long hlength
  have hfirst : '/' ∉ "syntax_".toList := by decide
  have hlast : '/' ∉ ".bincode".toList := by decide
  rw [toList_fileName, List.mem_append, List.mem_append]
  rintro ((h | h) | h)
  · exact hfirst h
  · exact slash_not_mem_toDigits _ h
  · exact hlast h

theorem getLast?_fileName (path : Path) : (fileName path).toList.getLast? = some 'e' := by
  rw [toList_fileName, List.getLast?_append]
  rfl

/-- No link stands in the place of an entry. -/
def Unlinked (fs : FileSystem) (dir : Path) : Prop :=
  ∀ place entries, fs.enter? dir = some (place, entries) →
    ∀ path target, (FileNode.dir entries).child? (fileName path) ≠ some (.link target)

theorem unlinked_of_enter?_none (h : fs.enter? dir = none) : Unlinked fs dir := by
  intro place entries he
  rw [h] at he
  cases he

theorem unlinked_of_plain (h : fs.enter? dir = some (place, entries)) (hplain : FileNode.Plain entries) :
    Unlinked fs dir := by
  intro place' entries' he path target hlink
  rw [h] at he
  cases he
  obtain ⟨content, hfile⟩ := hplain _ _ hlink
  cases hfile

theorem unlinked_of_enter?_nil (h : fs.enter? dir = some (place, [])) : Unlinked fs dir :=
  unlinked_of_plain h FileNode.plain_nil

theorem name_mem_steps (dir path : Path) : ∃ name, Component.name name ∈ (filePath dir path).steps := by
  refine ⟨fileName path, ?_⟩
  rw [filePath, Path.steps_join dir (isName_fileName path)]
  exact List.mem_append_right _ List.mem_cons_self

theorem locate_filePath (fs : FileSystem) (dir path : Path) :
    fs.locate (filePath dir path) = FileSystem.walk fs.top maxLinks fs.workingDir
      (dir.components ++ [.name (fileName path)]) := by
  have hname := isName_fileName path
  rw [FileSystem.locate, filePath, Path.text_join_ne_empty dir hname, if_neg Bool.false_ne_true,
    Path.steps_join dir hname]

theorem locate_of_enter? (hu : Unlinked fs dir) (h : fs.enter? dir = some (place, entries))
    (path : Path) : fs.locate (filePath dir path) =
      .ok (place ++ [fileName path], (FileNode.dir entries).child? (fileName path)) := by
  rw [locate_filePath]
  exact FileSystem.walk_snoc (FileSystem.enter?_eq_some.1 h) (hu place entries h path)

theorem locate_of_enter?_none (h : fs.enter? dir = none) (path : Path) :
    ∃ e, fs.locate (filePath dir path) = .error e := by
  rw [locate_filePath]
  exact FileSystem.walk_snoc_error (FileSystem.enter?_eq_none.1 h) (fileName path)

theorem enter?_of_write (h : fs.write (filePath dir path) content = .ok fs') :
    ∃ place entries, fs.enter? dir = some (place, entries) := by
  cases he : fs.enter? dir with
  | some there => exact ⟨there.1, there.2, rfl⟩
  | none =>
    obtain ⟨names, found, hlocate, _, _⟩ := FileSystem.locate_of_write h
    obtain ⟨e, herror⟩ := locate_of_enter?_none he path
    rw [herror] at hlocate
    cases hlocate

/-- An entry can be written where no directory is in its place. -/
theorem write_of_enter? (hu : Unlinked fs dir) (h : fs.enter? dir = some (place, entries))
    (hfree : ∀ inner, (FileNode.dir entries).child? (fileName path) ≠ some (.dir inner))
    (content : List UInt8) : fs.write (filePath dir path) content =
      .ok (fs.put (place ++ [fileName path]) (.file content)) :=
  FileSystem.write_of_locate (locate_of_enter? hu h path) hfree

/-- Writing an entry puts it into the directory, where nothing but an older entry was. -/
theorem write_eq_ok (hu : Unlinked fs dir) (h : fs.write (filePath dir path) content = .ok fs') :
    ∃ place entries, fs.enter? dir = some (place, entries) ∧
      FileNode.Loose (fs.top.look (place ++ [fileName path])) ∧
      fs' = fs.put (place ++ [fileName path]) (.file content) := by
  obtain ⟨names, found, hlocate, hfree, hput⟩ := FileSystem.locate_of_write h
  obtain ⟨place, entries, he⟩ := enter?_of_write h
  rw [locate_of_enter? hu he] at hlocate
  cases hlocate
  refine ⟨place, entries, he, ?_, hput⟩
  rw [FileNode.loose_look, FileNode.at?_concat, FileSystem.at?_of_enter? he, Option.bind_some]
  cases hchild : (FileNode.dir entries).child? (fileName path) with
  | none => exact .inl rfl
  | some node =>
    cases node with
    | file old => exact .inr ⟨old, rfl⟩
    | dir inner => exact absurd hchild (hfree inner)
    | link target => exact absurd hchild (hu place entries he path target)

theorem unlinked_write (hu : Unlinked fs dir)
    (h : fs.write (filePath dir path) content = .ok fs') : Unlinked fs' dir := by
  obtain ⟨place, entries, he, hold, rfl⟩ := write_eq_ok hu h
  intro place' entries' he' q target
  rw [FileSystem.enter?_put_file he hold] at he'
  cases he'
  rw [FileNode.child?_putEntry]
  split
  · simp
  · exact hu place entries he q target

theorem unlinked_of_steady (hs : fs.Steady dir) : Unlinked fs dir := by
  obtain ⟨place, entries, he, hplain⟩ := hs.enters
  exact unlinked_of_plain he hplain

/-- Writing an entry leaves the path of its directory as steady as it was. -/
theorem steady_write (hs : fs.Steady dir) (h : fs.write (filePath dir path) content = .ok fs') :
    fs'.Steady dir := by
  obtain ⟨place, entries, he, hold, rfl⟩ := write_eq_ok (unlinked_of_steady hs) h
  obtain ⟨place', entries', he', hplain⟩ := hs.enters
  rw [he] at he'
  cases he'
  have hdiffer := FileSystem.differAt_put_file content (FileSystem.at?_of_enter? he) hold
  exact ⟨hs.text, hs.made.persist hdiffer.persists hdiffer.workingDir, place, _,
    FileSystem.enter?_put_file he hold, hplain.putEntry content⟩

/-- A written entry is found where it was looked for. -/
theorem locate_write_self (hu : Unlinked fs dir)
    (h : fs.write (filePath dir path) content = .ok fs') : ∃ names found,
      fs.locate (filePath dir path) = .ok (names, found) ∧
        fs'.locate (filePath dir path) = .ok (names, some (.file content)) := by
  have hu' := unlinked_write hu h
  obtain ⟨place, entries, he, hold, rfl⟩ := write_eq_ok hu h
  refine ⟨_, _, locate_of_enter? hu he path, ?_⟩
  rw [locate_of_enter? hu' (FileSystem.enter?_put_file he hold), FileNode.child?_putEntry, if_pos rfl]

/-- Nothing is seen of it at other entries. -/
theorem locate_write_other (hu : Unlinked fs dir)
    (h : fs.write (filePath dir path) content = .ok fs') (hne : fileName other ≠ fileName path) :
    fs'.locate (filePath dir other) = fs.locate (filePath dir other) := by
  have hu' := unlinked_write hu h
  obtain ⟨place, entries, he, hold, rfl⟩ := write_eq_ok hu h
  rw [locate_of_enter? hu' (FileSystem.enter?_put_file he hold), locate_of_enter? hu he,
    FileNode.child?_putEntry, if_neg hne]

end Dependents.SyntaxCache
