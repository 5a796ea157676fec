import Dependents.Proofs.EntryFiles
import Dependents.Proofs.FirstOccurrences
import Dependents.Proofs.FreshBuild
import Mathlib.Data.List.Find

/-! Source files and cache entries keep apart. Writing an entry changes nothing for whoever reads
sources and resolves imports, as long as no link leads from the name of a source file to an entry. -/
namespace Dependents

namespace SyntaxCache

variable {fs fs' : FileSystem} {dir path q : Path} {paths : Set Path} {content : List UInt8}

/-- A path that ends in the name of a source file, with a dot and the extension of a language. -/
def SourceNamed (q : Path) : Prop :=
  ∃ name extension, q.last? = some (.name name) ∧ Language.ofExtension? extension ≠ none ∧
    '.' :: extension.toList <:+ name.toList

theorem suffix_of_extensionOfName {name extension : String}
    (h : Path.extensionOfName name = some extension) : '.' :: extension.toList <:+ name.toList := by
  have hsplit := List.takeWhile_append_dropWhile (p := (· != '.')) (l := name.toList.reverse)
  have hhead := List.head?_dropWhile_not (· != '.') name.toList.reverse
  unfold Path.extensionOfName at h
  dsimp only at h
  split at h
  · cases h
  · cases h
  · rename_i dot next rest hdrop
    cases h
    rw [hdrop] at hsplit hhead
    obtain rfl : dot = '.' := by simpa using hhead
    refine ⟨(next :: rest).reverse, ?_⟩
    simpa using congrArg List.reverse hsplit

theorem sourceNamed_of_language {language : Language} (h : Language.ofPath? q = some language) :
    SourceNamed q := by
  obtain ⟨extension, hext, hlanguage⟩ := Option.bind_eq_some_iff.1 h
  obtain ⟨name, hname, hdot⟩ := Option.bind_eq_some_iff.1 hext
  refine ⟨name, extension, Path.fileName?_eq_some.1 hname, ?_, suffix_of_extensionOfName hdot⟩
  rw [hlanguage]
  exact Option.some_ne_none _

/-- All that an import may mean has the name of a source file. -/
theorem sourceNamed_of_mem_candidates {base : Path} (h : q ∈ Resolution.candidates base) :
    SourceNamed q := by
  rcases List.mem_append.1 h with h | h
  · obtain ⟨suffix, hsuffix, rfl⟩ := List.mem_map.1 h
    have hplain : '/' ∉ suffix.toList ∧ 2 < suffix.toList.length := by
      rcases List.mem_pair.1 hsuffix with rfl | rfl <;> decide
    obtain ⟨name, hlast, hend⟩ := Path.last?_withSuffix hplain.1 hplain.2 base
    rcases List.mem_pair.1 hsuffix with rfl | rfl
    · exact ⟨name, "ts", hlast, by decide, hend⟩
    · exact ⟨name, "js", hlast, by decide, hend⟩
  · obtain ⟨name, hname, rfl⟩ := List.mem_map.1 h
    have hplain : 2 < name.toList.length ∧ '/' ∉ name.toList := by
      rcases List.mem_pair.1 hname with rfl | rfl <;> decide
    have hlast : (base.join ⟨name⟩).last? = some (.name name) := by
      rw [Path.last?, Path.components_join base (Path.isName_of_long hplain.1 hplain.2),
        List.getLast?_concat]
    rcases List.mem_pair.1 hname with rfl | rfl
    · exact ⟨_, "ts", hlast, by decide, ⟨"index".toList, by decide⟩⟩
    · exact ⟨_, "js", hlast, by decide, ⟨"index".toList, by decide⟩⟩

/-- Entries do not have such names. -/
theorem not_suffix_fileName {extension : String} (h : Language.ofExtension? extension ≠ none)
    (path : Path) : ¬ '.' :: extension.toList <:+ (fileName path).toList := by
  have hend : ('.' :: extension.toList).getLast? ≠ some 'e' := by
    unfold Language.ofExtension? at h
    split at h
    case h_9 => exact absurd rfl h
    all_goals decide
  rintro ⟨before, happ⟩
  have hsame := getLast?_fileName path
  rw [← happ, List.getLast?_append_of_ne_nil _ (List.cons_ne_nil _ _)] at hsame
  exact hend hsame

/-- No link stands in the place of an entry, or leads from the name of a source file to the entry of
one of some paths. -/
structure LinksApart (paths : Set Path) (fs : FileSystem) (dir : Path) : Prop where
  unlinked : Unlinked fs dir
  leads : ∀ place entries, fs.enter? dir = some (place, entries) → ∀ q, SourceNamed q →
    ∀ path ∈ paths, ∀ found, fs.locate q ≠ .ok (place ++ [fileName path], found)

/-- No change to one file makes a link. -/
theorem LinksApart.differAt {spot : List String} (h : LinksApart paths fs dir)
    (hd : FileSystem.DifferAt spot fs fs') : LinksApart paths fs' dir where
  unlinked place entries he path target hlink := by
    obtain ⟨entries', he'⟩ := FileSystem.enter?_persist hd.symm.persists hd.symm.workingDir he
    apply h.unlinked place entries' he' path target
    have hat : fs'.top.at? (place ++ [fileName path]) = some (.link target) := by
      rw [FileNode.at?_concat, FileSystem.at?_of_enter? he]
      exact hlink
    have hat' := hd.symm.persists.link hat
    rwa [FileNode.at?_concat, FileSystem.at?_of_enter? he'] at hat'
  leads place entries he q hq path hpath found hlocate := by
    obtain ⟨entries', he'⟩ := FileSystem.enter?_persist hd.symm.persists hd.symm.workingDir he
    exact h.leads place entries' he' q hq path hpath _ (hd.symm.locate hlocate)

/-- Where there are no links, none stands in the way. -/
theorem linksApart_of_no_link (h : ∀ names target, fs.top.at? names ≠ some (.link target))
    (paths : Set Path) (dir : Path) : LinksApart paths fs dir where
  unlinked place entries he path target hlink := by
    apply h (place ++ [fileName path]) target
    rw [FileNode.at?_concat, FileSystem.at?_of_enter? he]
    exact hlink
  leads place entries he q hq path _ found hlocate := by
    obtain ⟨name, extension, hlast, hext, hsuffix⟩ := hq
    obtain ⟨before, hbefore⟩ := List.getLast?_eq_some_iff.1 hlast
    unfold FileSystem.locate at hlocate
    split at hlocate
    · cases hlocate
    · have hrest : ∀ step ∈ (if q.asksDirectory then [Component.current] else []), step = .current := by
        split <;> simp
      rw [Path.steps, hbefore, List.append_assoc, List.singleton_append] at hlocate
      have hend := FileSystem.getLast?_of_walk h hrest hlocate
      rw [List.getLast?_concat] at hend
      cases hend
      exact not_suffix_fileName hext path hsuffix

/-- There is no link where there are only files and directories of files. -/
theorem no_link_of_flat (h : ∀ entry ∈ fs.root, (∃ content, entry.2 = .file content) ∨
    ∃ inner, entry.2 = .dir inner ∧ FileNode.Plain inner) (names : List String) (target : Path) :
    fs.top.at? names ≠ some (.link target) := by
  intro hat
  cases names with
  | nil => cases hat
  | cons name names =>
    obtain ⟨node, hchild, hat⟩ := Option.bind_eq_some_iff.1 hat
    obtain ⟨entry, hentry, rfl⟩ := Option.map_eq_some_iff.1 hchild
    rcases h entry (List.mem_of_find?_eq_some hentry) with ⟨content, hnode⟩ | ⟨inner, hnode, hplain⟩
    · rw [hnode] at hat
      cases names <;> cases hat
    · rw [hnode] at hat
      cases names with
      | nil => cases hat
      | cons other more =>
        have hhere : (FileNode.dir inner).at? [] = some (.dir inner) := rfl
        have hloose := FileNode.loose_look.1 (FileNode.loose_below hhere hplain other more)
        rw [List.nil_append, hat] at hloose
        simp [FileNode.Loose] at hloose

end SyntaxCache

namespace Analysis

open SyntaxCache

variable {fs fs' fs'' : FileSystem} {dir path : Path} {paths : Set Path} {policy : ResolutionPolicy}
  {content : List UInt8}

/-- The same can be read wherever the name is that of a source file. -/
def SameSources (fs fs' : FileSystem) : Prop :=
  ∀ q, SourceNamed q → ∀ content, fs'.read q = .ok content ↔ fs.read q = .ok content

theorem SameSources.refl (fs : FileSystem) : SameSources fs fs :=
  fun _ _ _ => .rfl

theorem SameSources.trans (h : SameSources fs fs') (h' : SameSources fs' fs'') :
    SameSources fs fs'' :=
  fun q hq content => (h' q hq content).trans (h q hq content)

/-- Writing an entry leaves the sources as they were, and the links apart. -/
theorem sameSources_write (h : LinksApart paths fs dir) (hpath : path ∈ paths)
    (hwrite : fs.write (filePath dir path) content = .ok fs') :
    LinksApart paths fs' dir ∧ SameSources fs fs' := by
  obtain ⟨place, entries, he, hold, rfl⟩ := write_eq_ok h.unlinked hwrite
  have hd := FileSystem.differAt_put_file content (FileSystem.at?_of_enter? he) hold
  refine ⟨h.differAt hd, fun q hq _ => ⟨hd.symm.read_of_ne fun found hlocate => ?_, hd.read_of_ne ?_⟩⟩
  · exact h.leads place entries he q hq path hpath _ (hd.symm.locate hlocate)
  · exact h.leads place entries he q hq path hpath

theorem isFile_same (h : SameSources fs fs') {q : Path} (hq : SourceNamed q) :
    fs'.isFile q = fs.isFile q := by
  rw [Bool.eq_iff_iff, FileSystem.isFile_iff, FileSystem.isFile_iff]
  exact exists_congr (h q hq)

/-- Imports mean the same files, whatever the entries hold. -/
theorem resolve_same (h : SameSources fs fs') (policy : ResolutionPolicy) (specifier : String)
    (importer : Path) : Resolution.resolve fs' policy specifier importer =
      Resolution.resolve fs policy specifier importer := by
  have hfind : ∀ base, (Resolution.candidates base).find? fs'.isFile =
      (Resolution.candidates base).find? fs.isFile := by
    intro base
    apply List.find?_congr
    intro q hq
    exact isFile_same h (sourceNamed_of_mem_candidates hq)
  simp only [Resolution.resolve, hfind]

theorem edgesOfSyntax_same (h : SameSources fs fs') (syntaxOf : FileSyntax) :
    edgesOfSyntax fs' policy path syntaxOf = edgesOfSyntax fs policy path syntaxOf := by
  have hresolve : (Resolution.resolve fs' policy · path) = (Resolution.resolve fs policy · path) :=
    funext fun specifier => resolve_same h policy specifier path
  rw [edgesOfSyntax, hresolve]
  rfl

theorem sourceRead_same (h : SameSources fs fs') (hq : SourceNamed path) {text : String} :
    Source.read fs' path = .ok text ↔ Source.read fs path = .ok text := by
  rw [sourceRead_eq_ok, sourceRead_eq_ok]
  exact exists_congr fun content => and_congr_left' (h path hq content)

end Analysis

namespace Scan

variable {fs : FileSystem} {config : Config} {roots : List Path} {path : Path} {found : SourceFile}

theorem sourceFile?_eq_some : sourceFile? config path = some found ↔ found.path = path ∧
    ∃ extension, path.extension? = some extension ∧ extension ∈ config.includeExtensions ∧
      Language.ofExtension? extension = some found.language := by
  obtain ⟨foundPath, language⟩ := found
  unfold sourceFile?
  cases path.extension? with
  | none => simp
  | some extension =>
    by_cases hmem : extension ∈ config.includeExtensions
    · simp [hmem, Option.map_eq_some_iff, eq_comm, and_comm]
    · simp [hmem]

/-- What a scan finds has a language. -/
theorem language_of_mem_roots (h : found ∈ Scan.roots fs config roots) :
    Language.ofPath? found.path = some found.language := by
  obtain ⟨root, _, hroot⟩ := List.mem_flatMap.1 (Path.mem_of_mem_firstOfEach h)
  obtain ⟨path, _, hsource⟩ := List.mem_filterMap.1 hroot
  obtain ⟨rfl, extension, hext, _, hlang⟩ := sourceFile?_eq_some.1 hsource
  rw [Language.ofPath?, hext, Option.bind_some, hlang]

end Scan

end Dependents
