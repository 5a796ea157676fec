import Dependents.Analysis
import Dependents.Proofs.ImportBindings
import Dependents.Proofs.IndexBuckets
import Dependents.Proofs.NormalPaths
import Dependents.Proofs.SourceFiles

/-! The keys of an index. Scanned files have absolute paths, so what their imports resolve to is in
normal form, and every key of an index is such a path, whatever cache the build used. -/
namespace Dependents

open Dependents.Path

namespace Scan

variable {fs : FileSystem} {config : Config} {opened : List (List String)} {place : List String}
  {path top : Path} {entries : List (String × FileNode)} {roots : List Path} {found : SourceFile}

theorem isAbsolute_below (htop : top.isAbsolute = true)
    (h : path ∈ below fs config opened place top entries) : path.isAbsolute = true := by
  induction opened, place, top, entries using below.induct fs config with
  | case1 opened place top entries ihdir ihlink =>
    rw [below] at h
    obtain ⟨⟨⟨name, node⟩, hentry⟩, _, hpath⟩ := List.mem_flatMap.1 h
    have hjoin := isAbsolute_join htop ⟨name⟩
    cases node with
    | file content =>
      rw [List.mem_singleton.1 hpath]
      exact hjoin
    | dir inner =>
      dsimp only at hpath
      split at hpath
      · cases hpath
      · exact ihdir name inner hentry hjoin hpath
    | link target =>
      dsimp only at hpath
      split at hpath
      · rw [List.mem_singleton.1 hpath]
        exact hjoin
      · split at hpath
        · rename_i hfollow
          exact ihlink name _ _ hfollow hjoin hpath
        · cases hpath
      · cases hpath

/-- What a scan finds has an absolute path. -/
theorem isAbsolute_of_mem_roots (h : found ∈ Scan.roots fs config roots) :
    found.path.isAbsolute = true := by
  obtain ⟨root, _, hroot⟩ := List.mem_flatMap.1 (Path.mem_of_mem_firstOfEach h)
  obtain ⟨path, hpath, hsource⟩ := List.mem_filterMap.1 hroot
  rw [(sourceFile?_eq_some.1 hsource).1]
  unfold files at hpath
  split at hpath
  · exact isAbsolute_below (isAbsolute_ofNames _) hpath
  · rw [List.mem_singleton.1 hpath]
    exact isAbsolute_ofNames _
  · cases hpath

end Scan

namespace Resolution

variable {fs : FileSystem} {policy : ResolutionPolicy} {specifier : String} {importer base target : Path}
  {names : List String}

/-- Seen from an absolute path, a specifier spells names. -/
theorem names_of_base? (himporter : importer.isAbsolute = true)
    (h : base? specifier importer = some base) : ∃ names, AreNames names ∧ base = ofNames names := by
  obtain ⟨dir, hdir, rfl⟩ := Option.map_eq_some_iff.1 h
  have hjoin := isAbsolute_join (isAbsolute_parent? himporter hdir) ⟨specifier⟩
  obtain ⟨hnormal, hnames⟩ := normalize_of_absolute hjoin
  exact ⟨_, hnames, hnormal⟩

theorem long_of_mem_suffixes {suffix : String} (h : suffix ∈ suffixes) :
    '/' ∉ suffix.toList ∧ 2 < suffix.toList.length := by
  rcases List.mem_pair.1 h with rfl | rfl <;> decide

theorem isName_of_mem_indexFiles {name : String} (h : name ∈ indexFiles) : IsName name := by
  rcases List.mem_pair.1 h with rfl | rfl <;> exact isName_of_long (by decide) (by decide)

theorem straight_of_mem_candidates (h : AreNames names) (ht : target ∈ candidates (ofNames names)) :
    target.Straight := by
  rcases List.mem_append.1 ht with ht | ht
  · obtain ⟨suffix, hsuffix, rfl⟩ := List.mem_map.1 ht
    obtain ⟨hslash, hlong⟩ := long_of_mem_suffixes hsuffix
    exact straight_withSuffix h hslash hlong
  · obtain ⟨name, hname, rfl⟩ := List.mem_map.1 ht
    exact straight_join h (isName_of_mem_indexFiles hname)

/-- A target is among the candidates of its base, if only as the one that is assumed. -/
theorem mem_candidates_of_resolve (h : resolve fs policy specifier importer = some target) :
    ∃ base, base? specifier importer = some base ∧ target ∈ candidates base := by
  unfold resolve at h
  split at h
  · obtain ⟨base, hbase, hmatch⟩ := Option.bind_eq_some_iff.1 h
    refine ⟨base, hbase, ?_⟩
    split at hmatch
    · rename_i file _ hfind
      cases hmatch
      exact List.mem_of_find?_eq_some hfind
    · cases hmatch
    · cases hmatch
      exact List.mem_cons_self
  · cases h

theorem straight_of_resolve (himporter : importer.isAbsolute = true)
    (h : resolve fs policy specifier importer = some target) : target.Straight := by
  obtain ⟨base, hbase, htarget⟩ := mem_candidates_of_resolve h
  obtain ⟨names, hnames, rfl⟩ := names_of_base? himporter hbase
  exact straight_of_mem_candidates hnames htarget

end Resolution

namespace DependencyIndex

variable {pairs : List (Path × Edge)} {key : Path} {bucket : Bucket}

theorem mem_targets_extend_of (index : DependencyIndex) (h : key ∈ (index.extend pairs).targets) :
    key ∈ index.targets ∨ ∃ pair ∈ pairs, pair.1 = key := by
  induction pairs generalizing index with
  | nil => exact .inl h
  | cons pair pairs ih =>
    rcases ih (index.add pair.1 pair.2) h with hadd | ⟨other, hother, hkey⟩
    · obtain ⟨bucket, hbucket, rfl⟩ := List.mem_map.1 hadd
      rcases target_insertEdge hbucket with heq | ⟨old, hold, heq⟩
      · exact .inr ⟨pair, List.mem_cons_self, heq.symm⟩
      · exact .inl (List.mem_map.2 ⟨old, hold, heq.symm⟩)
    · exact .inr ⟨other, List.mem_cons_of_mem _ hother, hkey⟩

/-- Keys are spelled as the pairs spell them. -/
theorem mem_targets_extend (h : key ∈ (empty.extend pairs).targets) :
    ∃ pair ∈ pairs, pair.1 = key := by
  rcases mem_targets_extend_of empty h with hempty | hpair
  · cases hempty
  · exact hpair

/-- No bucket is empty. -/
theorem edgesOf_ne_nil (h : key ∈ (empty.extend pairs).targets) :
    (empty.extend pairs).edgesOf key ≠ [] := by
  obtain ⟨pair, hpair, rfl⟩ := mem_targets_extend h
  have hmem : pair ∈ pairs.filter fun other => other.1.same pair.1 :=
    List.mem_filter.2 ⟨hpair, same_iff.2 rfl⟩
  rw [edgesOf_extend]
  exact List.ne_nil_of_mem (List.mem_map_of_mem hmem)

end DependencyIndex

namespace Analysis

variable {grammar : Grammar} {policy : ResolutionPolicy} {config : Config} {s : Session}
  {files : FileSystem} {path key : Path} {paths roots : List Path} {syntaxOf : FileSyntax}
  {pair : Path × Edge}

/-- An edge leads to what some declaration of the file resolves to. -/
theorem resolve_of_mem_edgesOfSyntax (h : pair ∈ edgesOfSyntax files policy path syntaxOf) :
    ∃ specifier, Resolution.resolve files policy specifier path = some pair.1 := by
  obtain ⟨site, _, hsite⟩ := List.mem_filterMap.1 h
  rw [ImportTable.edge?_ofDeclarations] at hsite
  obtain ⟨target, hmeaning, rfl⟩ := Option.map_eq_some_iff.1 hsite
  obtain ⟨d, _, _, hresolve⟩ := ImportTable.exists_of_meaning? hmeaning
  exact ⟨d.specifier, hresolve⟩

/-- An edge belongs to the file whose call it is. -/
theorem dependent_of_mem_edgesOfSyntax (h : pair ∈ edgesOfSyntax files policy path syntaxOf) :
    pair.2.dependent = path := by
  obtain ⟨site, _, hsite⟩ := List.mem_filterMap.1 h
  obtain ⟨binding, _, rfl⟩ := Option.map_eq_some_iff.1 hsite
  rfl

theorem resolve_of_mem_fileList (h : pair ∈ (fileList grammar policy s paths).1) :
    ∃ path ∈ paths, ∃ files specifier,
      Resolution.resolve files policy specifier path = some pair.1 := by
  induction paths generalizing s with
  | nil => cases h
  | cons path paths ih =>
    rcases List.mem_append.1 h with h | h
    · split at h
      · rename_i syntaxOf s' _
        obtain ⟨specifier, hresolve⟩ := resolve_of_mem_edgesOfSyntax h
        exact ⟨path, List.mem_cons_self, s'.files, specifier, hresolve⟩
      · cases h
    · obtain ⟨other, hother, hresolve⟩ := ih h
      exact ⟨other, List.mem_cons_of_mem path hother, hresolve⟩

/-- Every key of an index is what a scanned file imports. -/
theorem resolve_of_mem_targets (h : key ∈ (analyze grammar config s roots).1.targets) :
    ∃ found ∈ Scan.roots s.files config roots, ∃ files specifier,
      Resolution.resolve files config.resolution specifier found.path = some key := by
  obtain ⟨pair, hpair, rfl⟩ := DependencyIndex.mem_targets_extend h
  obtain ⟨path, hpath, hresolve⟩ := resolve_of_mem_fileList hpair
  obtain ⟨found, hfound, rfl⟩ := List.mem_map.1 hpath
  exact ⟨found, hfound, hresolve⟩

/-- Every key of an index is in normal form. -/
theorem straight_of_mem_targets (h : key ∈ (analyze grammar config s roots).1.targets) :
    key.Straight := by
  obtain ⟨found, hfound, files, specifier, hresolve⟩ := resolve_of_mem_targets h
  exact Resolution.straight_of_resolve (Scan.isAbsolute_of_mem_roots hfound) hresolve

end Analysis

end Dependents
