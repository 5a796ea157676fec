import Dependents.Proofs.FirstOccurrences
import Dependents.Proofs.IndexKeys
import Dependents.Proofs.Shapes
import Dependents.Proofs.WellFormedTrees

/-! What a scan finds. What a directory holds is visited in its place among its neighbours, so files
come in the order of their paths. -/
namespace Dependents

open Dependents.Path

namespace Path

variable {p q : Path} {a b : String} {place xs ys : List String}

theorem compare_append_left (common us vs : List Component) :
    compare (common ++ us) (common ++ vs) = compare us vs := by
  induction common with
  | nil => rfl
  | cons c common ih =>
    have hself : compare c c = .eq := Std.ReflCmp.compare_self
    rw [List.cons_append, List.cons_append, List.compare_cons_cons, hself, ih]
    rfl

theorem join_ofNames_concat (h : AreNames (place ++ [a])) :
    (ofNames place).join ⟨a⟩ = ofNames (place ++ [a]) :=
  join_ofNames (fun other hother => h other (List.mem_append_left _ hother)) (h a (by simp))

/-- Where two paths part, the names decide which of them comes first. -/
theorem order_of_parting (hx : AreNames (place ++ a :: xs)) (hy : AreNames (place ++ b :: ys))
    (h : compare a b = .lt) :
    (ofNames (place ++ a :: xs)).order (ofNames (place ++ b :: ys)) = .lt := by
  rw [order, components_ofNames hx, components_ofNames hy, List.map_append, List.map_append,
    ← List.cons_append, ← List.cons_append, compare_append_left, List.map_cons, List.map_cons,
    List.compare_cons_cons, Component.compare_name, h]
  rfl

end Path

namespace FileSystem

variable {fs : FileSystem} {names : List String}

/-- A file stands at the end of a path, or a link to one, exactly if the path leads to a file and passes
no link before its end. -/
theorem holdsFile_iff (h : AreNames names) : fs.HoldsFile names ↔
    fs.isFile (ofNames names) = true ∧
      ∀ above, (ofNames names).parent? = some above → ¬ fs.LinkOn above := by
  rcases List.eq_nil_or_concat' names with rfl | ⟨most, last, rfl⟩
  · constructor
    · rintro (⟨content, hat⟩ | ⟨target, hat, _⟩)
      · cases hat
      · cases hat
    · rintro ⟨hfile, _⟩
      obtain ⟨m, content, hfind⟩ := isFile_iff_find.1 hfile
      rw [find_root] at hfind
      cases hfind
  · have hmost : AreNames most := fun name hname => h name (List.mem_append_left _ hname)
    rw [holdsFile_concat_iff h, parent?_ofNames h]
    simp only [Option.some.injEq, forall_eq', linkOn_ofNames hmost, not_not]

/-- What stands where a file is held is no directory. -/
theorem HoldsFile.at? (h : fs.HoldsFile names) :
    ∃ node, fs.top.at? names = some node ∧ ∀ entries, node ≠ .dir entries := by
  rcases h with ⟨content, hat⟩ | ⟨target, hat, _⟩
  · exact ⟨_, hat, fun _ heq => by cases heq⟩
  · exact ⟨_, hat, fun _ heq => by cases heq⟩

theorem dir_of_holdsFile {next : String} {rest : List String} {node : FileNode}
    (hat : fs.top.at? names = some node) (h : fs.HoldsFile (names ++ next :: rest)) :
    ∃ entries, node = .dir entries := by
  obtain ⟨found, hfound, _⟩ := h.at?
  rw [FileNode.at?_append, hat, Option.bind_some] at hfound
  cases node with
  | dir entries => exact ⟨entries, rfl⟩
  | file content => cases hfound
  | link target => cases hfound

end FileSystem

namespace Scan

variable {fs : FileSystem} {config : Config} {opened : List (List String)} {name : String}
  {place rest : List String} {path top : Path} {node : FileNode} {entries : List (String × FileNode)}
  {found : SourceFile} {roots : List Path}

/-- A scan of a directory comes upon the file at the end of some names: it stands there, and none of the
directories on the way has an excluded name. -/
structure ComesUpon (fs : FileSystem) (config : Config) (place rest : List String) : Prop where
  holds : fs.HoldsFile (place ++ rest)
  entered : ∀ dir ∈ rest.dropLast, dir ∉ config.excludeDirs

theorem ComesUpon.cons_iff {next : String} : ComesUpon fs config place (name :: next :: rest) ↔
    name ∉ config.excludeDirs ∧ ComesUpon fs config (place ++ [name]) (next :: rest) := by
  have hplace : place ++ name :: next :: rest = place ++ [name] ++ next :: rest := by simp
  constructor
  · rintro ⟨holds, entered⟩
    rw [List.dropLast_cons_of_ne_nil (List.cons_ne_nil _ _), List.forall_mem_cons] at entered
    exact ⟨entered.1, hplace ▸ holds, entered.2⟩
  · rintro ⟨hname, holds, entered⟩
    refine ⟨hplace ▸ holds, ?_⟩
    rw [List.dropLast_cons_of_ne_nil (List.cons_ne_nil _ _), List.forall_mem_cons]
    exact ⟨hname, entered⟩

/-- What is come upon below an entry is the entry itself, or lies in it. -/
theorem exists_comesUpon_iff :
    (∃ rest, path = ofNames (place ++ name :: rest) ∧ ComesUpon fs config place (name :: rest)) ↔
      (path = ofNames (place ++ [name]) ∧ fs.HoldsFile (place ++ [name])) ∨
        name ∉ config.excludeDirs ∧ ∃ next rest, path = ofNames (place ++ [name] ++ next :: rest) ∧
          ComesUpon fs config (place ++ [name]) (next :: rest) := by
  constructor
  · rintro ⟨rest, hpath, hupon⟩
    cases rest with
    | nil => exact Or.inl ⟨hpath, hupon.holds⟩
    | cons next rest =>
      obtain ⟨hname, hupon⟩ := ComesUpon.cons_iff.1 hupon
      rw [List.append_cons] at hpath
      exact Or.inr ⟨hname, next, rest, hpath, hupon⟩
  · rintro (⟨hpath, hholds⟩ | ⟨hname, next, rest, hpath, hupon⟩)
    · exact ⟨[], hpath, hholds, by simp⟩
    · rw [← List.append_cons] at hpath
      exact ⟨next :: rest, hpath, ComesUpon.cons_iff.2 ⟨hname, hupon⟩⟩

/-- What a scan finds at one entry lies at the end of names that start with the entry's. -/
theorem mem_entryFiles_iff (hlinks : config.followLinks = false) (hplace : AreNames (place ++ [name]))
    (hat : fs.top.at? (place ++ [name]) = some node)
    (hbelow : ∀ inner, node = .dir inner →
      (path ∈ below fs config ((place ++ [name]) :: opened) (place ++ [name])
          (ofNames (place ++ [name])) inner ↔
        ∃ next rest, path = ofNames (place ++ [name] ++ next :: rest) ∧
          ComesUpon fs config (place ++ [name]) (next :: rest))) :
    path ∈ entryFiles fs config opened place (ofNames place) (name, node) ↔
      ∃ rest, path = ofNames (place ++ name :: rest) ∧ ComesUpon fs config place (name :: rest) := by
  have hjoin := join_ofNames_concat hplace
  -- Only a directory has something in it that could be come upon.
  have hleaf : (∀ inner, node ≠ .dir inner) → ¬ (name ∉ config.excludeDirs ∧ ∃ next rest,
      path = ofNames (place ++ [name] ++ next :: rest) ∧
        ComesUpon fs config (place ++ [name]) (next :: rest)) := by
    rintro hnode ⟨_, next, rest, _, hupon⟩
    obtain ⟨inner, heq⟩ := FileSystem.dir_of_holdsFile hat hupon.holds
    exact hnode inner heq
  rw [exists_comesUpon_iff]
  cases node with
  | file content =>
    have hholds : fs.HoldsFile (place ++ [name]) := Or.inl ⟨content, hat⟩
    rw [or_iff_left (hleaf fun _ heq => by cases heq), entryFiles, hjoin, List.mem_singleton]
    exact ⟨fun hpath => ⟨hpath, hholds⟩, And.left⟩
  | link target =>
    have hholds : fs.HoldsFile (place ++ [name]) ↔ fs.isFile (ofNames (place ++ [name])) = true := by
      refine ⟨?_, fun hfile => Or.inr ⟨target, hat, hfile⟩⟩
      rintro (⟨content, hfile⟩ | ⟨_, _, hfile⟩)
      · rw [hat] at hfile
        cases hfile
      · exact hfile
    rw [or_iff_left (hleaf fun _ heq => by cases heq), hholds]
    simp only [entryFiles, hjoin, FileSystem.isFile]
    cases fs.find (ofNames (place ++ [name])) with
    | error e => simp
    | ok found =>
      obtain ⟨m, found⟩ := found
      cases found <;> simp [follows, hlinks]
  | dir inner =>
    have hholds : ¬ fs.HoldsFile (place ++ [name]) := by
      intro hholds
      obtain ⟨node, hnode, hdir⟩ := hholds.at?
      rw [hat] at hnode
      exact hdir inner (Option.some.inj hnode).symm
    simp only [entryFiles, hjoin, hholds, and_false, false_or, ← hbelow inner rfl]
    by_cases hname : name ∈ config.excludeDirs
    · simp [hname]
    · simp [hname]

theorem at?_of_mem (hfs : fs.WellFormed) (hat : fs.top.at? place = some (.dir entries))
    (hmem : (name, node) ∈ entries) : fs.top.at? (place ++ [name]) = some node := by
  rw [FileNode.at?_concat, hat]
  exact (FileNode.child?_eq_some_iff (hfs.named.at? hat).here).2 hmem

/-- A scan of a directory finds exactly the files that it comes upon. -/
theorem mem_below_iff (hfs : fs.WellFormed) (hlinks : config.followLinks = false)
    (htop : top = ofNames place) (hat : fs.top.at? place = some (.dir entries)) :
    path ∈ below fs config opened place top entries ↔
      ∃ next rest, path = ofNames (place ++ next :: rest) ∧ ComesUpon fs config place (next :: rest) := by
  induction opened, place, top, entries using below.induct fs config with
  | case1 opened place top entries ihdir _ =>
    subst htop
    have hentry : ∀ {name node}, (name, node) ∈ entries →
        (path ∈ entryFiles fs config opened place (ofNames place) (name, node) ↔
          ∃ rest, path = ofNames (place ++ name :: rest) ∧ ComesUpon fs config place (name :: rest)) := by
      intro name node hmem
      have hchild := at?_of_mem hfs hat hmem
      have hplace := FileNode.areNames_of_at? hfs.named hchild
      refine mem_entryFiles_iff hlinks hplace hchild ?_
      rintro inner rfl
      have hjoin := join_ofNames_concat hplace
      rw [← hjoin]
      exact ihdir name inner hmem hjoin hchild
    rw [below_eq, List.mem_flatMap]
    constructor
    · rintro ⟨⟨name, node⟩, hmem, hpath⟩
      exact ⟨name, (hentry (List.mem_mergeSort.1 hmem)).1 hpath⟩
    · rintro ⟨name, rest, hpath, hupon⟩
      obtain ⟨found, hfound, _⟩ := hupon.holds.at?
      rw [FileNode.at?_append, hat, Option.bind_some] at hfound
      obtain ⟨node, hchild, _⟩ := Option.bind_eq_some_iff.1 hfound
      have hmem := FileNode.mem_of_child? hchild
      exact ⟨(name, node), List.mem_mergeSort.2 hmem, (hentry hmem).2 ⟨rest, hpath, hupon⟩⟩

theorem names_of_mem_entryFiles (hfs : fs.WellFormed) (hlinks : config.followLinks = false)
    (hat : fs.top.at? place = some (.dir entries)) (hmem : (name, node) ∈ entries)
    (hpath : path ∈ entryFiles fs config opened place (ofNames place) (name, node)) :
    ∃ rest, AreNames (place ++ name :: rest) ∧ path = ofNames (place ++ name :: rest) := by
  have hchild := at?_of_mem hfs hat hmem
  have hplace := FileNode.areNames_of_at? hfs.named hchild
  rw [mem_entryFiles_iff hlinks hplace hchild fun inner heq =>
    mem_below_iff hfs hlinks rfl (heq ▸ hchild)] at hpath
  obtain ⟨rest, rfl, hupon⟩ := hpath
  obtain ⟨found, hfound, _⟩ := hupon.holds.at?
  exact ⟨rest, FileNode.areNames_of_at? hfs.named hfound, rfl⟩

/-- Different names stand in their strict order. -/
theorem pairwise_names_sorted (h : (FileNode.dir entries).WellNamed) :
    (FileNode.sorted entries).Pairwise fun a b => compare a.1 b.1 = .lt := by
  have hnames : ((FileNode.sorted entries).map (·.1)).Nodup :=
    ((List.mergeSort_perm entries _).map _).nodup_iff.2 h.2
  refine ((FileNode.pairwise_sorted entries).and (List.pairwise_map.1 hnames)).imp ?_
  rintro a b ⟨hle, hne⟩
  cases hcompare : compare a.1 b.1 with
  | lt => rfl
  | eq => exact absurd (Std.LawfulEqOrd.eq_of_compare hcompare) hne
  | gt => simp [nameLE, hcompare] at hle

/-- At one entry files come in the order of their paths, if they do so in a directory. -/
theorem pairwise_entryFiles {R : Path → Path → Prop} (hlinks : config.followLinks = false)
    (hbelow : ∀ inner, node = .dir inner → (below fs config ((place ++ [name]) :: opened)
      (place ++ [name]) (top.join ⟨name⟩) inner).Pairwise R) :
    (entryFiles fs config opened place top (name, node)).Pairwise R := by
  cases node with
  | file content => exact List.pairwise_singleton _ _
  | dir inner =>
    simp only [entryFiles]
    split
    · exact .nil
    · exact hbelow inner rfl
  | link target =>
    simp only [entryFiles, follows, hlinks]
    split
    · exact List.pairwise_singleton _ _
    · exact .nil
    · exact .nil

theorem pairwise_below (hfs : fs.WellFormed) (hlinks : config.followLinks = false)
    (htop : top = ofNames place) (hat : fs.top.at? place = some (.dir entries)) :
    (below fs config opened place top entries).Pairwise fun p q => p.order q = .lt := by
  induction opened, place, top, entries using below.induct fs config with
  | case1 opened place top entries ihdir _ =>
    subst htop
    rw [below_eq, List.pairwise_flatMap]
    constructor
    · rintro ⟨name, node⟩ hmem
      rw [FileNode.sorted, List.mem_mergeSort] at hmem
      apply pairwise_entryFiles hlinks
      rintro inner rfl
      have hchild := at?_of_mem hfs hat hmem
      have hplace := FileNode.areNames_of_at? hfs.named hchild
      exact ihdir name inner hmem (join_ofNames_concat hplace) hchild
    · refine (pairwise_names_sorted (hfs.named.at? hat).here).imp_of_mem ?_
      rintro ⟨a, node⟩ ⟨b, node'⟩ ha hb hlt p hp q hq
      rw [FileNode.sorted, List.mem_mergeSort] at ha hb
      obtain ⟨xs, hxs, rfl⟩ := names_of_mem_entryFiles hfs hlinks hat ha hp
      obtain ⟨ys, hys, rfl⟩ := names_of_mem_entryFiles hfs hlinks hat hb hq
      exact order_of_parting hxs hys hlt

/-- A canonical root is spelled by the names that it leads to. -/
theorem find_of_canonicalize (hfs : fs.WellFormed) (hplace : AreNames place)
    (h : fs.canonicalize path = .ok (ofNames place)) : ∃ node, fs.find path = .ok (place, node) := by
  obtain ⟨m, node, hfind, hspelled⟩ := FileSystem.canonicalize_eq_ok.1 h
  have hm := FileNode.areNames_of_at? hfs.named (FileSystem.at?_of_find hfind)
  rw [ofNames_inj hm hplace (congrArg components hspelled)] at hfind
  exact ⟨node, hfind⟩

/-- A root that is a file is found itself, and of a directory what lies below it. -/
theorem mem_files (hfs : fs.WellFormed) {root : Path} : path ∈ files fs config root ↔
    ∃ place, (∃ content, fs.find root = .ok (place, .file content) ∧ path = ofNames place) ∨
      ∃ entries, fs.find root = .ok (place, .dir entries) ∧
        path ∈ below fs config [place] place (ofNames place) entries := by
  unfold files
  cases hfind : fs.find root with
  | error e => simp
  | ok found =>
    obtain ⟨place, node⟩ := found
    cases node with
    | file content => simp
    | dir entries => simp
    | link target =>
      have hat := FileSystem.at?_of_find hfind
      exact absurd hat (hfs.linkFree_of_find hfind place List.prefix_rfl target)

/-- What is found at or below a root, by where the root leads. -/
theorem mem_files_iff (hfs : fs.WellFormed) (hlinks : config.followLinks = false) {root : Path} :
    path ∈ files fs config root ↔ ∃ place rest, AreNames (place ++ rest) ∧
      fs.canonicalize root = .ok (ofNames place) ∧ path = ofNames (place ++ rest) ∧
        ComesUpon fs config place rest := by
  rw [mem_files hfs]
  constructor
  · rintro ⟨place, ⟨content, hfind, rfl⟩ | ⟨entries, hfind, hpath⟩⟩
    · have hat := FileSystem.at?_of_find hfind
      rw [← List.append_nil place] at hat
      have hnames := FileNode.areNames_of_at? hfs.named hat
      have hcanonical := FileSystem.canonicalize_eq_ok.2 ⟨place, _, hfind, rfl⟩
      exact ⟨place, [], hnames, hcanonical, by rw [List.append_nil], Or.inl ⟨content, hat⟩, by simp⟩
    · have hat := FileSystem.at?_of_find hfind
      obtain ⟨next, rest, hpath, hupon⟩ := (mem_below_iff hfs hlinks rfl hat).1 hpath
      obtain ⟨found, hfound, _⟩ := hupon.holds.at?
      have hnames := FileNode.areNames_of_at? hfs.named hfound
      have hcanonical := FileSystem.canonicalize_eq_ok.2 ⟨place, _, hfind, rfl⟩
      exact ⟨place, next :: rest, hnames, hcanonical, hpath, hupon⟩
  · rintro ⟨place, rest, hnames, hcanonical, rfl, hupon⟩
    have hplace : AreNames place := fun name hname => hnames name (List.mem_append_left _ hname)
    obtain ⟨node, hfind⟩ := find_of_canonicalize hfs hplace hcanonical
    have hat := FileSystem.at?_of_find hfind
    refine ⟨place, ?_⟩
    cases rest with
    | nil =>
      rcases hupon.holds with ⟨content, hfile⟩ | ⟨target, hlink, _⟩
      · rw [List.append_nil] at hfile ⊢
        obtain rfl := Option.some.inj (hat.symm.trans hfile)
        exact Or.inl ⟨content, hfind, rfl⟩
      · rw [List.append_nil] at hlink
        exact absurd hlink (hfs.linkFree_of_find hfind place List.prefix_rfl target)
    | cons next rest =>
      obtain ⟨entries, rfl⟩ := FileSystem.dir_of_holdsFile hat hupon.holds
      exact Or.inr ⟨entries, hfind, (mem_below_iff hfs hlinks rfl hat).2 ⟨next, rest, rfl, hupon⟩⟩

theorem pairwise_files (hfs : fs.WellFormed) (hlinks : config.followLinks = false) (root : Path) :
    (files fs config root).Pairwise fun p q => p.order q = .lt := by
  unfold files
  split
  · rename_i hfind
    exact pairwise_below hfs hlinks rfl (FileSystem.at?_of_find hfind)
  · exact List.pairwise_singleton _ _
  · exact .nil

/-! Several roots, whether or not links are followed. -/

/-- What a scan of a directory finds is spelled by names. -/
theorem straight_of_mem_below (hfs : fs.WellFormed)
    (htop : ∃ names, AreNames names ∧ top = ofNames names)
    (hentries : (FileNode.dir entries).Throughout FileNode.WellNamed)
    (h : path ∈ below fs config opened place top entries) : path.Straight := by
  induction opened, place, top, entries using below.induct fs config with
  | case1 opened place top entries ihdir ihlink =>
    obtain ⟨names, hnames, rfl⟩ := htop
    rw [below_eq] at h
    obtain ⟨⟨name, node⟩, hmem, hpath⟩ := List.mem_flatMap.1 h
    rw [FileNode.sorted, List.mem_mergeSort] at hmem
    have hname : IsName name := hentries.here.1 _ hmem
    have hstraight := straight_join hnames hname
    have hjoin : ∃ names', AreNames names' ∧ (ofNames names).join ⟨name⟩ = ofNames names' :=
      ⟨names ++ [name], hnames.concat hname, join_ofNames hnames hname⟩
    cases node with
    | file content =>
      rw [List.mem_singleton.1 hpath]
      exact hstraight
    | dir inner =>
      simp only [entryFiles] at hpath
      split at hpath
      · cases hpath
      · exact ihdir name inner hmem hjoin ((FileNode.throughout_dir.1 hentries).2 _ hmem) hpath
    | link target =>
      simp only [entryFiles] at hpath
      split at hpath
      · rw [List.mem_singleton.1 hpath]
        exact hstraight
      · rename_i m inner hfind
        split at hpath
        · rename_i hfollow
          have hinner := hfs.named.at? (FileSystem.at?_of_find hfind)
          exact ihlink name m inner (follows_iff.1 hfollow) hjoin hinner hpath
        · cases hpath
      · cases hpath

theorem straight_of_mem_root (hfs : fs.WellFormed) {root : Path}
    (h : found ∈ Scan.root fs config root) : found.path.Straight := by
  obtain ⟨path, hpath, hsource⟩ := List.mem_filterMap.1 h
  rw [(sourceFile?_eq_some.1 hsource).1]
  obtain ⟨names, ⟨content, hfind, hspelled⟩ | ⟨entries, hfind, hbelow⟩⟩ := (mem_files hfs).1 hpath
  · have hat := FileSystem.at?_of_find hfind
    refine ⟨names, ?_, FileNode.areNames_of_at? hfs.named hat, hspelled⟩
    rintro rfl
    cases hat
  · have hat := FileSystem.at?_of_find hfind
    have hnames := FileNode.areNames_of_at? hfs.named hat
    exact straight_of_mem_below hfs ⟨names, hnames, rfl⟩ (hfs.named.at? hat) hbelow

/-- What several roots find under one path is the same source file. -/
theorem eq_of_same (hfs : fs.WellFormed) {found' : SourceFile}
    (h : found ∈ roots.flatMap (Scan.root fs config)) (h' : found' ∈ roots.flatMap (Scan.root fs config))
    (hsame : found'.path.same found.path = true) : found' = found := by
  obtain ⟨root, _, hroot⟩ := List.mem_flatMap.1 h
  obtain ⟨root', _, hroot'⟩ := List.mem_flatMap.1 h'
  have hpaths : found'.path = found.path :=
    (straight_of_mem_root hfs hroot').eq_of_components (straight_of_mem_root hfs hroot) (same_iff.1 hsame)
  obtain ⟨path, _, hsource⟩ := List.mem_filterMap.1 hroot
  obtain ⟨path', _, hsource'⟩ := List.mem_filterMap.1 hroot'
  rw [← (sourceFile?_eq_some.1 hsource).1] at hsource
  rw [← (sourceFile?_eq_some.1 hsource').1, hpaths, hsource] at hsource'
  exact (Option.some.inj hsource').symm

theorem roots_eq_eraseDups (hfs : fs.WellFormed) (config : Config) (roots : List Path) :
    Scan.roots fs config roots = (roots.flatMap (Scan.root fs config)).eraseDups :=
  firstOfEach_eq_eraseDups fun _ ha _ hb => eq_of_same hfs ha hb

/-- A scan without following links finds exactly the files at or below the canonical root, and the links
to files, that lie behind no linked directory and in no excluded one, if their extension is included and
has a language; they come in the strict order of their paths, however directories are listed. Several
roots are scanned one after another, and what was found before is left out. -/
theorem finds_exactly (fs : FileSystem) (hfs : fs.WellFormed) (config : Config) :
    (config.followLinks = false → ∀ root : Path,
      (∀ found, found ∈ Scan.root fs config root ↔
        ∃ place rest, AreNames (place ++ rest) ∧ fs.canonicalize root = .ok (ofNames place) ∧
          found.path = ofNames (place ++ rest) ∧ fs.isFile found.path = true ∧
          (∀ above, found.path.parent? = some above → ¬ fs.LinkOn above) ∧
          (∀ dir ∈ rest.dropLast, dir ∉ config.excludeDirs) ∧
          ∃ extension, found.path.extension? = some extension ∧
            extension ∈ config.includeExtensions ∧
            Language.ofExtension? extension = some found.language) ∧
      (Scan.root fs config root).Pairwise (fun a b => a.path.order b.path = .lt) ∧
      ∀ fs' : FileSystem, fs'.shape = fs.shape → Scan.root fs' config root = Scan.root fs config root) ∧
    ∀ roots : List Path,
      Scan.roots fs config roots = (roots.flatMap (Scan.root fs config)).eraseDups ∧
      (Scan.roots fs config roots).Pairwise (fun a b => b.path.same a.path = false) ∧
      ∀ roots' : List Path, (∀ root, root ∈ roots' ↔ root ∈ roots) →
        ∀ found, found ∈ Scan.roots fs config roots' ↔ found ∈ Scan.roots fs config roots := by
  refine ⟨fun hlinks root => ⟨fun found => ?_, ?_, fun fs' hshape => ?_⟩,
    fun roots => ⟨roots_eq_eraseDups hfs config roots, Path.pairwise_firstOfEach _ _ _, ?_⟩⟩
  · rw [Scan.root, List.mem_filterMap]
    constructor
    · rintro ⟨path, hpath, hsource⟩
      obtain ⟨rfl, hextension⟩ := sourceFile?_eq_some.1 hsource
      obtain ⟨place, rest, hnames, hroot, hspelled, hupon⟩ := (mem_files_iff hfs hlinks).1 hpath
      obtain ⟨hfile, hbehind⟩ := (FileSystem.holdsFile_iff hnames).1 hupon.holds
      rw [← hspelled] at hfile hbehind
      exact ⟨place, rest, hnames, hroot, hspelled, hfile, hbehind, hupon.entered, hextension⟩
    · rintro ⟨place, rest, hnames, hroot, hspelled, hfile, hbehind, hentered, hextension⟩
      rw [hspelled] at hfile hbehind
      have hholds := (FileSystem.holdsFile_iff hnames).2 ⟨hfile, hbehind⟩
      exact ⟨found.path, (mem_files_iff hfs hlinks).2 ⟨place, rest, hnames, hroot, hspelled, hholds,
        hentered⟩, sourceFile?_eq_some.2 ⟨rfl, hextension⟩⟩
  · refine List.pairwise_filterMap.2 ((pairwise_files hfs hlinks root).imp ?_)
    intro p q hlt a ha b hb
    rwa [(sourceFile?_eq_some.1 ha).1, (sourceFile?_eq_some.1 hb).1]
  · rw [← root_shape fs', hshape, root_shape]
  · intro roots' hroots found
    rw [roots_eq_eraseDups hfs, roots_eq_eraseDups hfs, List.mem_eraseDups, List.mem_eraseDups,
      List.mem_flatMap, List.mem_flatMap]
    simp only [hroots]

/-- A file beside a directory of almost its name, links to a file and to a directory, and packages. -/
def linkedTree : FileSystem :=
  ⟨[("w", .dir [("n.ts", .link ⟨"a/x.js"⟩), ("a-b.ts", .file []),
    ("node_modules", .dir [("p.ts", .file [])]), ("d", .link ⟨"a"⟩), ("a", .dir [("x.js", .file [])])])], []⟩

theorem wellFormed_linkedTree : linkedTree.WellFormed := by
  refine ⟨?_, _, rfl⟩
  simp only [FileSystem.top, linkedTree, FileNode.throughout_dir, FileNode.throughout_file,
    FileNode.throughout_link, FileNode.WellNamed, List.forall_mem_cons, List.map_cons, List.map_nil,
    List.not_mem_nil, false_implies, implies_true]
  decide

theorem isFile_linkedTree : linkedTree.isFile ⟨"/w/n.ts"⟩ = true := by
  have hspelled : (⟨"/w/n.ts"⟩ : Path) = ofNames ["w", "n.ts"] := by decide
  have hsteps : (⟨"a/x.js"⟩ : Path).steps = [.name "a", .name "x.js"] := by decide
  have hmax : maxLinks = 39 + 1 := rfl
  rw [hspelled, FileSystem.isFile, FileSystem.find, FileSystem.locate_ofNames (by decide) (by decide),
    List.map_cons, List.map_cons, List.map_nil, FileSystem.walk_name_dir rfl, hmax,
    FileSystem.walk_name_link rfl, hsteps, List.append_nil, FileSystem.walk_name_dir rfl,
    FileSystem.walk_name_file rfl]

/-- The link to a file is found; what lies behind a linked directory or in an excluded one is not. -/
theorem finds_exactly_linkedTree :
    let scanned := Scan.root linkedTree Config.standard ⟨"/w"⟩
    linkedTree.WellFormed ∧ Config.standard.followLinks = false ∧
      ⟨⟨"/w/n.ts"⟩, .typescript⟩ ∈ scanned ∧ ⟨⟨"/w/d/x.js"⟩, .javascript⟩ ∉ scanned ∧
      ⟨⟨"/w/node_modules/p.ts"⟩, .typescript⟩ ∉ scanned ∧
      scanned.Pairwise (fun a b => a.path.order b.path = .lt) ∧
      (⟨"/w/a/x.js"⟩ : Path).order ⟨"/w/a-b.ts"⟩ = .lt ∧
      ∀ found, found ∈ Scan.roots linkedTree Config.standard [⟨"/w/a"⟩, ⟨"/w"⟩, ⟨"/w/a"⟩] ↔
        found ∈ Scan.roots linkedTree Config.standard [⟨"/w"⟩, ⟨"/w/a"⟩] := by
  intro scanned
  obtain ⟨hroot, hroots⟩ := finds_exactly linkedTree wellFormed_linkedTree Config.standard
  have hcanonical : linkedTree.canonicalize ⟨"/w"⟩ = .ok (ofNames ["w"]) := by
    have hspelled : (⟨"/w"⟩ : Path) = ofNames ["w"] := by decide
    rw [hspelled, FileSystem.canonicalize_eq_ok]
    exact ⟨["w"], _, FileSystem.find_of_at? (by decide) rfl (by simp), rfl⟩
  obtain ⟨hexact, hsorted, _⟩ := hroot rfl ⟨"/w"⟩
  refine ⟨wellFormed_linkedTree, rfl, ?_, ?_, ?_, hsorted, by decide, ?_⟩
  · -- A link to a file, in a directory that is none.
    refine (hexact _).2 ⟨["w"], ["n.ts"], by decide, hcanonical, by decide, isFile_linkedTree, ?_,
      by decide, "ts", by decide, by decide, by decide⟩
    intro above habove
    have hparent : (⟨"/w/n.ts"⟩ : Path).parent? = some (ofNames ["w"]) := by decide
    obtain rfl : ofNames ["w"] = above := Option.some.inj (hparent.symm.trans habove)
    rw [FileSystem.linkOn_ofNames (by decide), not_not]
    exact FileSystem.linkFree_of_dir rfl
  · -- Behind a link to a directory.
    intro hmem
    obtain ⟨_, _, _, _, _, _, hbehind, _⟩ := (hexact _).1 hmem
    have hparent : (⟨"/w/d/x.js"⟩ : Path).parent? = some (ofNames ["w", "d"]) := by decide
    refine hbehind _ hparent ((FileSystem.linkOn_ofNames (by decide)).2 fun hfree => ?_)
    exact hfree ["w", "d"] List.prefix_rfl ⟨"a"⟩ rfl
  · -- In an excluded directory.
    intro hmem
    obtain ⟨place, rest, hnames, hplace, hspelled, _, _, hentered, _⟩ := (hexact _).1 hmem
    have hspells : (⟨"/w/node_modules/p.ts"⟩ : Path) = ofNames ["w", "node_modules", "p.ts"] := by
      decide
    obtain rfl : ["w"] = place := by
      refine ofNames_inj (by decide) (fun name h => hnames name (List.mem_append_left _ h)) ?_
      rw [Except.ok.inj (hcanonical.symm.trans hplace)]
    have hrest := ofNames_inj (by decide) hnames (congrArg components (hspells.symm.trans hspelled))
    obtain rfl : ["node_modules", "p.ts"] = rest := by simpa using hrest
    exact hentered "node_modules" (by decide) (by decide)
  · refine (hroots _).2.2 _ fun root => ?_
    simp only [List.mem_cons, List.not_mem_nil]
    tauto

end Scan

end Dependents
