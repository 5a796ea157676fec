import Dependents.Proofs.CacheLayers

/-! One path written in several ways. The cache goes by the steps of a path alone, so spellings of one
path share an entry and its file. -/
namespace Dependents

namespace SyntaxCache

variable {cache cache' : SyntaxCache} {fs fs' : FileSystem} {dir p q path : Path} {contentHash : UInt64}
  {syntaxOf : FileSyntax} {content : List UInt8} {evict : Eviction}

theorem filePath_congr (h : p.components = q.components) (dir : Path) :
    filePath dir p = filePath dir q := by
  rw [filePath, filePath, fileName_congr h]

theorem get_congr (h : p.components = q.components) (cache : SyntaxCache) (fs : FileSystem)
    (contentHash : UInt64) : cache.get fs p contentHash = cache.get fs q contentHash := by
  simp only [get, load?, h, filePath_congr h]

theorem store_congr (h : p.components = q.components) (cache : SyntaxCache) (fs : FileSystem)
    (contentHash : UInt64) (syntaxOf : FileSyntax) :
    cache.store fs p contentHash syntaxOf = cache.store fs q contentHash syntaxOf := by
  simp only [store, makeRoom, h, filePath_congr h]

theorem read_write (h : fs.write (filePath dir path) content = .ok fs') :
    fs'.read (filePath dir path) = .ok content := by
  obtain ⟨_, _, _, _, _, hlocate⟩ := FileSystem.exists_place_of_write (name_mem_steps dir path) h
  exact FileSystem.read_eq_ok.2 ⟨_, hlocate⟩

/-- A directory that is there is still there for the next cache once an entry was written. -/
theorem onDisk_write (hopen : onDisk fs dir evict = (blank (some dir) evict, fs))
    (h : fs.write (filePath dir path) content = .ok fs') :
    onDisk fs' dir evict = (blank (some dir) evict, fs') := by
  have hmade : fs.Made dir := by
    unfold onDisk at hopen
    cases hmake : fs.makeDirs dir with
    | error e =>
      rw [hmake] at hopen
      cases congrArg (·.1.dir) hopen
    | ok made =>
      rw [hmake] at hopen
      cases congrArg (·.2) hopen
      exact FileSystem.made_makeDirs hmake
  obtain ⟨_, _, _, hdiffer, _⟩ := FileSystem.exists_place_of_write (name_mem_steps dir path) h
  exact onDisk_of_made (hmade.persist hdiffer.persists hdiffer.workingDir) evict

/-- An entry that was written can be written anew, which lists the directory as before. -/
theorem write_again (h : fs.write (filePath dir path) content = .ok fs') (anew : List UInt8) :
    ∃ fs'', fs'.write (filePath dir path) anew = .ok fs'' ∧ fs''.list dir = fs'.list dir := by
  obtain ⟨there, inner, henter⟩ := enter?_of_write h
  obtain ⟨place, name, entries, hdiffer, hplace, hlocate⟩ :=
    FileSystem.exists_place_of_write (name_mem_steps dir path) h
  obtain ⟨inner', henter'⟩ := FileSystem.enter?_persist hdiffer.persists hdiffer.workingDir henter
  have hfile := (FileSystem.at?_of_locate hlocate).symm
  exact ⟨fs'.put (place ++ [name]) (.file anew), FileSystem.write_of_locate hlocate (by simp),
    FileSystem.list_put_file hplace hfile henter'⟩

/-- In an empty directory an entry is the only file. -/
theorem list_write (hempty : fs.list dir = .ok []) (h : fs.write (filePath dir path) content = .ok fs') :
    fs'.list dir = .ok [fileName path] := by
  obtain ⟨htext, place, entries, he, hnames⟩ := FileSystem.list_eq_ok.1 hempty
  obtain rfl := List.map_eq_nil_iff.1 hnames
  obtain ⟨place', entries', he', hold, rfl⟩ := write_eq_ok (unlinked_of_enter?_nil he) h
  rw [he] at he'
  cases he'
  exact FileSystem.list_eq_ok.2 ⟨htext, place, _, FileSystem.enter?_put_file he hold, rfl⟩

/-- In memory, and in an empty directory, everything can be stored. -/
theorem exists_store (hempty : ∀ dir, cache.dir = some dir → fs.list dir = .ok []) (path : Path)
    (contentHash : UInt64) (syntaxOf : FileSyntax) :
    ∃ cache' fs', cache.store fs path contentHash syntaxOf = (.ok (), cache', fs') := by
  rw [store_eq]
  cases hdir : cache.dir with
  | none => exact ⟨_, fs, rfl⟩
  | some dir =>
    obtain ⟨_, place, entries, he, hnames⟩ := FileSystem.list_eq_ok.1 (hempty dir hdir)
    obtain rfl := List.map_eq_nil_iff.1 hnames
    have hfree : ∀ inner, (FileNode.dir []).child? (fileName path) ≠ some (.dir inner) := by
      simp [FileNode.child?_nil]
    simp only [write_of_enter? (unlinked_of_enter?_nil he) he hfree]
    exact ⟨_, _, rfl⟩

theorem store_eq_ok (h : cache.store fs path contentHash syntaxOf = (.ok (), cache', fs')) :
    cache.Written fs path (entryFor contentHash syntaxOf) fs' ∧
      cache' = (cache.makeRoom path).remember path (entryFor contentHash syntaxOf) := by
  rcases store_cases cache fs path contentHash syntaxOf with ⟨files, hwritten, hstore⟩ | ⟨e, _, hstore⟩
  · rw [hstore] at h
    cases h
    exact ⟨hwritten, rfl⟩
  · rw [hstore] at h
    cases h

theorem write_of_store (hdir : cache.dir = some dir)
    (h : cache.store fs path contentHash syntaxOf = (.ok (), cache', fs')) :
    fs.write (filePath dir path) (entryFor contentHash syntaxOf).encode = .ok fs' := by
  have hwritten := (store_eq_ok h).1
  unfold Written at hwritten
  rwa [hdir] at hwritten

/-- Memory holds what was stored, under the steps of its path. -/
theorem mem_memory_of_store (h : cache.store fs path contentHash syntaxOf = (.ok (), cache', fs')) :
    path.components ∈ cache'.memory := by
  rw [(store_eq_ok h).2]
  exact Std.HashMap.mem_insert_self

theorem get_of_store (h : cache.store fs path contentHash syntaxOf = (.ok (), cache', fs'))
    (files : FileSystem) : (cache'.get files path contentHash).1 = some syntaxOf := by
  rw [(store_eq_ok h).2, get_fst, held, getElem?_remember, if_pos rfl, Option.some_or]
  simp [Option.filter]

/-- A cache that is opened on the directory finds what was stored. -/
theorem get_of_written (hdir : cache.dir = some dir) (hfits : syntaxOf.Fits)
    (h : cache.store fs path contentHash syntaxOf = (.ok (), cache', fs')) :
    ((blank (some dir) evict).get fs' path contentHash).1 = some syntaxOf := by
  have hread := read_write (write_of_store hdir h)
  have hentry : (entryFor contentHash syntaxOf).syntaxOf.Fits := hfits
  have hdecode := CacheEntry.decode?_encode hentry []
  rw [List.append_nil] at hdecode
  have hload : (blank (some dir) evict).load? fs' path = some (entryFor contentHash syntaxOf) := by
    simp only [load?, blank, Option.bind_some, hread, Except.toOption, hdecode]
  rw [get_fst, held, hload, blank, Std.HashMap.getElem?_empty, Option.none_or]
  simp [Option.filter]

theorem memoryEntries_of_store (hempty : cache.memoryEntries = 0)
    (h : cache.store fs path contentHash syntaxOf = (.ok (), cache', fs')) :
    cache'.memoryEntries = 1 := by
  rw [memoryEntries] at hempty
  have hroom : cache.HasRoom path := by
    left
    rw [hempty]
    decide
  have hnew : path.components ∉ cache.memory := by
    apply Std.HashMap.isEmpty_iff_forall_not_mem.1
    rw [Std.HashMap.isEmpty_eq_size_eq_zero, hempty]
    rfl
  rw [(store_eq_ok h).2, makeRoom_of_hasRoom hroom, memoryEntries, remember, Std.HashMap.size_insert,
    if_neg hnew, hempty]

/-- Storing under a path that was stored succeeds, and replaces the entry in memory and its file. -/
theorem store_again (h : cache.store fs path contentHash syntaxOf = (.ok (), cache', fs'))
    (contentHash' : UInt64) (syntaxOf' : FileSyntax) : ∃ cache'' fs'',
      cache'.store fs' path contentHash' syntaxOf' = (.ok (), cache'', fs'') ∧
      cache''.memoryEntries = cache'.memoryEntries ∧
      ∀ dir, cache.dir = some dir → fs''.list dir = fs'.list dir := by
  have hmem := mem_memory_of_store h
  have hroom : cache'.makeRoom path = cache' := makeRoom_of_hasRoom (.inr hmem)
  have hdir' : cache'.dir = cache.dir := by
    have hdir := dir_store cache fs path contentHash syntaxOf
    rwa [h] at hdir
  have hentries : (cache'.remember path (entryFor contentHash' syntaxOf')).memoryEntries =
      cache'.memoryEntries := by
    rw [memoryEntries, remember, Std.HashMap.size_insert, if_pos hmem, memoryEntries]
  rw [store_eq, hdir', hroom]
  cases hdir : cache.dir with
  | none => exact ⟨_, fs', rfl, hentries, fun dir hdir => by cases hdir⟩
  | some dir =>
    obtain ⟨fs'', hwrite, hlist⟩ := write_again (write_of_store hdir h)
      (entryFor contentHash' syntaxOf').encode
    refine ⟨cache'.remember path (entryFor contentHash' syntaxOf'), fs'', ?_, hentries, ?_⟩
    · simp only [hwrite]
    · rintro _ ⟨⟩
      exact hlist

/-- The spelling of a path makes no difference to the cache. Two spellings of the same steps have one
file, and looking up or storing under either is the same. So what is stored under one is found under the
other, in memory and, by a cache that is opened on the directory afterwards, in its file; and storing
under the other as well succeeds and adds neither an entry nor a file. Where there were none, the first
store succeeds, too, and there is one of each. -/
theorem spelling_irrelevant (h : p.components = q.components) :
    (∀ dir, filePath dir p = filePath dir q) ∧
    (∀ cache fs contentHash, get cache fs p contentHash = get cache fs q contentHash) ∧
    (∀ cache fs contentHash syntaxOf,
      store cache fs p contentHash syntaxOf = store cache fs q contentHash syntaxOf) ∧
    (∀ cache fs contentHash syntaxOf, (∀ dir, cache.dir = some dir → fs.list dir = .ok []) →
      ∃ cache' fs', store cache fs p contentHash syntaxOf = (.ok (), cache', fs')) ∧
    ∀ cache fs contentHash syntaxOf cache' fs',
      store cache fs p contentHash syntaxOf = (.ok (), cache', fs') →
      (∀ files, (cache'.get files q contentHash).1 = some syntaxOf) ∧
      (∀ dir evict, cache.dir = some dir → onDisk fs dir evict = (blank (some dir) evict, fs) →
        syntaxOf.Fits → onDisk fs' dir evict = (blank (some dir) evict, fs') ∧
          ((blank (some dir) evict).get fs' q contentHash).1 = some syntaxOf) ∧
      ∀ contentHash' syntaxOf', ∃ cache'' fs'',
        cache'.store fs' q contentHash' syntaxOf' = (.ok (), cache'', fs'') ∧
        cache''.memoryEntries = cache'.memoryEntries ∧
        (cache.memoryEntries = 0 → cache''.memoryEntries = 1) ∧
        ∀ dir, cache.dir = some dir → fs''.list dir = fs'.list dir ∧
          (fs.list dir = .ok [] → fs''.list dir = .ok [fileName p]) := by
  refine ⟨filePath_congr h, get_congr h, store_congr h, fun cache fs contentHash syntaxOf hempty =>
    exists_store hempty p contentHash syntaxOf, ?_⟩
  intro cache fs contentHash syntaxOf cache' fs' hstore
  refine ⟨?_, ?_, ?_⟩
  · intro files
    rw [← get_congr h]
    exact get_of_store hstore files
  · intro dir evict hdir hopen hfits
    rw [← get_congr h]
    exact ⟨onDisk_write hopen (write_of_store hdir hstore), get_of_written hdir hfits hstore⟩
  · intro contentHash' syntaxOf'
    obtain ⟨cache'', fs'', hagain, hmemory, hlist⟩ := store_again hstore contentHash' syntaxOf'
    refine ⟨cache'', fs'', ?_, hmemory, ?_, ?_⟩
    · rw [← store_congr h]
      exact hagain
    · intro hempty
      rw [hmemory]
      exact memoryEntries_of_store hempty hstore
    · intro dir hdir
      refine ⟨hlist dir hdir, ?_⟩
      intro hempty
      rw [hlist dir hdir]
      exact list_write hempty (write_of_store hdir hstore)

theorem spelling_irrelevant_slashes :
    let p : Path := ⟨"/w//a.ts"⟩
    let q : Path := ⟨"/w/./a.ts/"⟩
    p.components = q.components ∧ ∃ cache' fs',
      (blank (some ⟨"/c"⟩)).store bareDirectory p 7 ⟨[], []⟩ = (.ok (), cache', fs') ∧
      ((blank (some ⟨"/c"⟩)).get fs' q 7).1 = some ⟨[], []⟩ ∧ ∃ cache'' fs'',
        cache'.store fs' q 8 ⟨[], []⟩ = (.ok (), cache'', fs'') ∧ cache''.memoryEntries = 1 ∧
          fs''.list ⟨"/c"⟩ = .ok [fileName p] := by
  intro p q
  have hsteps : p.components = q.components := by decide
  have hstore := store_bare p 7 ⟨[], []⟩
  have hopen := onDisk_of_made made_bare firstKey
  have hempty : bareDirectory.list ⟨"/c"⟩ = .ok [] :=
    FileSystem.list_eq_ok.2 ⟨by decide, ["c"], [], enter?_bare, rfl⟩
  obtain ⟨_, hdisk, hagain⟩ := (spelling_irrelevant hsteps).2.2.2.2 _ _ _ _ _ _ hstore
  obtain ⟨cache'', fs'', hstore', _, hmemory, hlist⟩ := hagain 8 ⟨[], []⟩
  exact ⟨hsteps, _, _, hstore, (hdisk ⟨"/c"⟩ _ rfl hopen (by decide)).2, cache'', fs'', hstore',
    hmemory (by decide), (hlist ⟨"/c"⟩ rfl).2 hempty⟩

end SyntaxCache

end Dependents
