import Dependents.Proofs.CacheLayers
import Dependents.Proofs.SourceFiles

/-! The cache of a session as slots, one for each file: its entry in memory and its entry file. What
happens to a file depends on its own slot only, and changes no other. -/
namespace Dependents

namespace Session

open SyntaxCache Analysis

variable {start s s' : Session} {path other : Path} {text : String}
  {paths scanned : List Path} {cache : SyntaxCache} {dir : Path} {syntaxOf : FileSyntax}

/-- The directory behind the cache, if there is a cache. -/
def backing (s : Session) : Option (Option Path) :=
  s.cache.map (·.dir)

/-- What memory holds under a key. -/
def memoryAt (s : Session) (key : List Component) : Option CacheEntry :=
  s.cache.bind (·.memory[key]?)

/-- Where the entry file of a path is looked for, and what stands there. -/
def entryAt (s : Session) (path : Path) : Option (Except FileError (List String × Option FileNode)) :=
  s.cache.bind fun cache => cache.dir.map fun dir => s.files.locate (filePath dir path)

/-- What the cache answers to a look-up. -/
def answer (s : Session) (path : Path) (contentHash : UInt64) : Option FileSyntax :=
  s.cache.bind fun cache => (cache.get s.files path contentHash).1

/-- The slot of a file is the same in two sessions. -/
structure SameSlot (path : Path) (s s' : Session) : Prop where
  backing : s'.backing = s.backing
  memory : s'.memoryAt path.components = s.memoryAt path.components
  entry : s'.entryAt path = s.entryAt path

/-- What builds of the scanned files make of a session: the same sources, the same directory, and
entries in memory of no other than these and some known paths. -/
structure Follows (start : Session) (paths scanned : List Path) (s : Session) : Prop where
  known : ∀ path ∈ scanned, path ∈ paths
  backing : s.backing = start.backing
  sources : SameSources start.files s.files
  links : ∀ cache dir, s.cache = some cache → cache.dir = some dir →
    LinksApart { path | path ∈ scanned } s.files dir
  covered : ∀ cache, s.cache = some cache → Covered paths cache

theorem lookup_of_none (hcache : s.cache = none) (path : Path) (text : String) :
    s.lookup path text = (none, s) := by
  rw [lookup, hcache]

theorem keep_of_none (hcache : s.cache = none) (path : Path) (text : String)
    (syntaxOf : FileSyntax) : s.keep path text syntaxOf = s := by
  rw [keep, hcache]

theorem lookup_eq (hcache : s.cache = some cache) (path : Path) (text : String) :
    s.lookup path text = ((cache.get s.files path (Digest.content text)).1,
      { s with cache := some (cache.get s.files path (Digest.content text)).2 }) := by
  rw [lookup, hcache]

theorem keep_eq (hcache : s.cache = some cache) (path : Path) (text : String)
    (syntaxOf : FileSyntax) : s.keep path text syntaxOf =
      ⟨(cache.store s.files path (Digest.content text) syntaxOf).2.2,
        some (cache.store s.files path (Digest.content text) syntaxOf).2.1⟩ := by
  rw [keep, hcache]

theorem load?_of_entryAt {cache' : SyntaxCache} (hcache : s.cache = some cache)
    (hcache' : s'.cache = some cache') (hdir : cache'.dir = cache.dir)
    (h : s'.entryAt path = s.entryAt path) : cache'.load? s'.files path = cache.load? s.files path := by
  unfold load?
  rw [hdir]
  cases hd : cache.dir with
  | none => rw [Option.bind_none, Option.bind_none]
  | some dir =>
    have hlocate : s'.files.locate (filePath dir path) = s.files.locate (filePath dir path) := by
      simpa [entryAt, hcache, hcache', hdir, hd] using h
    rw [Option.bind_some, Option.bind_some, read_congr hlocate]

/-- Two sessions with the same directory both have a cache on it, or none has one. -/
theorem cache_cases (h : s'.backing = s.backing) : (s.cache = none ∧ s'.cache = none) ∨
    ∃ cache cache', s.cache = some cache ∧ s'.cache = some cache' ∧ cache'.dir = cache.dir := by
  unfold backing at h
  cases hcache : s.cache with
  | none => simpa [hcache] using h
  | some cache => simpa [hcache] using h

theorem lookup_fst (s : Session) (path : Path) (text : String) :
    (s.lookup path text).1 = s.answer path (Digest.content text) := by
  unfold lookup answer
  cases s.cache <;> rfl

/-- The answer to a look-up goes by the slot of its file. -/
theorem answer_congr (h : SameSlot path s s') (contentHash : UInt64) :
    s'.answer path contentHash = s.answer path contentHash := by
  unfold answer
  rcases cache_cases h.backing with ⟨hnone, hnone'⟩ | ⟨cache, cache', hcache, hcache', hdir⟩
  · simp only [hnone, hnone', Option.bind_none]
  · have hmem : cache'.memory[path.components]? = cache.memory[path.components]? := by
      simpa [memoryAt, hcache, hcache'] using h.memory
    have hload := load?_of_entryAt hcache hcache' hdir h.entry
    simp only [hcache, hcache', Option.bind_some, get_fst, held, hmem, hload]

/-- So does what a look-up leaves there. -/
theorem lookup_congr (h : SameSlot path s s')
    (hroom : ∀ cache, s.cache = some cache → cache.HasRoom path)
    (hroom' : ∀ cache, s'.cache = some cache → cache.HasRoom path) (text : String) :
    SameSlot path (s.lookup path text).2 (s'.lookup path text).2 := by
  rcases cache_cases h.backing with ⟨hnone, hnone'⟩ | ⟨cache, cache', hcache, hcache', hdir⟩
  · rw [lookup_of_none hnone, lookup_of_none hnone']
    exact h
  · have hmem : cache'.memory[path.components]? = cache.memory[path.components]? := by
      simpa [memoryAt, hcache, hcache'] using h.memory
    have hload := load?_of_entryAt hcache hcache' hdir h.entry
    rw [lookup_eq hcache, lookup_eq hcache']
    refine ⟨?_, ?_, ?_⟩
    · simp [backing, hdir]
    · simp only [memoryAt, Option.bind_some, getElem?_get (hroom cache hcache),
        getElem?_get (hroom' cache' hcache'), hmem, hload]
    · simpa [entryAt, hcache, hcache'] using h.entry

/-- Whether a file can be written is seen where it is looked for. -/
theorem exists_write {fs : FileSystem} {p : Path} {content : List UInt8} :
    (∃ fs', fs.write p content = .ok fs') ↔
      ∃ names found, fs.locate p = .ok (names, found) ∧ ∀ entries, found ≠ some (.dir entries) := by
  unfold FileSystem.write
  cases fs.locate p with
  | error e =>
    simp only [reduceCtorEq, false_and, exists_false, iff_false, not_exists]
    intro fs'
    split <;> simp
  | ok place =>
    obtain ⟨names, found⟩ := place
    cases found with
    | none => simp
    | some node => cases node <;> simp

theorem exists_written_congr {cache' : SyntaxCache} (hcache : s.cache = some cache)
    (hcache' : s'.cache = some cache') (hdir : cache'.dir = cache.dir)
    (h : s'.entryAt path = s.entryAt path) (entry : CacheEntry) :
    (∃ files, cache'.Written s'.files path entry files) ↔
      ∃ files, cache.Written s.files path entry files := by
  unfold Written
  rw [hdir]
  cases hd : cache.dir with
  | none => simp
  | some dir =>
    have hlocate : s'.files.locate (filePath dir path) = s.files.locate (filePath dir path) := by
      simpa [entryAt, hcache, hcache', hdir, hd] using h
    simp only [exists_write, hlocate]

theorem entryAt_written {files files' : FileSystem} {cache' : SyntaxCache} {entry : CacheEntry}
    (hcache : s.cache = some cache) (hcache' : s'.cache = some cache')
    (hdir : cache'.dir = cache.dir) (h : s'.entryAt path = s.entryAt path)
    (hlinks : ∀ dir, cache.dir = some dir → Unlinked s.files dir ∧ Unlinked s'.files dir)
    (hw : cache.Written s.files path entry files) (hw' : cache'.Written s'.files path entry files') :
    (cache'.dir.map fun dir => files'.locate (filePath dir path)) =
      cache.dir.map fun dir => files.locate (filePath dir path) := by
  unfold Written at hw hw'
  rw [hdir] at hw' ⊢
  cases hd : cache.dir with
  | none => rw [Option.map_none, Option.map_none]
  | some dir =>
    rw [hd] at hw hw'
    obtain ⟨hu, hu'⟩ := hlinks dir hd
    obtain ⟨names, found, hbefore, hafter⟩ := locate_write_self hu hw
    obtain ⟨names', found', hbefore', hafter'⟩ := locate_write_self hu' hw'
    have hlocate : s'.files.locate (filePath dir path) = s.files.locate (filePath dir path) := by
      simpa [entryAt, hcache, hcache', hdir, hd] using h
    rw [hbefore, hbefore'] at hlocate
    cases hlocate
    rw [Option.map_some, Option.map_some, hafter, hafter']

/-- What keeping leaves goes by the slot, too. -/
theorem keep_congr (h : SameSlot path s s')
    (hroom : ∀ cache, s.cache = some cache → cache.HasRoom path)
    (hroom' : ∀ cache, s'.cache = some cache → cache.HasRoom path)
    (hlinks : ∀ cache dir, s.cache = some cache → cache.dir = some dir → Unlinked s.files dir)
    (hlinks' : ∀ cache dir, s'.cache = some cache → cache.dir = some dir → Unlinked s'.files dir)
    (text : String) (syntaxOf : FileSyntax) :
    SameSlot path (s.keep path text syntaxOf) (s'.keep path text syntaxOf) := by
  rcases cache_cases h.backing with ⟨hnone, hnone'⟩ | ⟨cache, cache', hcache, hcache', hdir⟩
  · rw [keep_of_none hnone, keep_of_none hnone']
    exact h
  · have hwritten := exists_written_congr hcache hcache' hdir h.entry
      (entryFor (Digest.content text) syntaxOf)
    rw [keep_eq hcache, keep_eq hcache']
    rcases store_cases cache s.files path (Digest.content text) syntaxOf with
      ⟨files, hw, hs⟩ | ⟨e, hw, hs⟩ <;>
    rcases store_cases cache' s'.files path (Digest.content text) syntaxOf with
      ⟨files', hw', hs'⟩ | ⟨e', hw', hs'⟩
    · rw [hs, hs', makeRoom_of_hasRoom (hroom cache hcache),
        makeRoom_of_hasRoom (hroom' cache' hcache')]
      refine ⟨?_, ?_, ?_⟩
      · simpa [backing, remember] using hdir
      · simp [memoryAt, remember]
      · have hafter := entryAt_written hcache hcache' hdir h.entry (fun dir hd =>
          ⟨hlinks cache dir hcache hd, hlinks' cache' dir hcache' (hdir.trans hd)⟩) hw hw'
        simpa [entryAt, remember] using hafter
    · obtain ⟨files', hw''⟩ := hwritten.2 ⟨files, hw⟩
      exact absurd hw'' (hw' files')
    · obtain ⟨files, hw''⟩ := hwritten.1 ⟨files', hw'⟩
      exact absurd hw'' (hw files)
    · rw [hs, hs', makeRoom_of_hasRoom (hroom cache hcache),
        makeRoom_of_hasRoom (hroom' cache' hcache')]
      refine ⟨?_, ?_, ?_⟩
      · simpa [backing] using hdir
      · simpa [memoryAt, hcache, hcache'] using h.memory
      · simpa [entryAt, hcache, hcache'] using h.entry

theorem files_lookup (s : Session) (path : Path) (text : String) :
    (s.lookup path text).2.files = s.files := by
  unfold lookup
  cases s.cache <;> rfl

theorem SameSlot.symm (h : SameSlot path s s') : SameSlot path s' s :=
  ⟨h.backing.symm, h.memory.symm, h.entry.symm⟩

theorem SameSlot.trans {r : Session} (h : SameSlot path r s) (h' : SameSlot path s s') :
    SameSlot path r s' :=
  ⟨h'.backing.trans h.backing, h'.memory.trans h.memory, h'.entry.trans h.entry⟩

theorem entryAt_of_fileName (h : fileName path = fileName other) :
    s.entryAt path = s.entryAt other := by
  simp only [entryAt, filePath, h]

/-- Nothing but the slot of one file differs. -/
structure Frame (path : Path) (s s' : Session) : Prop where
  backing : s'.backing = s.backing
  memory : ∀ key, path.components ≠ key → s'.memoryAt key = s.memoryAt key
  entry : ∀ other, fileName other ≠ fileName path → s'.entryAt other = s.entryAt other

theorem Frame.refl (path : Path) (s : Session) : Frame path s s :=
  ⟨rfl, fun _ _ => rfl, fun _ _ => rfl⟩

theorem SameSlot.frame {r : Session} (h : SameSlot other r s) (hframe : Frame path s s')
    (hkey : path.components ≠ other.components) (hname : fileName other ≠ fileName path) :
    SameSlot other r s' where
  backing := hframe.backing.trans h.backing
  memory := (hframe.memory _ hkey).trans h.memory
  entry := (hframe.entry other hname).trans h.entry

theorem lookup_frame (s : Session) (path : Path) (text : String) :
    Frame path s (s.lookup path text).2 := by
  cases hcache : s.cache with
  | none =>
    rw [lookup_of_none hcache]
    exact .refl path s
  | some cache =>
    rw [lookup_eq hcache]
    refine ⟨?_, fun key hkey => ?_, fun other _ => ?_⟩
    · simp [backing, hcache]
    · simp only [memoryAt, hcache, Option.bind_some]
      rcases cache.get_snd s.files path (Digest.content text) with heq | ⟨entry, _, _, heq⟩
      · rw [heq]
      · rw [heq, getElem?_remember, if_neg hkey]
    · simp [entryAt, hcache]

theorem keep_frame (hroom : ∀ cache, s.cache = some cache → cache.HasRoom path)
    (hlinks : ∀ cache dir, s.cache = some cache → cache.dir = some dir → Unlinked s.files dir)
    (text : String) (syntaxOf : FileSyntax) : Frame path s (s.keep path text syntaxOf) := by
  cases hcache : s.cache with
  | none =>
    rw [keep_of_none hcache]
    exact .refl path s
  | some cache =>
    rw [keep_eq hcache]
    rcases store_cases cache s.files path (Digest.content text) syntaxOf with
      ⟨files, hw, hs⟩ | ⟨e, _, hs⟩
    · rw [hs, makeRoom_of_hasRoom (hroom cache hcache)]
      refine ⟨?_, fun key hkey => ?_, fun other hother => ?_⟩
      · simp [backing, hcache, remember]
      · simp only [memoryAt, hcache, Option.bind_some, getElem?_remember, if_neg hkey]
      · simp only [entryAt, hcache, Option.bind_some, remember]
        rcases hw.cases with ⟨hdir, rfl⟩ | ⟨dir, hdir, hwrite⟩
        · rfl
        · rw [hdir, Option.map_some, Option.map_some,
            locate_write_other (hlinks cache dir hcache hdir) hwrite hother]
    · rw [hs, makeRoom_of_hasRoom (hroom cache hcache), ← hcache]
      exact .refl path s

theorem Follows.hasRoom (hlen : paths.length ≤ capacity) (h : Follows start paths scanned s)
    (hpath : path ∈ scanned) : ∀ cache, s.cache = some cache → cache.HasRoom path :=
  fun cache hcache => hasRoom_of_covered hlen (h.covered cache hcache) (h.known path hpath)

theorem Follows.unlinked (h : Follows start paths scanned s) :
    ∀ cache dir, s.cache = some cache → cache.dir = some dir → Unlinked s.files dir :=
  fun cache dir hcache hdir => (h.links cache dir hcache hdir).unlinked

theorem Follows.lookup (h : Follows start paths scanned s) (hpath : path ∈ scanned) (text : String) :
    Follows start paths scanned (s.lookup path text).2 := by
  cases hcache : s.cache with
  | none =>
    rw [lookup_of_none hcache]
    exact h
  | some cache =>
    have hframe := lookup_frame s path text
    rw [lookup_eq hcache] at hframe ⊢
    refine ⟨h.known, hframe.backing.trans h.backing, h.sources, fun cache' dir hcache' hdir => ?_,
      fun cache' hcache' => ?_⟩
    · cases hcache'
      exact h.links cache dir hcache (by rwa [dir_get] at hdir)
    · cases hcache'
      rcases cache.get_snd s.files path (Digest.content text) with heq | ⟨entry, _, _, heq⟩
      · rw [heq]
        exact h.covered cache hcache
      · rw [heq]
        exact covered_remember (h.covered cache hcache) ⟨path, h.known path hpath, rfl⟩ _

theorem Follows.keep (hlen : paths.length ≤ capacity) (h : Follows start paths scanned s)
    (hpath : path ∈ scanned) (text : String) (syntaxOf : FileSyntax) :
    Follows start paths scanned (s.keep path text syntaxOf) := by
  cases hcache : s.cache with
  | none =>
    rw [keep_of_none hcache]
    exact h
  | some cache =>
    have hframe := keep_frame (h.hasRoom hlen hpath) h.unlinked text syntaxOf
    have hroom := h.hasRoom hlen hpath cache hcache
    rw [keep_eq hcache] at hframe ⊢
    rcases store_cases cache s.files path (Digest.content text) syntaxOf with
      ⟨files, hw, hs⟩ | ⟨e, _, hs⟩
    · rw [hs, makeRoom_of_hasRoom hroom] at hframe ⊢
      have hfiles : SameSources s.files files ∧
          ∀ dir, cache.dir = some dir → LinksApart { path | path ∈ scanned } files dir := by
        rcases hw.cases with ⟨hdir, rfl⟩ | ⟨dir, hdir, hwrite⟩
        · exact ⟨.refl _, fun dir hd => by rw [hdir] at hd; cases hd⟩
        · obtain ⟨hlinks, hsame⟩ := sameSources_write (h.links cache dir hcache hdir) hpath hwrite
          refine ⟨hsame, fun dir' hdir' => ?_⟩
          rw [hdir] at hdir'
          cases hdir'
          exact hlinks
      refine ⟨h.known, hframe.backing.trans h.backing, h.sources.trans hfiles.1,
        fun cache' dir hcache' hdir => ?_, fun cache' hcache' => ?_⟩
      · cases hcache'
        exact hfiles.2 dir hdir
      · cases hcache'
        exact covered_remember (h.covered cache hcache) ⟨path, h.known path hpath, rfl⟩ _
    · rw [hs, makeRoom_of_hasRoom hroom, ← hcache]
      exact h

end Session

namespace Analysis

open SyntaxCache

variable {grammar : Grammar} {policy : ResolutionPolicy} {s : Session} {path : Path}
  {text : String} {cache : SyntaxCache} {syntaxOf : FileSyntax} {entries rest : List (String × FileNode)}

/-- A file whose text the cache remembers is not parsed again. -/
theorem file_of_remembered (hread : Source.read s.files path = .ok text) (hcache : s.cache = some cache)
    (hmem : cache.memory[path.components]? = some (entryFor (Digest.content text) syntaxOf)) :
    file grammar policy s path = (edgesOfSyntax s.files policy path syntaxOf, s) := by
  have hget : cache.get s.files path (Digest.content text) = (some syntaxOf, cache) := by
    simp [SyntaxCache.get, hmem]
  simp only [file, Session.syntaxOfFile, hread, Session.syntaxOfText, Session.lookup_eq hcache, hget,
    ← hcache]

/-- A file whose text the cache does not know is parsed and stored, and only then its imports are
resolved. -/
theorem file_of_missed {stored : Except AnalysisError Unit} {cache' : SyntaxCache} {files : FileSystem}
    (hread : Source.read s.files path = .ok text) (hcache : s.cache = some cache)
    (hget : cache.get s.files path (Digest.content text) = (none, cache))
    (hparse : Source.fileSyntax grammar path text = .ok syntaxOf)
    (hstore : cache.store s.files path (Digest.content text) syntaxOf = (stored, cache', files)) :
    file grammar policy s path = (edgesOfSyntax files policy path syntaxOf, ⟨files, some cache'⟩) := by
  simp only [file, Session.syntaxOfFile, hread, Session.syntaxOfText, Session.lookup_eq hcache, hget,
    hparse, Session.keep, hstore]

/-- A file whose entry is not there yet, or not current in memory, puts it there. -/
theorem file_withEntries (hplain : FileNode.Plain entries) (hrest : ∀ entry ∈ rest, entry.1 ≠ "c")
    (hread : Source.read (withEntries entries rest) path = .ok text)
    (hparse : Source.fileSyntax grammar path text = .ok syntaxOf) (hdir : cache.dir = some ⟨"/c"⟩)
    (hroom : cache.HasRoom path)
    (hmem : cache.memory[path.components]?.filter (·.isCurrent (Digest.content text)) = none)
    (hnone : (FileNode.dir entries).child? (fileName path) = none) :
    let entry := entryFor (Digest.content text) syntaxOf
    let files := withEntries (FileNode.putEntry (fileName path) (.file entry.encode) entries) rest
    file grammar policy ⟨withEntries entries rest, some cache⟩ path =
      (edgesOfSyntax files policy path syntaxOf, ⟨files, some (cache.remember path entry)⟩) := by
  intro entry files
  have hload : cache.load? (withEntries entries rest) path = none := by
    simp [load?, hdir, FileSystem.read, FileSystem.find, locate_withEntries hplain, hnone,
      Except.toOption]
  have hget : cache.get (withEntries entries rest) path (Digest.content text) = (none, cache) := by
    apply get_of_missed
    rwa [held, hload, Option.or_none]
  have hstore : cache.store (withEntries entries rest) path (Digest.content text) syntaxOf =
      (.ok (), cache.remember path entry, files) := by
    rw [store_withEntries hplain hdir hroom, put_withEntries hrest]
  exact file_of_missed hread rfl hget hparse hstore

/-- The entry of a file with the two calls. -/
def callsEntry : CacheEntry :=
  entryFor (Digest.content callsText) callsSyntax

/-- A file with calls, an empty file, and in the place of what is called a link to an entry. -/
def linkedTo (path : Path) (entries : List (String × FileNode)) : FileSystem :=
  withEntries entries [("a.ts", .file (Text.bytesOf callsText.toList)), ("b.ts", .file []),
    ("m.ts", .link (filePath ⟨"/c"⟩ path))]

/-- What is called is a file as soon as that entry is there. -/
theorem isFile_linkedTo (path : Path) (hplain : FileNode.Plain entries) :
    (linkedTo path entries).isFile ⟨"/m.ts"⟩ =
      ((FileNode.dir entries).child? (fileName path)).isSome := by
  have hdir : (linkedTo path entries).top.at? ([] ++ ["c"]) = some (.dir entries) := rfl
  have hlink : (linkedTo path entries).top.at? ([] ++ ["m.ts"]) =
      some (.link (filePath ⟨"/c"⟩ path)) := rfl
  have hsteps : (filePath ⟨"/c"⟩ path).steps = [.root, .name "c"] ++ [.name (fileName path)] :=
    Path.steps_join ⟨"/c"⟩ (isName_fileName path)
  have hhere : FileSystem.walk (linkedTo path entries).top 39 [] [.root, .name "c"] =
      .ok (["c"], some (.dir entries)) := by
    rw [FileSystem.walk, FileSystem.walk_name_dir hdir, FileSystem.walk]
    exact congrArg (fun found => Except.ok (["c"], found)) hdir
  have hlocate : (linkedTo path entries).locate ⟨"/m.ts"⟩ =
      .ok (["c"] ++ [fileName path], (FileNode.dir entries).child? (fileName path)) := by
    have hown : Path.steps ⟨"/m.ts"⟩ = [.root, .name "m.ts"] := by decide
    have hfollow : FileSystem.walk (linkedTo path entries).top maxLinks [] [.name "m.ts"] =
        FileSystem.walk (linkedTo path entries).top 39 [] ((filePath ⟨"/c"⟩ path).steps ++ []) :=
      FileSystem.walk_name_link hlink
    rw [FileSystem.locate, if_neg (by decide), hown, FileSystem.walk, hfollow, List.append_nil, hsteps]
    refine FileSystem.walk_snoc hhere fun target hchild => ?_
    obtain ⟨content, hfile⟩ := hplain _ _ hchild
    cases hfile
  rw [FileSystem.isFile, FileSystem.find, hlocate]
  cases hchild : (FileNode.dir entries).child? (fileName path) with
  | none => rfl
  | some node =>
    obtain ⟨content, rfl⟩ := hplain _ _ hchild
    rfl

/-- As long as it is not, the calls lead nowhere. -/
theorem edgesOfSyntax_linkedTo_missing (path : Path) (hplain : FileNode.Plain entries)
    (hnone : (FileNode.dir entries).child? (fileName path) = none) :
    edgesOfSyntax (linkedTo path entries) .strict ⟨"/a.ts"⟩ callsSyntax = [] := by
  apply edgesOfSyntax_calls_missing (by decide)
  have hcandidates : Resolution.candidates ⟨"/m"⟩ =
      [⟨"/m.ts"⟩, ⟨"/m.js"⟩, ⟨"/m/index.ts"⟩, ⟨"/m/index.js"⟩] := by decide
  have hjs : (linkedTo path entries).isFile ⟨"/m.js"⟩ = false :=
    FileSystem.isFile_top_none "m.js" ⟨[], by decide⟩ rfl
  have hindex : (linkedTo path entries).isFile ⟨"/m/index.ts"⟩ = false :=
    FileSystem.isFile_top_none "m" ⟨[.name "index.ts"], by decide⟩ rfl
  have hindexJs : (linkedTo path entries).isFile ⟨"/m/index.js"⟩ = false :=
    FileSystem.isFile_top_none "m" ⟨[.name "index.js"], by decide⟩ rfl
  rw [hcandidates]
  simp [isFile_linkedTo path hplain, hnone, hjs, hindex, hindexJs]

theorem edgesOfSyntax_linkedTo (path : Path) (hplain : FileNode.Plain entries)
    (hsome : (FileNode.dir entries).child? (fileName path) ≠ none) :
    edgesOfSyntax (linkedTo path entries) policy ⟨"/a.ts"⟩ callsSyntax = callsEdges ⟨"/a.ts"⟩ := by
  refine edgesOfSyntax_calls ?_ (by decide)
  rw [isFile_linkedTo path hplain]
  exact Option.isSome_iff_ne_none.2 hsome

theorem read_linkedTo (path : Path) (entries : List (String × FileNode)) :
    Source.read (linkedTo path entries) ⟨"/a.ts"⟩ = .ok callsText ∧
      Source.read (linkedTo path entries) ⟨"/b.ts"⟩ = .ok "" := by
  constructor
  · rw [Source.read, FileSystem.read, FileSystem.find_top "a.ts" rfl (by decide) rfl]
    exact congrArg Except.ok decodeLossy_callsText
  · rw [Source.read, FileSystem.read, FileSystem.find_top "b.ts" rfl (by decide) rfl]
    exact congrArg Except.ok (by decide +kernel)

/-- The file with calls is stored before its import is resolved. -/
theorem file_linkedTo (policy : ResolutionPolicy) (path : Path) (hplain : FileNode.Plain entries)
    (hdir : cache.dir = some ⟨"/c"⟩) (hroom : cache.HasRoom ⟨"/a.ts"⟩)
    (hmem : cache.memory[Path.components ⟨"/a.ts"⟩]? = none)
    (hnone : (FileNode.dir entries).child? (fileName ⟨"/a.ts"⟩) = none) :
    let files := linkedTo path
      (FileNode.putEntry (fileName ⟨"/a.ts"⟩) (.file callsEntry.encode) entries)
    file callsGrammar policy ⟨linkedTo path entries, some cache⟩ ⟨"/a.ts"⟩ =
      (edgesOfSyntax files policy ⟨"/a.ts"⟩ callsSyntax,
        ⟨files, some (cache.remember ⟨"/a.ts"⟩ callsEntry)⟩) :=
  file_withEntries hplain (by simp) (read_linkedTo path entries).1 (fileSyntax_calls rfl) hdir hroom
    (by rw [hmem]; rfl) hnone

/-- The empty one is stored, too. -/
theorem file_linkedTo_empty (policy : ResolutionPolicy) (path : Path) (hplain : FileNode.Plain entries)
    (hdir : cache.dir = some ⟨"/c"⟩) (hroom : cache.HasRoom ⟨"/b.ts"⟩)
    (hmem : cache.memory[Path.components ⟨"/b.ts"⟩]? = none)
    (hnone : (FileNode.dir entries).child? (fileName ⟨"/b.ts"⟩) = none) :
    let entry := entryFor (Digest.content "") ⟨[], []⟩
    file callsGrammar policy ⟨linkedTo path entries, some cache⟩ ⟨"/b.ts"⟩ =
      ([], ⟨linkedTo path (FileNode.putEntry (fileName ⟨"/b.ts"⟩) (.file entry.encode) entries),
        some (cache.remember ⟨"/b.ts"⟩ entry)⟩) :=
  file_withEntries hplain (by simp) (read_linkedTo path entries).2 (fileSyntax_empty rfl) hdir hroom
    (by rw [hmem]; rfl) hnone

end Analysis

end Dependents
