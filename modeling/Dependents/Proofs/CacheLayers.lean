import Dependents.Proofs.CodecRoundTrip
import Dependents.Proofs.EntryFiles
import Dependents.Proofs.PathDigest
import Mathlib.Data.List.Perm.Subperm

/-! What the operations of the cache do to its two layers, memory and the directory. -/
namespace Dependents.SyntaxCache

variable {cache : SyntaxCache} {fs fs' : FileSystem} {dir path other : Path} {contentHash : UInt64}
  {syntaxOf : FileSyntax} {entry : CacheEntry} {key : List Component} {paths : List Path}

/-- The entry that a look-up of a path goes by: the one in memory, else the one in the directory. -/
def held (cache : SyntaxCache) (fs : FileSystem) (path : Path) : Option CacheEntry :=
  cache.memory[path.components]?.or (cache.load? fs path)

/-- The entry that storing makes. -/
def entryFor (contentHash : UInt64) (syntaxOf : FileSyntax) : CacheEntry :=
  ⟨CacheEntry.currentVersion, contentHash, syntaxOf⟩

/-- The cache with an entry in memory. -/
def remember (cache : SyntaxCache) (path : Path) (entry : CacheEntry) : SyntaxCache :=
  { cache with memory := cache.memory.insert path.components entry }

@[simp] theorem isCurrent_entryFor (contentHash h : UInt64) (syntaxOf : FileSyntax) :
    (entryFor contentHash syntaxOf).isCurrent h = (contentHash == h) := by
  simp [entryFor, CacheEntry.isCurrent]

@[simp] theorem syntaxOf_entryFor (contentHash : UInt64) (syntaxOf : FileSyntax) :
    (entryFor contentHash syntaxOf).syntaxOf = syntaxOf :=
  rfl

theorem getElem?_remember (cache : SyntaxCache) (path : Path) (entry : CacheEntry)
    (key : List Component) : (cache.remember path entry).memory[key]? =
      if path.components = key then some entry else cache.memory[key]? := by
  simp [remember, Std.HashMap.getElem?_insert]

theorem load?_remember (cache : SyntaxCache) (path : Path) (entry : CacheEntry) (fs : FileSystem)
    (other : Path) : (cache.remember path entry).load? fs other = cache.load? fs other :=
  rfl

/-- A look-up finds what is held, if it is current. -/
theorem get_fst (cache : SyntaxCache) (fs : FileSystem) (path : Path) (contentHash : UInt64) :
    (cache.get fs path contentHash).1 =
      ((cache.held fs path).filter (·.isCurrent contentHash)).map (·.syntaxOf) := by
  unfold get held
  cases cache.memory[path.components]? with
  | some entry => by_cases h : entry.isCurrent contentHash = true <;> simp [h, Option.filter]
  | none =>
    simp only [Option.none_or]
    cases (cache.load? fs path).filter (·.isCurrent contentHash) <;> rfl

/-- A look-up that finds nothing current changes nothing. -/
theorem get_of_missed (h : (cache.held fs path).filter (·.isCurrent contentHash) = none) :
    cache.get fs path contentHash = (none, cache) := by
  unfold held at h
  unfold get
  cases hmem : cache.memory[path.components]? with
  | some entry =>
    rw [hmem, Option.some_or] at h
    have hstale : entry.isCurrent contentHash = false := by simpa using h
    simp [hstale]
  | none =>
    rw [hmem, Option.none_or] at h
    simp only [h]

/-- What a look-up finds is held, and current. -/
theorem held_of_get (h : (cache.get fs path contentHash).1 = some syntaxOf) :
    cache.held fs path = some (entryFor contentHash syntaxOf) := by
  rw [get_fst] at h
  obtain ⟨entry, hentry, rfl⟩ := Option.map_eq_some_iff.1 h
  obtain ⟨hheld, hcurrent⟩ := Option.filter_eq_some_iff.1 hentry
  obtain ⟨version, hash, syntaxOf⟩ := entry
  simp only [CacheEntry.isCurrent, Bool.and_eq_true, beq_iff_eq] at hcurrent
  obtain ⟨rfl, rfl⟩ := hcurrent
  exact hheld

/-- A look-up leaves the cache as it is, or remembers the current entry of the directory. -/
theorem get_snd (cache : SyntaxCache) (fs : FileSystem) (path : Path) (contentHash : UInt64) :
    (cache.get fs path contentHash).2 = cache ∨ ∃ entry, cache.memory[path.components]? = none ∧
      cache.load? fs path = some entry ∧
        (cache.get fs path contentHash).2 = cache.remember path entry := by
  unfold get
  cases hmem : cache.memory[path.components]? with
  | some entry => exact .inl rfl
  | none =>
    cases hload : (cache.load? fs path).filter (·.isCurrent contentHash) with
    | none => exact .inl rfl
    | some entry =>
      simp only
      split
      · exact .inr ⟨entry, trivial, (Option.filter_eq_some_iff.1 hload).1, rfl⟩
      · exact .inl rfl

@[simp] theorem dir_get (cache : SyntaxCache) (fs : FileSystem) (path : Path) (contentHash : UInt64) :
    (cache.get fs path contentHash).2.dir = cache.dir := by
  rcases cache.get_snd fs path contentHash with h | ⟨_, _, _, h⟩ <;> rw [h]
  rfl

/-- There is room in memory for the entry of a path. -/
def HasRoom (cache : SyntaxCache) (path : Path) : Prop :=
  cache.memory.size < capacity ∨ path.components ∈ cache.memory

theorem makeRoom_of_hasRoom (h : cache.HasRoom path) : cache.makeRoom path = cache := by
  unfold HasRoom at h
  rw [makeRoom, if_pos h]

@[simp] theorem dir_makeRoom (cache : SyntaxCache) (path : Path) :
    (cache.makeRoom path).dir = cache.dir := by
  unfold makeRoom
  split
  · rfl
  · split <;> rfl

/-- Making room forgets, and puts nothing in. -/
theorem getElem?_makeRoom (h : (cache.makeRoom path).memory[key]? = some entry) :
    cache.memory[key]? = some entry := by
  unfold makeRoom at h
  split at h
  · exact h
  · split at h
    · rw [Std.HashMap.getElem?_erase] at h
      split at h
      · cases h
      · exact h
    · exact h

/-- All that memory holds belongs to some paths. -/
def Covered (paths : List Path) (cache : SyntaxCache) : Prop :=
  ∀ key ∈ cache.memory, ∃ path ∈ paths, path.components = key

theorem covered_blank (paths : List Path) (backing : Option Path) (evict : Eviction) :
    Covered paths (blank backing evict) :=
  fun _ hkey => absurd hkey Std.HashMap.not_mem_empty

theorem covered_remember (h : Covered paths cache)
    (hpath : ∃ p ∈ paths, p.components = path.components) (entry : CacheEntry) :
    Covered paths (cache.remember path entry) := by
  intro key hkey
  rcases Std.HashMap.mem_insert.1 hkey with heq | hkey
  · rw [← beq_iff_eq.1 heq]
    exact hpath
  · exact h key hkey

/-- Memory that holds entries of at most so many paths has room for any of them. -/
theorem hasRoom_of_covered (hlen : paths.length ≤ capacity) (hc : Covered paths cache)
    (hpath : path ∈ paths) : cache.HasRoom path := by
  by_contra hroom
  rw [HasRoom, not_or] at hroom
  have hsub : path.components :: cache.memory.keys ⊆ paths.map Path.components := by
    intro key hkey
    rcases List.mem_cons.1 hkey with rfl | hkey
    · exact List.mem_map_of_mem hpath
    · obtain ⟨p, hp, rfl⟩ := hc key (Std.HashMap.mem_keys.1 hkey)
      exact List.mem_map_of_mem hp
  have hnodup : (path.components :: cache.memory.keys).Nodup := by
    rw [List.nodup_cons]
    exact ⟨fun hkey => hroom.2 (Std.HashMap.mem_keys.1 hkey), Std.HashMap.nodup_keys⟩
  have hle := (hnodup.subperm hsub).length_le
  rw [List.length_cons, List.length_map, Std.HashMap.length_keys] at hle
  omega

theorem store_eq (cache : SyntaxCache) (fs : FileSystem) (path : Path) (contentHash : UInt64)
    (syntaxOf : FileSyntax) : cache.store fs path contentHash syntaxOf =
      let entry := entryFor contentHash syntaxOf
      let remembering := (cache.makeRoom path).remember path entry
      match cache.dir with
      | none => (.ok (), remembering, fs)
      | some dir =>
        match fs.write (filePath dir path) entry.encode with
        | .ok fs => (.ok (), remembering, fs)
        | .error e => (.error (.io (filePath dir path) e), cache.makeRoom path, fs) := by
  rw [← dir_makeRoom cache path]
  rfl

/-- What memory holds after a look-up that had room for the entry. -/
theorem getElem?_get (hroom : cache.HasRoom path) (key : List Component) :
    (cache.get fs path contentHash).2.memory[key]? =
      if path.components = key then
        cache.memory[key]?.or ((cache.load? fs path).filter (·.isCurrent contentHash))
      else cache.memory[key]? := by
  unfold get
  cases hmem : cache.memory[path.components]? with
  | some entry =>
    by_cases hkey : path.components = key
    · rw [if_pos hkey, ← hkey, hmem, Option.some_or]
    · rw [if_neg hkey]
  | none =>
    cases (cache.load? fs path).filter (·.isCurrent contentHash) with
    | none => simp
    | some entry =>
      have hsize : cache.memory.size < capacity := by
        refine hroom.resolve_right fun hkey => ?_
        rw [Std.HashMap.mem_iff_isSome_getElem?, hmem] at hkey
        cases hkey
      simp only [hsize, if_true, Std.HashMap.getElem?_insert, beq_iff_eq]
      split
      · rename_i hkey
        rw [← hkey, hmem, Option.none_or]
      · rfl

/-- The files after an entry went to the directory, if there is one. -/
def Written (cache : SyntaxCache) (fs : FileSystem) (path : Path) (entry : CacheEntry)
    (fs' : FileSystem) : Prop :=
  match cache.dir with
  | none => fs' = fs
  | some dir => fs.write (filePath dir path) entry.encode = .ok fs'

theorem Written.cases (h : cache.Written fs path entry fs') :
    cache.dir = none ∧ fs' = fs ∨ ∃ dir, cache.dir = some dir ∧
      fs.write (filePath dir path) entry.encode = .ok fs' := by
  unfold Written at h
  split at h
  · rename_i hdir
    exact .inl ⟨hdir, h⟩
  · rename_i dir hdir
    exact .inr ⟨dir, hdir, h⟩

/-- Storing writes the entry and then remembers it. If it cannot be written, only room was made. -/
theorem store_cases (cache : SyntaxCache) (fs : FileSystem) (path : Path) (contentHash : UInt64)
    (syntaxOf : FileSyntax) :
    (∃ fs', cache.Written fs path (entryFor contentHash syntaxOf) fs' ∧
      cache.store fs path contentHash syntaxOf =
        (.ok (), (cache.makeRoom path).remember path (entryFor contentHash syntaxOf), fs')) ∨
    ∃ e, (∀ fs', ¬ cache.Written fs path (entryFor contentHash syntaxOf) fs') ∧
      cache.store fs path contentHash syntaxOf = (.error e, cache.makeRoom path, fs) := by
  unfold Written
  rw [store_eq]
  cases cache.dir with
  | none => exact .inl ⟨fs, rfl, rfl⟩
  | some dir =>
    simp only
    cases fs.write (filePath dir path) (entryFor contentHash syntaxOf).encode with
    | ok fs' => exact .inl ⟨fs', rfl, rfl⟩
    | error e => exact .inr ⟨.io (filePath dir path) e, by simp, rfl⟩

theorem dir_store (cache : SyntaxCache) (fs : FileSystem) (path : Path) (contentHash : UInt64)
    (syntaxOf : FileSyntax) : (cache.store fs path contentHash syntaxOf).2.1.dir = cache.dir := by
  rcases store_cases cache fs path contentHash syntaxOf with ⟨_, _, hstore⟩ | ⟨_, _, hstore⟩
  · rw [hstore]
    exact dir_makeRoom cache path
  · rw [hstore, dir_makeRoom]

theorem files_store_of_none (hdir : cache.dir = none) {syntaxOf : FileSyntax} :
    (cache.store fs path contentHash syntaxOf).2.2 = fs := by
  rw [store_eq, hdir]

theorem read_congr {p q : Path} (h : fs'.locate p = fs.locate q) : fs'.read p = fs.read q := by
  rw [FileSystem.read, FileSystem.read, FileSystem.find, FileSystem.find, h]

theorem fileName_congr (h : path.components = other.components) :
    fileName path = fileName other := by
  rw [fileName, fileName, Path.digest_congr h]

theorem load?_backed (hdir : cache.dir = some dir) (files : FileSystem) (path : Path) :
    cache.load? files path = (blank (some dir)).load? files path := by
  rw [load?, load?, hdir]
  rfl

theorem load?_eq_some (hdir : cache.dir = some dir) : cache.load? fs path = some entry ↔
    ∃ content, fs.read (filePath dir path) = .ok content ∧ CacheEntry.decode? content = some entry := by
  simp only [load?, hdir, Option.bind_some]
  cases fs.read (filePath dir path) <;> simp [Except.toOption]

theorem load?_of_enter?_none (hdir : cache.dir = some dir) (h : fs.enter? dir = none) (path : Path) :
    cache.load? fs path = none := by
  obtain ⟨e, he⟩ := locate_of_enter?_none h path
  simp [load?, hdir, FileSystem.read, FileSystem.find, he, Except.toOption]

theorem load?_of_enter?_nil {place : List String} (hdir : cache.dir = some dir)
    (hu : Unlinked fs dir) (h : fs.enter? dir = some (place, [])) (path : Path) :
    cache.load? fs path = none := by
  simp [load?, hdir, FileSystem.read, FileSystem.find, locate_of_enter? hu h, FileNode.child?_nil,
    Except.toOption]

/-- A written entry is loaded again. -/
theorem load?_write_self (hdir : cache.dir = some dir) (hu : Unlinked fs dir)
    (hfits : entry.syntaxOf.Fits) (h : fs.write (filePath dir path) entry.encode = .ok fs')
    (hname : fileName other = fileName path) : cache.load? fs' other = some entry := by
  obtain ⟨names, _, _, hlocate⟩ := locate_write_self hu h
  have hdecode := CacheEntry.decode?_encode hfits []
  rw [List.append_nil] at hdecode
  have hpath : filePath dir other = filePath dir path := by rw [filePath, filePath, hname]
  simp [load?, hdir, hpath, FileSystem.read, FileSystem.find, hlocate, Except.toOption, hdecode]

theorem load?_write_other (hdir : cache.dir = some dir) (hu : Unlinked fs dir)
    {content : List UInt8} (h : fs.write (filePath dir path) content = .ok fs')
    (hname : fileName other ≠ fileName path) : cache.load? fs' other = cache.load? fs other := by
  simp only [load?, hdir, Option.bind_some, read_congr (locate_write_other hu h hname)]

@[simp] theorem clear_cache (cache : SyntaxCache) (fs : FileSystem) :
    (cache.clear fs).2.1 = blank cache.dir cache.evict := by
  unfold clear
  dsimp only
  split
  · rfl
  · split
    · split
      · rfl
      · split <;> rfl
    · rfl

theorem files_clear_of_none (hdir : cache.dir = none) : (cache.clear fs).2.2 = fs := by
  rw [clear, hdir]

/-- Clearing finds no directory, or empties it where it stands, or removes it and makes it again if that
can be done. -/
theorem clear_cases (hdir : cache.dir = some dir) (fs : FileSystem) :
    ((cache.clear fs).2.2 = fs ∧ (dir.text.isEmpty = true ∨ fs.enter? dir = none)) ∨
    (∃ place inner, fs.enter? dir = some (place, inner) ∧ (cache.clear fs).2.2 = fs.clearDir place) ∨
    ∃ less, fs.Removed dir less ∧ (((∃ e, less.makeDirs dir = .error e) ∧ (cache.clear fs).2.2 = less) ∨
      less.makeDirs dir = .ok (cache.clear fs).2.2) := by
  simp only [clear, hdir]
  by_cases hholds : fs.holds dir = true
  · rw [if_pos hholds]
    cases htext : dir.text.isEmpty with
    | true =>
      rw [FileSystem.holds, FileSystem.find, FileSystem.locate, if_pos htext] at hholds
      cases hholds
    | false =>
      rcases FileSystem.removeDir_cases fs htext with
        ⟨less, hremove, hremoved⟩ | ⟨e, place, inner, hremove, he⟩ | ⟨e, hremove, he⟩
      · refine .inr (.inr ⟨less, hremoved, ?_⟩)
        simp only [hremove]
        cases hmake : less.makeDirs dir with
        | error e => exact .inl ⟨⟨e, rfl⟩, rfl⟩
        | ok files => exact .inr rfl
      · exact .inr (.inl ⟨place, inner, he, by simp only [hremove]⟩)
      · exact .inl ⟨by simp only [hremove], .inr he⟩
  · rw [if_neg hholds]
    refine .inl ⟨rfl, ?_⟩
    cases htext : dir.text.isEmpty with
    | true => exact .inl rfl
    | false =>
      right
      rw [Option.eq_none_iff_forall_ne_some]
      rintro ⟨place, inner⟩ he
      exact hholds (FileSystem.holds_of_enter? htext he)

/-- Clearing leaves the directory empty, or lost if it cannot be made again, as long as the path is not
led elsewhere. -/
theorem clear_files (hdir : cache.dir = some dir) (hs : fs.Steady dir ∨ fs.Lost dir)
    (hled : ¬ fs.Firm dir → (cache.clear fs).2.2.Bare dir) :
    ((cache.clear fs).2.2.Steady dir ∧
      ∃ place, (cache.clear fs).2.2.enter? dir = some (place, [])) ∨ (cache.clear fs).2.2.Lost dir := by
  rcases clear_cases hdir fs with
    ⟨heq, hnone⟩ | ⟨place, inner, he, heq⟩ | ⟨less, hremoved, ⟨hrefused, heq⟩ | hmake⟩
  · rw [heq]
    rcases hs with hs | hlost
    · obtain ⟨place, inner, he, _⟩ := hs.enters
      simp [hs.text, he] at hnone
    · exact .inr hlost
  · rw [heq]
    rcases hs with hs | hlost
    · obtain ⟨hsteady, henter⟩ := hs.emptied he
      exact .inl ⟨hsteady, place, henter⟩
    · rw [hlost.absent.enter?_eq] at he
      cases he
  · rw [heq]
    exact .inr ⟨hremoved.absent, hrefused⟩
  · obtain ⟨name, hname⟩ := hremoved.name
    have hmade := FileSystem.made_makeDirs hmake
    have hempty : ∃ place, (cache.clear fs).2.2.enter? dir = some (place, []) := by
      by_cases hfirm : fs.Firm dir
      · exact hremoved.remade hfirm hmake
      · obtain ⟨place, entries, he⟩ := hmade.exists_enter? hname
        obtain rfl := hled hfirm place entries he
        exact ⟨place, he⟩
    obtain ⟨place, he⟩ := hempty
    have htext : dir.text.isEmpty = false := Path.text_isEmpty_of_ne_nil fun hnil => by
      simp [Path.last?, hnil] at hname
    exact .inl ⟨⟨htext, hmade, place, [], he, FileNode.plain_nil⟩, place, he⟩

/-- A cache uses no other directory than the one it was opened on. -/
theorem dir_onDisk {dir' : Path} {evict : Eviction} (h : (onDisk fs dir evict).1.dir = some dir') :
    dir' = dir := by
  unfold onDisk at h
  split at h
  · cases h
    rfl
  · cases h

/-- A directory that is there is opened as it is. -/
theorem onDisk_of_made (h : fs.Made dir) (evict : Eviction) :
    onDisk fs dir evict = (blank (some dir) evict, fs) := by
  rw [onDisk, FileSystem.makeDirs_of_made h]

/-- Without its directory, a cache only remembers. -/
theorem onDisk_of_lost (hl : fs.Lost dir) (evict : Eviction) :
    onDisk fs dir evict = (inMemory evict, fs) := by
  obtain ⟨e, hrefused⟩ := hl.refused
  rw [onDisk, hrefused]

/-- A directory of entries, with something beside it. -/
def withEntries (entries rest : List (String × FileNode)) : FileSystem :=
  ⟨("c", .dir entries) :: rest, []⟩

section WithEntries

variable {entries rest : List (String × FileNode)}

theorem enter?_withEntries (entries rest : List (String × FileNode)) :
    (withEntries entries rest).enter? ⟨"/c"⟩ = some (["c"], entries) :=
  FileSystem.enter?_top "c" (by decide) rfl

theorem made_withEntries (entries rest : List (String × FileNode)) :
    (withEntries entries rest).Made ⟨"/c"⟩ :=
  FileSystem.made_top "c" (by decide) (by decide) rfl

/-- Where an entry is looked for does not depend on what is beside. -/
theorem locate_withEntries (hplain : FileNode.Plain entries) (rest : List (String × FileNode))
    (path : Path) : (withEntries entries rest).locate (filePath ⟨"/c"⟩ path) =
      .ok (["c"] ++ [fileName path], (FileNode.dir entries).child? (fileName path)) := by
  have he := enter?_withEntries entries rest
  exact locate_of_enter? (unlinked_of_plain he hplain) he path

theorem put_withEntries (hrest : ∀ entry ∈ rest, entry.1 ≠ "c") (name : String) (node : FileNode) :
    (withEntries entries rest).put (["c"] ++ [name]) node =
      withEntries (FileNode.putEntry name node entries) rest := by
  rw [FileSystem.put_concat, withEntries, withEntries, FileNode.change, List.map_cons, if_pos rfl]
  congr 2
  refine (List.map_congr_left fun entry hentry => ?_).trans (List.map_id rest)
  exact if_neg (hrest entry hentry)

/-- Storing an entry there. -/
theorem store_withEntries (hplain : FileNode.Plain entries) (hdir : cache.dir = some ⟨"/c"⟩)
    (hroom : cache.HasRoom path) (contentHash : UInt64) (syntaxOf : FileSyntax) :
    cache.store (withEntries entries rest) path contentHash syntaxOf =
      (.ok (), cache.remember path (entryFor contentHash syntaxOf),
        (withEntries entries rest).put (["c"] ++ [fileName path])
          (.file (entryFor contentHash syntaxOf).encode)) := by
  have hfree : ∀ inner, (FileNode.dir entries).child? (fileName path) ≠ some (.dir inner) := by
    intro inner hchild
    obtain ⟨content, hfile⟩ := hplain _ _ hchild
    cases hfile
  rw [store_eq, makeRoom_of_hasRoom hroom, hdir]
  simp only [FileSystem.write_of_locate (locate_withEntries hplain rest path) hfree]

end WithEntries

/-- A directory with nothing in it. -/
def bareDirectory : FileSystem := withEntries [] []

theorem enter?_bare : bareDirectory.enter? ⟨"/c"⟩ = some (["c"], []) :=
  enter?_withEntries [] []

theorem made_bare : bareDirectory.Made ⟨"/c"⟩ :=
  made_withEntries [] []

/-- An entry can be written to it. -/
theorem write_bare (path : Path) (content : List UInt8) :
    bareDirectory.write (filePath ⟨"/c"⟩ path) content =
      .ok (bareDirectory.put (["c"] ++ [fileName path]) (.file content)) := by
  have hfree : ∀ inner, (FileNode.dir []).child? (fileName path) ≠ some (.dir inner) := by
    simp [FileNode.child?_nil]
  exact write_of_enter? (unlinked_of_enter?_nil enter?_bare) enter?_bare hfree content

/-- A new cache stores an entry there. -/
theorem store_bare (path : Path) (contentHash : UInt64) (syntaxOf : FileSyntax) :
    (blank (some ⟨"/c"⟩)).store bareDirectory path contentHash syntaxOf =
      (.ok (), (blank (some ⟨"/c"⟩)).remember path (entryFor contentHash syntaxOf),
        bareDirectory.put (["c"] ++ [fileName path])
          (.file (entryFor contentHash syntaxOf).encode)) :=
  store_withEntries FileNode.plain_nil rfl (.inl (by decide)) contentHash syntaxOf

end Dependents.SyntaxCache
