import Dependents.Proofs.CacheLayers
import Mathlib.Logic.Relation

/-! Caches that share a directory, each with a memory of its own. An entry that can be found, in a
memory or on disk, is one that some store made for a path with the same entry file. -/
namespace Dependents

open SyntaxCache

/-- A store as it was asked for. -/
structure StoreCall where
  path : Path
  contentHash : UInt64
  syntaxOf : FileSyntax

/-- The caches opened on a directory so far, the files, and every store that was issued, the latest
first. -/
structure SharedCaches where
  caches : List SyntaxCache
  files : FileSystem
  issued : List StoreCall

/-- A path that leads to no directory, or to one in which nothing but directories have the names of
entries. -/
def FileSystem.Vacant (fs : FileSystem) (dir : Path) : Prop :=
  ∀ place entries, fs.enter? dir = some (place, entries) → ∀ path node,
    (FileNode.dir entries).child? (fileName path) = some node → ∃ inner, node = .dir inner

/-- A path that is such once its directory is made, if it can be made. -/
def FileSystem.StartsVacant (fs : FileSystem) (dir : Path) : Prop :=
  ∀ made, fs.makeDirs dir = .ok made → made.Vacant dir

namespace SharedCaches

/-- One more cache is opened, or one of them does a single operation. A store may be refused for
reasons outside the files it would change. Where making directories may lead a path through `..` to
another directory, that one holds no entry, either. -/
inductive Step (dir : Path) : SharedCaches → SharedCaches → Prop
  | opens (r : SharedCaches) (evict : Eviction)
      (hled : ¬ dir.Direct → r.files.enter? dir = none → r.files.StartsVacant dir) :
      Step dir r ⟨r.caches ++ [(onDisk r.files dir evict).1], (onDisk r.files dir evict).2, r.issued⟩
  | get (r : SharedCaches) (i : Nat) (cache : SyntaxCache) (path : Path) (contentHash : UInt64)
      (hi : r.caches[i]? = some cache) :
      Step dir r { r with caches := r.caches.set i (cache.get r.files path contentHash).2 }
  | store (r : SharedCaches) (i : Nat) (cache : SyntaxCache) (call : StoreCall)
      (hi : r.caches[i]? = some cache) (hfits : call.syntaxOf.Fits) :
      Step dir r
        ⟨r.caches.set i (cache.store r.files call.path call.contentHash call.syntaxOf).2.1,
          (cache.store r.files call.path call.contentHash call.syntaxOf).2.2, call :: r.issued⟩
  | refused (r : SharedCaches) (i : Nat) (cache : SyntaxCache) (call : StoreCall)
      (refusing : FileSystem) (e : AnalysisError) (hi : r.caches[i]? = some cache)
      (herror : (cache.store refusing call.path call.contentHash call.syntaxOf).1 = .error e) :
      Step dir r
        ⟨r.caches.set i (cache.store refusing call.path call.contentHash call.syntaxOf).2.1, r.files,
          call :: r.issued⟩
  | clear (r : SharedCaches) (i : Nat) (cache : SyntaxCache) (hi : r.caches[i]? = some cache)
      (hled : ¬ r.files.Firm dir → (cache.clear r.files).2.2.Vacant dir) :
      Step dir r { r with
        caches := r.caches.set i (cache.clear r.files).2.1, files := (cache.clear r.files).2.2 }

/-- What becomes of a directory and the caches that are opened on it. -/
def Reached (files : FileSystem) (dir : Path) (r : SharedCaches) : Prop :=
  Relation.ReflTransGen (Step dir) ⟨[], files, []⟩ r

/-- An entry that a store made, for a path with the same entry file. -/
def Traced (issued : List StoreCall) (path : Path) (entry : CacheEntry) : Prop :=
  ∃ call ∈ issued, fileName call.path = fileName path ∧
    entry = entryFor call.contentHash call.syntaxOf

/-- A cache of this directory that remembers only what was stored. -/
structure TracedCache (dir : Path) (issued : List StoreCall) (cache : SyntaxCache) : Prop where
  backing : cache.dir = none ∨ cache.dir = some dir
  memory : ∀ path entry, cache.memory[path.components]? = some entry → Traced issued path entry

/-- A directory that holds only what was stored. -/
structure TracedDisk (dir : Path) (issued : List StoreCall) (files : FileSystem) : Prop where
  unlinked : Unlinked files dir
  load : ∀ path entry, (blank (some dir)).load? files path = some entry → Traced issued path entry

/-- All that can be found was stored. As long as the directory could not be made, no cache uses it. -/
structure Sound (dir : Path) (r : SharedCaches) : Prop where
  caches : ∀ cache ∈ r.caches, TracedCache dir r.issued cache
  disk : TracedDisk dir r.issued r.files ∨
    r.files.StartsVacant dir ∧ ∀ cache ∈ r.caches, cache.dir = none

variable {dir path other : Path} {files : FileSystem} {issued more : List StoreCall} {call : StoreCall}
  {cache cache' : SyntaxCache} {caches : List SyntaxCache} {entry : CacheEntry} {r r' : SharedCaches}
  {evict : Eviction}

theorem Traced.congr (h : Traced issued path entry) (hname : fileName path = fileName other) :
    Traced issued other entry := by
  obtain ⟨call, hcall, hsame, hentry⟩ := h
  exact ⟨call, hcall, hsame.trans hname, hentry⟩

theorem Traced.issue (h : Traced issued path entry) (call : StoreCall) :
    Traced (call :: issued) path entry := by
  obtain ⟨earlier, hmem, hname, hentry⟩ := h
  exact ⟨earlier, List.mem_cons_of_mem call hmem, hname, hentry⟩

theorem traced_call (call : StoreCall) (issued : List StoreCall) :
    Traced (call :: issued) call.path (entryFor call.contentHash call.syntaxOf) :=
  ⟨call, List.mem_cons_self, rfl, rfl⟩

theorem TracedCache.issue (h : TracedCache dir issued cache) (call : StoreCall) :
    TracedCache dir (call :: issued) cache :=
  ⟨h.backing, fun path entry hmem => (h.memory path entry hmem).issue call⟩

theorem TracedDisk.issue (h : TracedDisk dir issued files) (call : StoreCall) :
    TracedDisk dir (call :: issued) files :=
  ⟨h.unlinked, fun path entry hload => (h.load path entry hload).issue call⟩

theorem tracedCache_blank {backing : Option Path} (h : backing = none ∨ backing = some dir) :
    TracedCache dir issued (blank backing evict) := by
  refine ⟨h, fun path entry hmem => ?_⟩
  rw [blank, Std.HashMap.getElem?_empty] at hmem
  cases hmem

theorem TracedCache.remember (h : TracedCache dir issued cache) (hentry : Traced issued path entry) :
    TracedCache dir issued (cache.remember path entry) := by
  refine ⟨h.backing, fun other found hmem => ?_⟩
  rw [getElem?_remember] at hmem
  split at hmem
  · rename_i hc
    cases hmem
    exact hentry.congr (fileName_congr hc)
  · exact h.memory other found hmem

theorem TracedCache.makeRoom (h : TracedCache dir issued cache) (path : Path) :
    TracedCache dir issued (cache.makeRoom path) := by
  refine ⟨?_, fun other found hmem => h.memory other found (getElem?_makeRoom hmem)⟩
  rw [dir_makeRoom]
  exact h.backing

theorem TracedCache.load (h : TracedCache dir issued cache)
    (hd : cache.dir = some dir → TracedDisk dir issued files)
    (hload : cache.load? files path = some entry) : Traced issued path entry := by
  rcases h.backing with hdir | hdir
  · simp [load?, hdir] at hload
  · rw [load?_backed hdir] at hload
    exact (hd hdir).load path entry hload

theorem TracedCache.held (h : TracedCache dir issued cache)
    (hd : cache.dir = some dir → TracedDisk dir issued files)
    (hheld : cache.held files path = some entry) : Traced issued path entry := by
  unfold SyntaxCache.held at hheld
  rcases Option.or_eq_some_iff.1 hheld with hmem | ⟨_, hload⟩
  · exact h.memory path entry hmem
  · exact h.load hd hload

theorem TracedCache.get (h : TracedCache dir issued cache)
    (hd : cache.dir = some dir → TracedDisk dir issued files) (path : Path) (contentHash : UInt64) :
    TracedCache dir issued (cache.get files path contentHash).2 := by
  rcases cache.get_snd files path contentHash with heq | ⟨entry, _, hload, heq⟩
  · rw [heq]
    exact h
  · rw [heq]
    exact h.remember (h.load hd hload)

/-- A store remembers at most its own entry, whatever becomes of the write. -/
theorem TracedCache.store (h : TracedCache dir issued cache) (files : FileSystem) (call : StoreCall) :
    TracedCache dir (call :: issued)
      (cache.store files call.path call.contentHash call.syntaxOf).2.1 := by
  have hroom := (h.makeRoom call.path).issue call
  rcases store_cases cache files call.path call.contentHash call.syntaxOf with
    ⟨_, _, hstore⟩ | ⟨_, _, hstore⟩
  · rw [hstore]
    exact hroom.remember (traced_call call issued)
  · rw [hstore]
    exact hroom

/-- A written entry is the only one that is new. -/
theorem TracedDisk.write (hd : TracedDisk dir issued files) (hfits : call.syntaxOf.Fits)
    {files' : FileSystem} (hwrite : files.write (filePath dir call.path)
      (entryFor call.contentHash call.syntaxOf).encode = .ok files') :
    TracedDisk dir (call :: issued) files' := by
  refine ⟨unlinked_write hd.unlinked hwrite, fun path entry hload => ?_⟩
  by_cases hname : fileName path = fileName call.path
  · rw [load?_write_self rfl hd.unlinked hfits hwrite hname] at hload
    cases hload
    exact (traced_call call issued).congr hname.symm
  · rw [load?_write_other rfl hd.unlinked hwrite hname] at hload
    exact (hd.load path entry hload).issue call

theorem TracedDisk.store (hd : TracedDisk dir issued files) (h : TracedCache dir issued cache)
    (hfits : call.syntaxOf.Fits) :
    TracedDisk dir (call :: issued)
      (cache.store files call.path call.contentHash call.syntaxOf).2.2 := by
  rcases store_cases cache files call.path call.contentHash call.syntaxOf with
    ⟨files', hw, hstore⟩ | ⟨_, _, hstore⟩
  · rw [hstore]
    rcases hw.cases with ⟨_, rfl⟩ | ⟨dir', hdir, hwrite⟩
    · exact hd.issue call
    · rcases h.backing with hnone | hsome
      · rw [hdir] at hnone
        cases hnone
      · rw [hdir] at hsome
        cases hsome
        exact hd.write hfits hwrite
  · rw [hstore]
    exact hd.issue call

/-- Nothing can be loaded from a vacant directory. -/
theorem tracedDisk_of_vacant (h : files.Vacant dir) : TracedDisk dir issued files := by
  have hu : Unlinked files dir := by
    intro place entries he path target hlink
    obtain ⟨inner, hdir⟩ := h place entries he path _ hlink
    cases hdir
  refine ⟨hu, fun path entry hload => ?_⟩
  cases he : files.enter? dir with
  | none =>
    rw [load?_of_enter?_none rfl he] at hload
    cases hload
  | some there =>
    obtain ⟨place, entries⟩ := there
    have hread : ∀ content, files.read (filePath dir path) ≠ .ok content := by
      intro content hread
      obtain ⟨names, hlocate⟩ := FileSystem.read_eq_ok.1 hread
      rw [locate_of_enter? hu he] at hlocate
      injection hlocate with hlocate
      injection hlocate with _ hchild
      obtain ⟨inner, hdir⟩ := h place entries he path _ hchild
      cases hdir
    rw [load?, blank, Option.bind_some] at hload
    cases hfile : files.read (filePath dir path) with
    | error e => simp [hfile, Except.toOption] at hload
    | ok content => exact absurd hfile (hread content)

theorem vacant_of_bare (h : files.Bare dir) : files.Vacant dir := by
  intro place entries he path node hchild
  rw [h place entries he] at hchild
  cases hchild

theorem bare_of_enter? {place : List String} (he : files.enter? dir = some (place, [])) :
    files.Bare dir := by
  intro place' entries he'
  rw [he] at he'
  cases he'
  rfl

/-- What the path leads to after clearing holds no entry that it did not lead to before. -/
theorem TracedDisk.clear (hd : TracedDisk dir issued files) (h : TracedCache dir issued cache)
    (hled : ¬ files.Firm dir → (cache.clear files).2.2.Vacant dir) :
    TracedDisk dir issued (cache.clear files).2.2 := by
  rcases h.backing with hdir | hdir
  · rw [files_clear_of_none hdir]
    exact hd
  · rcases clear_cases hdir files with
      ⟨heq, _⟩ | ⟨place, inner, he, heq⟩ | ⟨less, hremoved, ⟨_, heq⟩ | hmake⟩
    · rw [heq]
      exact hd
    · rw [heq]
      have hat := FileSystem.at?_of_enter? he
      exact tracedDisk_of_vacant (vacant_of_bare fun _ _ he' =>
        (FileSystem.emptied_clearDir hat).entries_eq_nil hat he he')
    · rw [heq]
      refine tracedDisk_of_vacant fun place entries he => ?_
      rw [hremoved.absent.enter?_eq] at he
      cases he
    · apply tracedDisk_of_vacant
      by_cases hfirm : files.Firm dir
      · obtain ⟨place, he⟩ := hremoved.remade hfirm hmake
        exact vacant_of_bare (bare_of_enter? he)
      · exact hled hfirm

/-- Nor does opening one more cache lead it to other entries. -/
theorem TracedDisk.opens (hd : TracedDisk dir issued files)
    (hled : ¬ dir.Direct → files.enter? dir = none → files.StartsVacant dir) (evict : Eviction) :
    TracedCache dir issued (onDisk files dir evict).1 ∧
      TracedDisk dir issued (onDisk files dir evict).2 := by
  unfold onDisk
  cases hmake : files.makeDirs dir with
  | error e => exact ⟨tracedCache_blank (.inl rfl), hd⟩
  | ok made =>
    refine ⟨tracedCache_blank (.inr rfl), ?_⟩
    cases he : files.enter? dir with
    | some there =>
      rw [FileSystem.makeDirs_of_enter? he hmake]
      exact hd
    | none =>
      by_cases hdirect : dir.Direct
      · rcases FileSystem.enter?_makeDirs hdirect hmake with ⟨rfl, _⟩ | ⟨_, place, hnew⟩
        · exact hd
        · exact tracedDisk_of_vacant (vacant_of_bare (bare_of_enter? hnew))
      · exact tracedDisk_of_vacant (hled hdirect he made hmake)

theorem forall_set {P : SyntaxCache → Prop} (h : ∀ c ∈ caches, P c) (i : Nat) (hnew : P cache) :
    ∀ c ∈ caches.set i cache, P c := by
  intro c hc
  rcases List.mem_or_eq_of_mem_set hc with hold | rfl
  · exact h c hold
  · exact hnew

theorem forall_snoc {P : SyntaxCache → Prop} (h : ∀ c ∈ caches, P c) (hnew : P cache) :
    ∀ c ∈ caches ++ [cache], P c :=
  List.forall_mem_append.2 ⟨h, List.forall_mem_singleton.2 hnew⟩

theorem Sound.backed (h : Sound dir r) (hcache : cache ∈ r.caches) (hdir : cache.dir = some dir) :
    TracedDisk dir r.issued r.files := by
  rcases h.disk with hd | ⟨_, hnone⟩
  · exact hd
  · rw [hnone cache hcache] at hdir
    cases hdir

theorem sound_opens (h : Sound dir r)
    (hled : ¬ dir.Direct → r.files.enter? dir = none → r.files.StartsVacant dir) (evict : Eviction) :
    Sound dir
      ⟨r.caches ++ [(onDisk r.files dir evict).1], (onDisk r.files dir evict).2, r.issued⟩ := by
  rcases h.disk with hd | ⟨hstart, hnone⟩
  · obtain ⟨hcache, hdisk⟩ := hd.opens hled evict
    exact ⟨forall_snoc h.caches hcache, .inl hdisk⟩
  · unfold onDisk
    cases hmake : r.files.makeDirs dir with
    | ok made =>
      have hdisk : TracedDisk dir r.issued made := tracedDisk_of_vacant (hstart made hmake)
      exact ⟨forall_snoc h.caches (tracedCache_blank (.inr rfl)), .inl hdisk⟩
    | error e =>
      refine ⟨forall_snoc h.caches (tracedCache_blank (.inl rfl)), .inr ⟨hstart, ?_⟩⟩
      exact forall_snoc hnone rfl

/-- No step of any cache brings in anything that was not stored. -/
theorem sound_step (h : Sound dir r) (hstep : Step dir r r') : Sound dir r' := by
  cases hstep with
  | opens evict hled => exact sound_opens h hled evict
  | get i cache path contentHash hi =>
    have hmem := List.mem_of_getElem? hi
    have hcache := (h.caches cache hmem).get (h.backed hmem) path contentHash
    refine ⟨forall_set h.caches i hcache, h.disk.imp_right fun ⟨hstart, hnone⟩ => ⟨hstart, ?_⟩⟩
    exact forall_set hnone i ((cache.dir_get r.files path contentHash).trans (hnone cache hmem))
  | store i cache call hi hfits =>
    have hmem := List.mem_of_getElem? hi
    have hcache := (h.caches cache hmem).store r.files call
    refine ⟨forall_set (fun c hc => (h.caches c hc).issue call) i hcache, ?_⟩
    rcases h.disk with hd | ⟨hstart, hnone⟩
    · exact .inl (hd.store (h.caches cache hmem) hfits)
    · rw [files_store_of_none (hnone cache hmem)]
      exact .inr ⟨hstart, forall_set hnone i ((dir_store ..).trans (hnone cache hmem))⟩
  | refused i cache call refusing e hi herror =>
    have hmem := List.mem_of_getElem? hi
    have hcache := (h.caches cache hmem).store refusing call
    refine ⟨forall_set (fun c hc => (h.caches c hc).issue call) i hcache, ?_⟩
    rcases h.disk with hd | ⟨hstart, hnone⟩
    · exact .inl (hd.issue call)
    · exact .inr ⟨hstart, forall_set hnone i ((dir_store ..).trans (hnone cache hmem))⟩
  | clear i cache hi hled =>
    have hmem := List.mem_of_getElem? hi
    have hcache := h.caches cache hmem
    rw [clear_cache]
    refine ⟨forall_set h.caches i (tracedCache_blank hcache.backing), ?_⟩
    rcases h.disk with hd | ⟨hstart, hnone⟩
    · exact .inl (hd.clear hcache hled)
    · rw [files_clear_of_none (hnone cache hmem)]
      exact .inr ⟨hstart, forall_set hnone i (hnone cache hmem)⟩

theorem sound_of_reached (hstart : files.StartsVacant dir) (h : Reached files dir r) :
    Sound dir r := by
  induction h with
  | refl =>
    have hnone : ∀ cache ∈ ([] : List SyntaxCache), cache.dir = none := fun _ hcache =>
      absurd hcache List.not_mem_nil
    exact ⟨fun _ hcache => absurd hcache List.not_mem_nil, .inr ⟨hstart, hnone⟩⟩
  | tail _ hstep ih => exact sound_step ih hstep

/-- Whatever several caches do with a directory that held no entry when it was first opened, a look-up
of any of them finds only syntax that one of them was asked to store for the same digest, under a path
with the same entry file. Paths that are the same have one. -/
theorem issued_of_get (hstart : files.StartsVacant dir) (h : Reached files dir r)
    (hcache : cache ∈ r.caches) {contentHash : UInt64} {syntaxOf : FileSyntax}
    (hget : (cache.get r.files path contentHash).1 = some syntaxOf) :
    ∃ call ∈ r.issued, call.contentHash = contentHash ∧ call.syntaxOf = syntaxOf ∧
      fileName call.path = fileName path := by
  have hsound := sound_of_reached hstart h
  obtain ⟨call, hcall, hname, hentry⟩ :=
    (hsound.caches cache hcache).held (hsound.backed hcache) (held_of_get hget)
  injection hentry with _ hhash hsyntax
  exact ⟨call, hcall, hhash.symm, hsyntax.symm, hname⟩

theorem startsVacant_bare : bareDirectory.StartsVacant ⟨"/c"⟩ := by
  intro made hmake
  rw [FileSystem.makeDirs_of_made made_bare] at hmake
  cases hmake
  exact vacant_of_bare (bare_of_enter? enter?_bare)

/-- A directory that is there stays as it is when one more cache is opened on it. -/
theorem step_opens (r : SharedCaches) (hmade : r.files.Made dir) (hdirect : dir.Direct) :
    Step dir r { r with caches := r.caches ++ [blank (some dir)] } := by
  have hstep : Step dir r _ := .opens r firstKey fun hnot => absurd hdirect hnot
  rwa [onDisk_of_made hmade] at hstep

theorem step_store {files' : FileSystem} {result : Except AnalysisError Unit}
    (hfits : call.syntaxOf.Fits) (hstore : cache.store files call.path call.contentHash call.syntaxOf =
      (result, cache', files')) :
    Step dir ⟨cache :: caches, files, issued⟩ ⟨cache' :: caches, files', call :: issued⟩ := by
  have hstep : Step dir ⟨cache :: caches, files, issued⟩ _ := .store _ 0 cache call rfl hfits
  rwa [hstore] at hstep

/-- What one cache stored, another one finds in the directory they share. -/
theorem issued_of_get_twoCaches :
    let files := bareDirectory.put (["c"] ++ [fileName ⟨"/a.ts"⟩]) (.file (entryFor 7 ⟨[], []⟩).encode)
    let call : StoreCall := ⟨⟨"/a.ts"⟩, 7, ⟨[], []⟩⟩
    ((blank (some ⟨"/c"⟩)).get files ⟨"/a.ts"⟩ 7).1 = some ⟨[], []⟩ ∧
      ∃ c ∈ [call], c.contentHash = 7 ∧ c.syntaxOf = ⟨[], []⟩ ∧ fileName c.path = fileName ⟨"/a.ts"⟩ := by
  intro files call
  have hfits : call.syntaxOf.Fits := by decide
  have hwrite := write_bare ⟨"/a.ts"⟩ (entryFor 7 ⟨[], []⟩).encode
  have hget : ((blank (some ⟨"/c"⟩)).get files ⟨"/a.ts"⟩ 7).1 = some ⟨[], []⟩ := by
    have hload : (blank (some ⟨"/c"⟩)).load? files ⟨"/a.ts"⟩ = some (entryFor 7 ⟨[], []⟩) :=
      load?_write_self rfl (unlinked_of_enter?_nil enter?_bare) hfits hwrite rfl
    rw [get_fst, held, hload, blank, Std.HashMap.getElem?_empty, Option.none_or]
    simp [Option.filter]
  have hdirect : Path.Direct ⟨"/c"⟩ := ⟨[.root], [], "c", by decide, by simp⟩
  have hopened : Reached bareDirectory ⟨"/c"⟩
      ⟨[blank (some ⟨"/c"⟩), blank (some ⟨"/c"⟩)], bareDirectory, []⟩ :=
    .tail (.single (step_opens ⟨[], bareDirectory, []⟩ made_bare hdirect))
      (step_opens ⟨[blank (some ⟨"/c"⟩)], bareDirectory, []⟩ made_bare hdirect)
  have hstep : Step ⟨"/c"⟩ ⟨[blank (some ⟨"/c"⟩), blank (some ⟨"/c"⟩)], bareDirectory, []⟩ _ :=
    step_store hfits (store_bare call.path call.contentHash call.syntaxOf)
  exact ⟨hget, issued_of_get startsVacant_bare (hopened.tail hstep) (by simp) hget⟩

end SharedCaches

end Dependents
