import Dependents.Proofs.CacheSlots
import Mathlib.Data.Set.Function

/-! A cache changes no index. Over any run of edits and builds, whatever entry can be found for a file
says what parsing the text of that digest would give. -/
namespace Dependents

open SyntaxCache Analysis

/-- What a run of builds may meet: the files that are scanned and the texts that are read. Files of
different places have different entry files, different texts have different digests, and all syntax
fits the format of the cache. -/
structure Workspace where
  grammar : Grammar
  config : Config
  paths : Set Path
  texts : Set String
  distinct : ∀ p ∈ paths, ∀ q ∈ paths, fileName p = fileName q → p.components = q.components
  injective : Set.InjOn Digest.content texts
  fits : ∀ path ∈ paths, ∀ text ∈ texts, ∀ syntaxOf,
    Source.fileSyntax grammar path text = .ok syntaxOf → syntaxOf.Fits

namespace Workspace

variable {W : Workspace} {s : Session} {files files' : FileSystem} {path dir : Path} {text : String}
  {entry : CacheEntry} {cache : SyntaxCache} {roots : List Path}

def Admits (W : Workspace) (files : FileSystem) (roots : List Path) : Prop :=
  ∀ found ∈ Scan.roots files W.config roots, found.path ∈ W.paths ∧
    ∀ text, Source.read files found.path = .ok text → text ∈ W.texts

/-- What can be read at entry files, by the paths they are for. -/
def entries (W : Workspace) (files : FileSystem) : Set (Path × List UInt8) :=
  { kept | ∃ dir, W.config.cache = .disk dir ∧ files.read (filePath dir kept.1) = .ok kept.2 }

/-- No link leads from the name of a source file to an entry of the workspace. -/
def KeepsLinksApart (W : Workspace) (files : FileSystem) : Prop :=
  ∀ dir, W.config.cache = .disk dir → LinksApart W.paths files dir

/-- The sessions of all runs of edits and builds that start on an empty cache directory, each with
all that was ever kept there. A build is made with the cache at hand or with one opened anew, whatever
it forgets first. An edit may change anything but make up entries: those that are read afterwards were
kept at some time, so that a directory may be out of reach for a while, and an entry that could not be
replaced may show again. A directory that has to be made again is empty, unless its path has `..` after
a name; then the edits may have led it elsewhere, and it shows no other entries there, either. -/
inductive Reached (W : Workspace) : Session → Set (Path × List UInt8) → Prop
  | start (files : FileSystem) (evict : Eviction)
      (hlinks : W.KeepsLinksApart (Session.start files W.config evict).files)
      (hempty : W.entries (Session.start files W.config evict).files = ∅) :
      Reached W (Session.start files W.config evict) ∅
  | edit (s : Session) (kept : Set (Path × List UInt8)) (files : FileSystem) (h : Reached W s kept)
      (hlinks : W.KeepsLinksApart files) (hentries : W.entries files ⊆ kept) :
      Reached W { s with files := files } kept
  | build (s : Session) (kept : Set (Path × List UInt8)) (roots : List Path) (h : Reached W s kept)
      (hadmits : W.Admits s.files roots) :
      Reached W (analyze W.grammar W.config s roots).2
        (kept ∪ W.entries (analyze W.grammar W.config s roots).2.files)
  | reopen (s : Session) (kept : Set (Path × List UInt8)) (evict : Eviction) (h : Reached W s kept)
      (hlinks : W.KeepsLinksApart (Session.start s.files W.config evict).files)
      (hentries : ∀ dir, W.config.cache = .disk dir → s.files.enter? dir = none → ¬ dir.Direct →
        W.entries (Session.start s.files W.config evict).files ⊆ kept) :
      Reached W (Session.start s.files W.config evict) kept

/-- An entry that tells the truth about each text it counts for. -/
def Faithful (W : Workspace) (path : Path) (entry : CacheEntry) : Prop :=
  ∀ text ∈ W.texts, entry.isCurrent (Digest.content text) = true →
    Source.fileSyntax W.grammar path text = .ok entry.syntaxOf

def SoundEntries (W : Workspace) (kept : Set (Path × List UInt8)) : Prop :=
  ∀ path ∈ W.paths, ∀ content, (path, content) ∈ kept → ∀ entry,
    CacheEntry.decode? content = some entry → W.Faithful path entry

theorem SoundEntries.mono {kept kept' : Set (Path × List UInt8)} (h : W.SoundEntries kept)
    (hsub : kept' ⊆ kept) : W.SoundEntries kept' :=
  fun path hpath content hmem => h path hpath content (hsub hmem)

structure SoundDisk (W : Workspace) (files : FileSystem) : Prop where
  links : W.KeepsLinksApart files
  entries : W.SoundEntries (W.entries files)

/-- All entries tell the truth, and the cache uses no other directory than it should. -/
structure Sound (W : Workspace) (s : Session) : Prop where
  disk : W.SoundDisk s.files
  backing : ∀ cache dir, s.cache = some cache → cache.dir = some dir → W.config.cache = .disk dir
  memory : ∀ cache, s.cache = some cache → ∀ path ∈ W.paths, ∀ entry,
    cache.memory[path.components]? = some entry → W.Faithful path entry

theorem faithful_entryFor {syntaxOf : FileSyntax} (htext : text ∈ W.texts)
    (hs : Source.fileSyntax W.grammar path text = .ok syntaxOf) :
    W.Faithful path (entryFor (Digest.content text) syntaxOf) := by
  intro other hother hcurrent
  rw [isCurrent_entryFor, beq_iff_eq] at hcurrent
  obtain rfl := W.injective htext hother hcurrent
  exact hs

theorem Faithful.congr {other : Path} (h : W.Faithful path entry)
    (hc : path.components = other.components) : W.Faithful other entry :=
  fun text htext hcurrent => Source.fileSyntax_congr hc (h text htext hcurrent)

theorem SoundDisk.load? (h : W.SoundDisk files) (hdisk : W.config.cache = .disk dir)
    (hpath : path ∈ W.paths) (hload : (blank (some dir)).load? files path = some entry) :
    W.Faithful path entry := by
  obtain ⟨content, hread, hdecode⟩ := (load?_eq_some rfl).1 hload
  exact h.entries path hpath content ⟨dir, hdisk, hread⟩ entry hdecode

/-- A directory is sound if whatever is loaded from it tells the truth. -/
theorem soundDisk_of_load? (hlinks : W.KeepsLinksApart files)
    (hload : ∀ dir, W.config.cache = .disk dir → ∀ path ∈ W.paths, ∀ entry,
      (blank (some dir)).load? files path = some entry → W.Faithful path entry) :
    W.SoundDisk files where
  links := hlinks
  entries path hpath content hkept entry hdecode := by
    obtain ⟨dir, hdisk, hread⟩ := hkept
    exact hload dir hdisk path hpath entry ((load?_eq_some rfl).2 ⟨content, hread, hdecode⟩)

/-- Whatever a look-up can find tells the truth. -/
theorem faithful_held (h : W.Sound s) (hcache : s.cache = some cache) (hpath : path ∈ W.paths)
    (hheld : cache.held s.files path = some entry) : W.Faithful path entry := by
  unfold held at hheld
  cases hmem : cache.memory[path.components]? with
  | some remembered =>
    rw [hmem, Option.some_or] at hheld
    cases hheld
    exact h.memory cache hcache path hpath entry hmem
  | none =>
    rw [hmem, Option.none_or] at hheld
    cases hdir : cache.dir with
    | none => simp [load?, hdir] at hheld
    | some dir =>
      rw [load?_backed hdir] at hheld
      exact h.disk.load? (h.backing cache dir hcache hdir) hpath hheld

theorem sound_remember (h : W.Sound s) (hcache : s.cache = some cache)
    (hentry : W.Faithful path entry) : W.Sound { s with cache := some (cache.remember path entry) } where
  disk := h.disk
  backing cache' dir hcache' hdir := by
    cases hcache'
    exact h.backing cache dir hcache hdir
  memory cache' hcache' other hother entry' hmem := by
    cases hcache'
    rw [getElem?_remember] at hmem
    split at hmem
    · rename_i hc
      cases hmem
      exact hentry.congr hc
    · exact h.memory cache hcache other hother entry' hmem

theorem fileSyntax_of_lookup (h : W.Sound s) (hpath : path ∈ W.paths) (htext : text ∈ W.texts)
    {found : FileSyntax} (hfound : (s.lookup path text).1 = some found) :
    Source.fileSyntax W.grammar path text = .ok found := by
  unfold Session.lookup at hfound
  cases hcache : s.cache with
  | none =>
    rw [hcache] at hfound
    cases hfound
  | some cache =>
    simp only [hcache, get_fst] at hfound
    obtain ⟨entry, hentry, rfl⟩ := Option.map_eq_some_iff.1 hfound
    obtain ⟨hheld, hcurrent⟩ := Option.filter_eq_some_iff.1 hentry
    exact faithful_held h hcache hpath hheld text htext hcurrent

theorem sound_lookup (h : W.Sound s) (hpath : path ∈ W.paths) (text : String) :
    W.Sound (s.lookup path text).2 := by
  unfold Session.lookup
  cases hcache : s.cache with
  | none => exact h
  | some cache =>
    simp only
    rcases cache.get_snd s.files path (Digest.content text) with heq | ⟨entry, hmem, hload, heq⟩
    · rw [heq, ← hcache]
      exact h
    · rw [heq]
      refine sound_remember h hcache (faithful_held h hcache hpath ?_)
      rw [held, hmem, Option.none_or, hload]

/-- Writing a true entry keeps the directory true and the sources as they were. -/
theorem soundDisk_write (h : W.SoundDisk files) (hdisk : W.config.cache = .disk dir)
    (hpath : path ∈ W.paths) (hfits : entry.syntaxOf.Fits) (hentry : W.Faithful path entry)
    (hwrite : files.write (filePath dir path) entry.encode = .ok files') :
    W.SoundDisk files' ∧ SameSources files files' := by
  have hu := (h.links dir hdisk).unlinked
  obtain ⟨hlinks, hsame⟩ := sameSources_write (h.links dir hdisk) hpath hwrite
  have hown : ∀ dir', W.config.cache = .disk dir' → dir' = dir := by
    intro dir' hdisk'
    rw [hdisk] at hdisk'
    cases hdisk'
    rfl
  refine ⟨soundDisk_of_load? (fun dir' hdisk' => hown dir' hdisk' ▸ hlinks) ?_, hsame⟩
  intro dir' hdisk' other hother entry' hentry'
  obtain rfl := hown dir' hdisk'
  by_cases hname : fileName other = fileName path
  · rw [load?_write_self rfl hu hfits hwrite hname] at hentry'
    cases hentry'
    exact hentry.congr (W.distinct path hpath other hother hname.symm)
  · rw [load?_write_other rfl hu hwrite hname] at hentry'
    exact h.load? hdisk hother hentry'

theorem sound_makeRoom (h : W.Sound s) (hcache : s.cache = some cache) (path : Path) :
    W.Sound { s with cache := some (cache.makeRoom path) } where
  disk := h.disk
  backing cache' dir hcache' hdir := by
    cases hcache'
    exact h.backing cache dir hcache (by rwa [dir_makeRoom] at hdir)
  memory cache' hcache' other hother entry hmem := by
    cases hcache'
    exact h.memory cache hcache other hother entry (getElem?_makeRoom hmem)

/-- Keeping what was parsed keeps all entries true, whether or not it can be written. -/
theorem sound_keep (h : W.Sound s) (hpath : path ∈ W.paths) (htext : text ∈ W.texts)
    {parsed : FileSyntax} (hs : Source.fileSyntax W.grammar path text = .ok parsed) :
    W.Sound (s.keep path text parsed) ∧ SameSources s.files (s.keep path text parsed).files := by
  unfold Session.keep
  cases hcache : s.cache with
  | none => exact ⟨h, .refl _⟩
  | some cache =>
    have hentry : W.Faithful path (entryFor (Digest.content text) parsed) := faithful_entryFor htext hs
    have hroom := sound_makeRoom h hcache path
    rcases store_cases cache s.files path (Digest.content text) parsed with
      ⟨files, hw, hstore⟩ | ⟨e, _, hstore⟩
    · simp only [hstore]
      have hdisk : W.SoundDisk files ∧ SameSources s.files files := by
        rcases hw.cases with ⟨_, rfl⟩ | ⟨dir, hdir, hwrite⟩
        · exact ⟨h.disk, .refl _⟩
        · exact soundDisk_write h.disk (h.backing cache dir hcache hdir) hpath
            (W.fits path hpath text htext parsed hs) hentry hwrite
      have hremember := sound_remember hroom rfl hentry
      exact ⟨⟨hdisk.1, hremember.backing, hremember.memory⟩, hdisk.2⟩
    · simp only [hstore]
      exact ⟨hroom, .refl _⟩

/-- The syntax of a text is what parsing gives, wherever it comes from. -/
theorem syntaxOfText_sound (h : W.Sound s) (hpath : path ∈ W.paths) (htext : text ∈ W.texts) :
    (s.syntaxOfText W.grammar path text).1 = Source.fileSyntax W.grammar path text ∧
      W.Sound (s.syntaxOfText W.grammar path text).2 ∧
      SameSources s.files (s.syntaxOfText W.grammar path text).2.files := by
  have hlookup := sound_lookup h hpath text
  have hfiles := s.files_lookup path text
  have hfound : ∀ found, (s.lookup path text).1 = some found → _ :=
    fun _ => fileSyntax_of_lookup h hpath htext
  unfold Session.syntaxOfText
  generalize s.lookup path text = looked at hlookup hfiles hfound ⊢
  obtain ⟨found, looked⟩ := looked
  rw [← hfiles]
  cases found with
  | some found => exact ⟨(hfound found rfl).symm, hlookup, .refl _⟩
  | none =>
    cases hs : Source.fileSyntax W.grammar path text with
    | error e => exact ⟨rfl, hlookup, .refl _⟩
    | ok parsed =>
      obtain ⟨hkeep, hsame⟩ := sound_keep hlookup hpath htext hs
      dsimp only
      exact ⟨rfl, hkeep, hsame⟩

/-- The edges of a file are those of its text, wherever its syntax comes from. -/
theorem file_sound (h : W.Sound s) (hsame : SameSources files s.files) (hpath : path ∈ W.paths)
    (hnamed : SourceNamed path) (hread : ∀ text, Source.read files path = .ok text → text ∈ W.texts)
    (policy : ResolutionPolicy) :
    (file W.grammar policy s path).1 = freshEdges W.grammar policy files path ∧
      W.Sound (file W.grammar policy s path).2 ∧
      SameSources files (file W.grammar policy s path).2.files := by
  have hsource : ∀ text, Source.read s.files path = .ok text ↔ Source.read files path = .ok text :=
    fun _ => sourceRead_same hsame hnamed
  unfold file freshEdges Session.syntaxOfFile
  cases hfresh : Source.read files path with
  | error e =>
    cases hr : Source.read s.files path with
    | error e => exact ⟨rfl, h, hsame⟩
    | ok text =>
      rw [(hsource text).1 hr] at hfresh
      cases hfresh
  | ok text =>
    rw [(hsource text).2 hfresh]
    obtain ⟨hresult, hsound, hkept⟩ := syntaxOfText_sound h hpath (hread text hfresh)
    have hafter := hsame.trans hkept
    simp only [Except.bind, ← hresult]
    generalize s.syntaxOfText W.grammar path text = result at hsound hafter ⊢
    obtain ⟨outcome, s'⟩ := result
    cases outcome with
    | error e => exact ⟨rfl, hsound, hafter⟩
    | ok syntaxOf => exact ⟨edgesOfSyntax_same hafter syntaxOf, hsound, hafter⟩

theorem fileList_sound {paths : List Path} (policy : ResolutionPolicy) (h : W.Sound s)
    (hsame : SameSources files s.files)
    (hpaths : ∀ path ∈ paths, path ∈ W.paths ∧ SourceNamed path ∧
      ∀ text, Source.read files path = .ok text → text ∈ W.texts) :
    (fileList W.grammar policy s paths).1 = paths.flatMap (freshEdges W.grammar policy files) ∧
      W.Sound (fileList W.grammar policy s paths).2 := by
  induction paths generalizing s with
  | nil => exact ⟨rfl, h⟩
  | cons path paths ih =>
    obtain ⟨hpath, hnamed, hread⟩ := hpaths path List.mem_cons_self
    obtain ⟨hedges, hsound, hafter⟩ := file_sound h hsame hpath hnamed hread policy
    obtain ⟨hmore, hend⟩ := ih hsound hafter fun p hp => hpaths p (List.mem_cons_of_mem path hp)
    unfold fileList
    simp only [hmore, hedges, List.flatMap_cons]
    exact ⟨trivial, hend⟩

theorem analyze_sound (h : W.Sound s) (hadmits : W.Admits s.files roots) :
    (analyze W.grammar W.config s roots).1 = (analyze W.grammar W.config ⟨s.files, none⟩ roots).1 ∧
      W.Sound (analyze W.grammar W.config s roots).2 := by
  have hpaths : ∀ path ∈ (Scan.roots s.files W.config roots).map (·.path), path ∈ W.paths ∧
      SourceNamed path ∧ ∀ text, Source.read s.files path = .ok text → text ∈ W.texts := by
    intro path hpath
    obtain ⟨found, hfound, rfl⟩ := List.mem_map.1 hpath
    obtain ⟨hp, hread⟩ := hadmits found hfound
    exact ⟨hp, sourceNamed_of_language (Scan.language_of_mem_roots hfound), hread⟩
  obtain ⟨hedges, hsound⟩ := fileList_sound W.config.resolution h (.refl _) hpaths
  rw [analyze_uncached]
  unfold analyze
  simp only [hedges]
  exact ⟨trivial, hsound⟩

/-- A cache that was just opened remembers nothing. -/
theorem sound_start {evict : Eviction} (h : W.SoundDisk (Session.start files W.config evict).files) :
    W.Sound (Session.start files W.config evict) := by
  have hopened : ∀ cache, (Session.start files W.config evict).cache = some cache →
      cache.memory = ∅ ∧ ∀ dir, cache.dir = some dir → W.config.cache = .disk dir := by
    intro cache hcache
    unfold Session.start SyntaxCache.ofMode at hcache
    cases hmode : W.config.cache with
    | off =>
      rw [hmode] at hcache
      cases hcache
    | memory =>
      rw [hmode] at hcache
      cases hcache
      exact ⟨rfl, fun _ hdir => by cases hdir⟩
    | disk dir =>
      rw [hmode] at hcache
      simp only [onDisk] at hcache
      cases hmake : files.makeDirs dir <;> rw [hmake] at hcache <;> cases hcache
      · exact ⟨rfl, fun _ hdir => by cases hdir⟩
      · exact ⟨rfl, fun _ hdir => by cases hdir; rfl⟩
  refine ⟨h, fun cache dir hcache => (hopened cache hcache).2 dir, ?_⟩
  intro cache hcache path _ entry hmem
  rw [(hopened cache hcache).1] at hmem
  simp at hmem

theorem files_start (hdisk : W.config.cache = .disk dir) (files : FileSystem) (evict : Eviction) :
    (Session.start files W.config evict).files = files ∨
      files.makeDirs dir = .ok (Session.start files W.config evict).files := by
  unfold Session.start SyntaxCache.ofMode
  rw [hdisk]
  simp only [onDisk]
  cases files.makeDirs dir with
  | error e => exact .inl rfl
  | ok made => exact .inr rfl

/-- Opening a directory that is there, or has a straight path, adds no entry. -/
theorem entries_start {evict : Eviction}
    (hlinks : W.KeepsLinksApart (Session.start files W.config evict).files)
    (hdirect : ∀ dir, W.config.cache = .disk dir → files.enter? dir = none → dir.Direct) :
    W.entries (Session.start files W.config evict).files ⊆ W.entries files := by
  rintro ⟨path, content⟩ ⟨dir, hdisk, hread⟩
  refine ⟨dir, hdisk, ?_⟩
  rcases files_start hdisk files evict with hsame | hmake
  · rw [hsame] at hread
    exact hread
  · cases he : files.enter? dir with
    | some there =>
      rw [FileSystem.makeDirs_of_enter? he hmake] at hread
      exact hread
    | none =>
      rcases FileSystem.enter?_makeDirs (hdirect dir hdisk he) hmake with ⟨hsame, _⟩ | ⟨_, place, hnew⟩
      · rw [hsame] at hread
        exact hread
      · obtain ⟨names, hlocate⟩ := FileSystem.read_eq_ok.1 hread
        rw [locate_of_enter? (hlinks dir hdisk).unlinked hnew] at hlocate
        cases hlocate

/-- In every session of a run, all entries tell the truth, and so do all that were ever kept. -/
theorem sound_of_reached {kept : Set (Path × List UInt8)} (h : W.Reached s kept) :
    W.Sound s ∧ W.SoundEntries kept := by
  induction h with
  | start files evict hlinks hempty =>
    have hnone : W.SoundEntries ∅ := fun _ _ _ hkept => absurd hkept (Set.notMem_empty _)
    exact ⟨sound_start ⟨hlinks, hempty ▸ hnone⟩, hnone⟩
  | edit s kept files _ hlinks hentries ih =>
    obtain ⟨hsound, hkept⟩ := ih
    exact ⟨⟨⟨hlinks, hkept.mono hentries⟩, hsound.backing, hsound.memory⟩, hkept⟩
  | build s kept roots _ hadmits ih =>
    obtain ⟨hsound, hkept⟩ := ih
    have hafter := (analyze_sound hsound hadmits).2
    refine ⟨hafter, fun path hpath content hmem => ?_⟩
    rcases hmem with hmem | hmem
    · exact hkept path hpath content hmem
    · exact hafter.disk.entries path hpath content hmem
  | reopen s kept evict _ hlinks hentries ih =>
    obtain ⟨hsound, hkept⟩ := ih
    refine ⟨sound_start ⟨hlinks, ?_⟩, hkept⟩
    by_cases hdirect : ∀ dir, W.config.cache = .disk dir → s.files.enter? dir = none → dir.Direct
    · exact hsound.disk.entries.mono (entries_start hlinks hdirect)
    · simp only [not_forall] at hdirect
      obtain ⟨dir, hdisk, habsent, hnot⟩ := hdirect
      exact hkept.mono (hentries dir hdisk habsent hnot)

section OneCaller

variable {entries : List (String × FileNode)} {content content' : List UInt8}

end OneCaller

end Workspace

end Dependents
