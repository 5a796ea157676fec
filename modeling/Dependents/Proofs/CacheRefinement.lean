import Dependents.Proofs.CacheLayers
import Mathlib.Logic.Relation

/-! A cache answers like one map from places to the last thing stored there. The directory holds
exactly what was last stored, and memory holds nothing else. -/
namespace Dependents

/-- What happened to a cache as far as later answers depend on it. -/
inductive CacheEvent where
  | stored (path : Path) (contentHash : UInt64) (syntaxOf : FileSyntax)
  | cleared

/-- A cache with the files it lives in and what has happened to it, the latest first. -/
structure CacheRun where
  cache : SyntaxCache
  files : FileSystem
  past : List CacheEvent

namespace CacheRun

open SyntaxCache

/-- What was last stored at a place since everything was last cleared. -/
def lastStored (path : Path) : List CacheEvent → Option (UInt64 × FileSyntax)
  | [] => none
  | .stored q contentHash syntaxOf :: past =>
    if q.same path then some (contentHash, syntaxOf) else lastStored path past
  | .cleared :: _ => none

/-- The places of some paths, however they are spelled. -/
def Among (paths : List Path) (path : Path) : Prop :=
  ∃ p ∈ paths, p.same path = true

/-- A cache opened on a directory. -/
def openOn (files : FileSystem) (dir : Path) (evict : Eviction) (past : List CacheEvent) : CacheRun :=
  ⟨(onDisk files dir evict).1, (onDisk files dir evict).2, past⟩

/-- Stores, and takes note of it if that succeeds. -/
def store (r : CacheRun) (path : Path) (contentHash : UInt64) (syntaxOf : FileSyntax) : CacheRun :=
  match r.cache.store r.files path contentHash syntaxOf with
  | (.ok (), cache, files) => ⟨cache, files, .stored path contentHash syntaxOf :: r.past⟩
  | (.error _, cache, files) => ⟨cache, files, r.past⟩

/-- Clears the cache, and takes note of it. -/
def clear (r : CacheRun) : CacheRun :=
  ⟨(r.cache.clear r.files).2.1, (r.cache.clear r.files).2.2, .cleared :: r.past⟩

/-- A cache just opened, in memory only or on an empty directory. -/
inductive Opened : CacheRun → Prop
  | inMemory (files : FileSystem) (evict : Eviction) : Opened ⟨.inMemory evict, files, []⟩
  | onDisk (files : FileSystem) (dir : Path) (evict : Eviction)
      (hempty : (openOn files dir evict []).files.list dir = .ok []) : Opened (openOn files dir evict [])

/-- One operation. A store may be refused for reasons outside the files it would change: it then
behaves as on other files that refuse it, and leaves these as they were. Where clearing replaces a link
on a path through `..`, the path may be led elsewhere, and then to an empty directory. -/
inductive Step (paths : List Path) : CacheRun → CacheRun → Prop
  | store (r : CacheRun) (path : Path) (contentHash : UInt64) (syntaxOf : FileSyntax)
      (hpath : Among paths path) (hfits : syntaxOf.Fits) :
      Step paths r (r.store path contentHash syntaxOf)
  | refused (r : CacheRun) (path : Path) (contentHash : UInt64) (syntaxOf : FileSyntax)
      (refusing : FileSystem) (e : AnalysisError) (hpath : Among paths path)
      (herror : (r.cache.store refusing path contentHash syntaxOf).1 = .error e) :
      Step paths r { r with cache := (r.cache.store refusing path contentHash syntaxOf).2.1 }
  | get (r : CacheRun) (path : Path) (contentHash : UInt64) (hpath : Among paths path) :
      Step paths r { r with cache := (r.cache.get r.files path contentHash).2 }
  | clear (r : CacheRun)
      (hled : ∀ dir, r.cache.dir = some dir → ¬ r.files.Firm dir → r.clear.files.Bare dir) :
      Step paths r r.clear
  | reopen (r : CacheRun) (dir : Path) (evict : Eviction) (hdir : r.cache.dir = some dir) :
      Step paths r (openOn r.files dir evict r.past)

/-- The entry that should be found for a path. -/
def expected (path : Path) (past : List CacheEvent) : Option CacheEntry :=
  (lastStored path past).map fun last => entryFor last.1 last.2

/-- The layers agree with what was stored. -/
structure Coupled (paths : List Path) (r : CacheRun) : Prop where
  covered : Covered paths r.cache
  held : ∀ path, Among paths path → r.cache.held r.files path = expected path r.past
  onDisk : ∀ dir, r.cache.dir = some dir → (r.files.Steady dir ∨ r.files.Lost dir) ∧
    ∀ path, Among paths path → r.cache.load? r.files path = expected path r.past

theorem Among.components {paths : List Path} {path : Path} (h : Among paths path) :
    ∃ p ∈ paths, p.components = path.components := by
  obtain ⟨p, hp, hsame⟩ := h
  exact ⟨p, hp, beq_iff_eq.1 hsame⟩

variable {paths : List Path} {r r' : CacheRun} {path other dir : Path} {files : FileSystem}
  {past : List CacheEvent} {evict : Eviction}

theorem lastStored_congr (h : path.components = other.components) (past : List CacheEvent) :
    lastStored path past = lastStored other past := by
  induction past with
  | nil => rfl
  | cons event past ih =>
    cases event with
    | stored q contentHash syntaxOf =>
      have hsame : q.same path = q.same other := by rw [Path.same, Path.same, h]
      simp only [lastStored, hsame, ih]
    | cleared => rfl

theorem expected_congr (h : path.components = other.components) (past : List CacheEvent) :
    expected path past = expected other past := by
  rw [expected, expected, lastStored_congr h]

theorem expected_stored (path other : Path) (contentHash : UInt64) (syntaxOf : FileSyntax)
    (past : List CacheEvent) : expected other (.stored path contentHash syntaxOf :: past) =
      if path.components = other.components then some (entryFor contentHash syntaxOf)
      else expected other past := by
  by_cases h : path.components = other.components <;> simp [expected, lastStored, Path.same, h]

/-- A cache that remembers nothing is coupled if its directory is. -/
theorem coupled_of_forgetting (hs : files.Steady dir ∨ files.Lost dir)
    (hload : ∀ path, Among paths path → (blank (some dir)).load? files path = expected path past) :
    Coupled paths ⟨blank (some dir) evict, files, past⟩ where
  covered := covered_blank paths _ _
  held path hpath := by
    rw [SyntaxCache.held, load?_backed rfl, hload path hpath, blank, Std.HashMap.getElem?_empty,
      Option.none_or]
  onDisk dir' hdir' := by
    cases hdir'
    exact ⟨hs, hload⟩

/-- A cache without a directory that remembers nothing has nothing stored. -/
theorem coupled_inMemory (hpast : ∀ path, Among paths path → expected path past = none) :
    Coupled paths ⟨.inMemory evict, files, past⟩ where
  covered := covered_blank paths _ _
  held path hpath := by
    rw [hpast path hpath, SyntaxCache.held, SyntaxCache.inMemory, blank, Std.HashMap.getElem?_empty]
    rfl
  onDisk _ hdir := by cases hdir

/-- So it is if the directory is empty and nothing is stored. -/
theorem coupled_of_emptied {place : List String} (hs : files.Steady dir)
    (he : files.enter? dir = some (place, [])) (hpast : ∀ path, expected path past = none) :
    Coupled paths ⟨blank (some dir) evict, files, past⟩ := by
  refine coupled_of_forgetting (.inl hs) fun path _ => ?_
  rw [hpast path, load?_of_enter?_nil rfl (unlinked_of_enter?_nil he) he path]

theorem coupled_of_opened (h : Opened r) : Coupled paths r := by
  cases h with
  | inMemory files => exact coupled_inMemory fun _ _ => rfl
  | onDisk files dir evict hempty =>
    obtain ⟨htext, place, entries, he, hnames⟩ := FileSystem.list_eq_ok.1 hempty
    obtain rfl := List.map_eq_nil_iff.1 hnames
    unfold openOn SyntaxCache.onDisk at he ⊢
    cases hmake : files.makeDirs dir with
    | error e => exact coupled_inMemory fun _ _ => rfl
    | ok files' =>
      rw [hmake] at he
      have hsteady : files'.Steady dir :=
        ⟨htext, FileSystem.made_makeDirs hmake, place, [], he, FileNode.plain_nil⟩
      exact coupled_of_emptied hsteady he fun _ => rfl

/-- The directory of a coupled cache holds no links. -/
theorem Coupled.unlinked (h : Coupled paths r) (hdir : r.cache.dir = some dir) :
    Unlinked r.files dir := by
  rcases (h.onDisk dir hdir).1 with hs | hlost
  · exact unlinked_of_steady hs
  · exact unlinked_of_enter?_none hlost.absent.enter?_eq

/-- Looking up changes no answer: what is remembered is what the directory holds. -/
theorem coupled_get (h : Coupled paths r) (hpath : Among paths path) (contentHash : UInt64) :
    Coupled paths { r with cache := (r.cache.get r.files path contentHash).2 } := by
  rcases r.cache.get_snd r.files path contentHash with heq | ⟨entry, _, hload, heq⟩
  · rw [heq]
    exact h
  · rw [heq]
    have hentry : expected path r.past = some entry := by
      cases hdir : r.cache.dir with
      | none => simp [load?, hdir] at hload
      | some dir => rw [← (h.onDisk dir hdir).2 path hpath, hload]
    refine ⟨covered_remember h.covered hpath.components _, fun other hother => ?_, fun dir hdir => ?_⟩
    · have hheld := h.held other hother
      simp only [SyntaxCache.held] at hheld ⊢
      rw [getElem?_remember, load?_remember]
      split
      · rename_i hcomp
        rw [← expected_congr hcomp, hentry, Option.some_or]
      · exact hheld
    · exact h.onDisk dir hdir

section Distinct

variable (hlen : paths.length ≤ capacity)
  (hfiles : ∀ p ∈ paths, ∀ q ∈ paths, fileName p = fileName q → p.same q = true)

include hlen in
theorem hasRoom_of_among (h : Coupled paths r) (hpath : Among paths path) : r.cache.HasRoom path := by
  obtain ⟨p, hp, hsame⟩ := hpath.components
  have hroom := hasRoom_of_covered hlen h.covered hp
  rwa [HasRoom, hsame] at hroom

include hfiles in
theorem fileName_ne (hpath : Among paths path) (hother : Among paths other)
    (hne : path.components ≠ other.components) : fileName other ≠ fileName path := by
  obtain ⟨p, hp, hpath⟩ := hpath.components
  obtain ⟨q, hq, hother⟩ := hother.components
  intro hname
  have hpq : p.same q = true := by
    apply hfiles p hp q hq
    rw [fileName_congr hpath, fileName_congr hother, hname]
  exact hne (hpath.symm.trans ((beq_iff_eq.1 hpq).trans hother))

include hfiles in
theorem coupled_store (h : Coupled paths r) (hpath : Among paths path) (contentHash : UInt64)
    {syntaxOf : FileSyntax} (hfits : syntaxOf.Fits)
    (hwritten : r.cache.Written r.files path (entryFor contentHash syntaxOf) files) :
    Coupled paths ⟨r.cache.remember path (entryFor contentHash syntaxOf), files,
      .stored path contentHash syntaxOf :: r.past⟩ := by
  have hwrite : ∀ dir, r.cache.dir = some dir →
      r.files.write (filePath dir path) (entryFor contentHash syntaxOf).encode = .ok files := by
    intro dir hdir
    simpa only [Written, hdir] using hwritten
  have hother : ∀ other, Among paths other → path.components ≠ other.components →
      r.cache.load? files other = r.cache.load? r.files other := by
    intro other hother hne
    cases hdir : r.cache.dir with
    | none => simp [load?, hdir]
    | some dir =>
      exact load?_write_other hdir (h.unlinked hdir) (hwrite dir hdir)
        (fileName_ne hfiles hpath hother hne)
  refine ⟨covered_remember h.covered hpath.components _, fun other hamong => ?_, fun dir hdir => ?_⟩
  · simp only [SyntaxCache.held, getElem?_remember, load?_remember, expected_stored]
    split
    · rw [Option.some_or]
    · rename_i hne
      rw [hother other hamong hne]
      exact h.held other hamong
  · obtain ⟨hs, hload⟩ := h.onDisk dir hdir
    have hu := h.unlinked hdir
    have hs' : files.Steady dir := by
      rcases hs with hs | hlost
      · exact steady_write hs (hwrite dir hdir)
      · obtain ⟨_, _, he, _⟩ := write_eq_ok hu (hwrite dir hdir)
        rw [hlost.absent.enter?_eq] at he
        cases he
    refine ⟨.inl hs', fun other hamong => ?_⟩
    rw [load?_remember, expected_stored]
    split
    · rename_i heq
      exact load?_write_self hdir hu hfits (hwrite dir hdir) (fileName_congr heq.symm)
    · rename_i hne
      rw [hother other hamong hne]
      exact hload other hamong

end Distinct

/-- A cache whose directory is lost is coupled if nothing is stored. -/
theorem coupled_of_lost (hl : files.Lost dir) (hpast : ∀ path, expected path past = none) :
    Coupled paths ⟨blank (some dir) evict, files, past⟩ := by
  refine coupled_of_forgetting (.inr hl) fun path _ => ?_
  rw [hpast path, load?_of_enter?_none rfl hl.absent.enter?_eq path]

theorem coupled_clear (h : Coupled paths r)
    (hled : ∀ dir, r.cache.dir = some dir → ¬ r.files.Firm dir → r.clear.files.Bare dir) :
    Coupled paths r.clear := by
  have hpast : ∀ path, expected path (.cleared :: r.past) = none := fun _ => rfl
  rw [clear, clear_cache]
  cases hdir : r.cache.dir with
  | none => exact coupled_inMemory fun path _ => hpast path
  | some dir =>
    rcases clear_files hdir (h.onDisk dir hdir).1 (hled dir hdir) with ⟨hs, place, he⟩ | hl
    · exact coupled_of_emptied hs he hpast
    · exact coupled_of_lost hl hpast

/-- A directory that is opened again holds what it held. One that was lost held nothing. -/
theorem coupled_reopen (h : Coupled paths r) (hdir : r.cache.dir = some dir) :
    Coupled paths (openOn r.files dir evict r.past) := by
  obtain ⟨hs, hload⟩ := h.onDisk dir hdir
  unfold openOn
  rcases hs with hs | hl
  · rw [onDisk_of_made hs.made]
    refine coupled_of_forgetting (.inl hs) fun path hpath => ?_
    rw [← hload path hpath, load?_backed hdir]
  · rw [onDisk_of_lost hl]
    refine coupled_inMemory fun path hpath => ?_
    rw [← hload path hpath, load?_of_enter?_none hdir hl.absent.enter?_eq]

/-- Every operation keeps the layers coupled. -/
theorem coupled_step (hlen : paths.length ≤ capacity)
    (hfiles : ∀ p ∈ paths, ∀ q ∈ paths, fileName p = fileName q → p.same q = true)
    (h : Coupled paths r) (hstep : Step paths r r') : Coupled paths r' := by
  cases hstep with
  | store path contentHash syntaxOf hpath hfits =>
    have hroom := makeRoom_of_hasRoom (hasRoom_of_among hlen h hpath)
    rcases store_cases r.cache r.files path contentHash syntaxOf with ⟨files, hw, hs⟩ | ⟨e, _, hs⟩
    · rw [CacheRun.store, hs, hroom]
      exact coupled_store hfiles h hpath contentHash hfits hw
    · rw [CacheRun.store, hs, hroom]
      exact h
  | refused path contentHash syntaxOf refusing e hpath herror =>
    have hroom := makeRoom_of_hasRoom (hasRoom_of_among hlen h hpath)
    rcases store_cases r.cache refusing path contentHash syntaxOf with ⟨files, _, hs⟩ | ⟨e', _, hs⟩
    · rw [hs] at herror
      cases herror
    · rw [hs, hroom]
      exact h
  | get path contentHash hpath => exact coupled_get h hpath contentHash
  | clear hled => exact coupled_clear h hled
  | reopen dir evict hdir => exact coupled_reopen h hdir

theorem coupled_of_run (hlen : paths.length ≤ capacity)
    (hfiles : ∀ p ∈ paths, ∀ q ∈ paths, fileName p = fileName q → p.same q = true)
    (hopened : Opened r) (hrun : Relation.ReflTransGen (Step paths) r r') : Coupled paths r' := by
  induction hrun with
  | refl => exact coupled_of_opened hopened
  | tail _ hstep ih => exact coupled_step hlen hfiles ih hstep

/-- After any run on at most so many places, no two of which share an entry file, a look-up finds
exactly what was last stored for the place, if it was stored for the same text. -/
theorem get_eq_lastStored {paths : List Path} (hlen : paths.length ≤ capacity)
    (hfiles : ∀ p ∈ paths, ∀ q ∈ paths, fileName p = fileName q → p.same q = true)
    {start r : CacheRun} (hopened : Opened start)
    (hrun : Relation.ReflTransGen (Step paths) start r) {path : Path} (hpath : Among paths path)
    (contentHash : UInt64) (syntaxOf : FileSyntax) :
    (r.cache.get r.files path contentHash).1 = some syntaxOf ↔
      lastStored path r.past = some (contentHash, syntaxOf) := by
  have h := coupled_of_run hlen hfiles hopened hrun
  rw [get_fst, h.held path hpath, expected]
  cases lastStored path r.past with
  | none => simp
  | some last =>
    obtain ⟨storedHash, stored⟩ := last
    by_cases heq : storedHash = contentHash <;> simp [Option.filter, heq]

/-- What was stored on disk is found by a cache that is opened there anew, and no more once that one is
cleared. -/
theorem get_eq_lastStored_reopened :
    let kept := (openOn bareDirectory ⟨"/c"⟩ firstKey []).store ⟨"/a.ts"⟩ 7 ⟨[], []⟩
    let r := openOn kept.files ⟨"/c"⟩ firstKey kept.past
    (r.cache.get r.files ⟨"/a.ts"⟩ 7).1 = some ⟨[], []⟩ ∧
      (r.clear.cache.get r.clear.files ⟨"/a.ts"⟩ 7).1 ≠ some ⟨[], []⟩ := by
  intro kept r
  have hopen : openOn bareDirectory ⟨"/c"⟩ firstKey [] = ⟨blank (some ⟨"/c"⟩), bareDirectory, []⟩ := by
    rw [openOn, onDisk_of_made made_bare]
  have hkept : kept.cache.dir = some ⟨"/c"⟩ ∧ kept.past = [.stored ⟨"/a.ts"⟩ 7 ⟨[], []⟩] := by
    simp only [kept, hopen, CacheRun.store, store_bare, and_true]
    rfl
  have hopened : Opened (openOn bareDirectory ⟨"/c"⟩ firstKey []) := by
    refine .onDisk _ _ _ ?_
    rw [hopen]
    exact FileSystem.list_eq_ok.2 ⟨by decide, _, [], enter?_bare, rfl⟩
  have hpath : Among [⟨"/a.ts"⟩, ⟨"/b.ts"⟩] ⟨"/a.ts"⟩ := ⟨⟨"/a.ts"⟩, by simp, by decide⟩
  have hfits : FileSyntax.Fits ⟨[], []⟩ := by decide
  have hfiles : ∀ p ∈ [(⟨"/a.ts"⟩ : Path), ⟨"/b.ts"⟩], ∀ q ∈ [(⟨"/a.ts"⟩ : Path), ⟨"/b.ts"⟩],
      fileName p = fileName q → p.same q = true := by
    decide +kernel
  have hrun : Relation.ReflTransGen (Step [⟨"/a.ts"⟩, ⟨"/b.ts"⟩])
      (openOn bareDirectory ⟨"/c"⟩ firstKey []) r :=
    .tail (.single (.store _ _ _ _ hpath hfits)) (.reopen kept _ _ hkept.1)
  have hdirect : Path.Direct ⟨"/c"⟩ := ⟨[.root], [], "c", by decide, by simp⟩
  have hclear : Step [⟨"/a.ts"⟩, ⟨"/b.ts"⟩] r r.clear := by
    refine .clear r fun dir hdir hfirm => absurd (.inl ?_) hfirm
    rw [dir_onDisk hdir]
    exact hdirect
  constructor
  · refine (get_eq_lastStored (by decide) hfiles hopened hrun hpath 7 _).2 ?_
    rw [show r.past = kept.past from rfl, hkept.2]
    decide
  · rw [ne_eq, get_eq_lastStored (by decide) hfiles hopened (hrun.tail hclear) hpath]
    exact Option.some_ne_none _ ∘ Eq.symm

end CacheRun

end Dependents
