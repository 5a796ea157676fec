import Dependents.Proofs.CacheSlots

/-! Syntax that a build uses. It was parsed in this build or found in the cache, so what holds of all
parsed syntax holds of all that is used, if it held of what the cache had at the start. -/
namespace Dependents

namespace SyntaxCache

variable {P : FileSyntax → Prop} {cache : SyntaxCache} {files files' : FileSystem} {path : Path}
  {contentHash : UInt64} {syntaxOf : FileSyntax} {entry : CacheEntry}

/-- All syntax that a cache can find has a property. -/
structure Holds (P : FileSyntax → Prop) (files : FileSystem) (cache : SyntaxCache) : Prop where
  memory : ∀ (path : Path) (entry : CacheEntry), cache.memory[path.components]? = some entry →
    P entry.syntaxOf
  disk : ∀ path entry, cache.load? files path = some entry → P entry.syntaxOf

theorem Holds.remember (h : Holds P files cache) (hentry : P entry.syntaxOf) (path : Path) :
    Holds P files (cache.remember path entry) where
  memory other found hmem := by
    rw [getElem?_remember] at hmem
    split at hmem
    · cases hmem
      exact hentry
    · exact h.memory other found hmem
  disk other found hload := h.disk other found (load?_remember cache path entry files other ▸ hload)

theorem Holds.makeRoom (h : Holds P files cache) (path : Path) :
    Holds P files (cache.makeRoom path) where
  memory other found hmem := h.memory other found (getElem?_makeRoom hmem)
  disk other found hload := h.disk other found (by rwa [load?, dir_makeRoom] at hload)

theorem Holds.of_get (h : Holds P files cache)
    (hget : (cache.get files path contentHash).1 = some syntaxOf) : P syntaxOf := by
  rcases Option.or_eq_some_iff.1 (held_of_get hget) with hmem | ⟨_, hload⟩
  · exact h.memory path _ hmem
  · exact h.disk path _ hload

theorem Holds.get (h : Holds P files cache) (path : Path) (contentHash : UInt64) :
    Holds P files (cache.get files path contentHash).2 := by
  rcases cache.get_snd files path contentHash with heq | ⟨entry, _, hload, heq⟩
  · rw [heq]
    exact h
  · rw [heq]
    exact h.remember (h.disk path entry hload) path

/-- After an entry was written, the directory gives that entry or what it gave before, wherever links
lead. -/
theorem Holds.written (h : Holds P files cache) (hentry : P entry.syntaxOf)
    (hfits : cache.dir.isSome → entry.syntaxOf.Fits) (hw : cache.Written files path entry files') :
    Holds P files' cache := by
  rcases hw.cases with ⟨_, rfl⟩ | ⟨dir, hdir, hwrite⟩
  · exact h
  · refine ⟨h.memory, fun other found hload => ?_⟩
    obtain ⟨bytes, hread, hdecode⟩ := (load?_eq_some hdir).1 hload
    rcases FileSystem.read_of_write (name_mem_steps dir path) hwrite hread with hold | rfl
    · exact h.disk other found ((load?_eq_some hdir).2 ⟨bytes, hold, hdecode⟩)
    · have hown := CacheEntry.decode?_encode (hfits (hdir ▸ rfl)) []
      rw [List.append_nil, hdecode] at hown
      cases hown
      exact hentry

/-- A store adds nothing but its own entry. -/
theorem Holds.store (h : Holds P files cache) (hprop : P syntaxOf)
    (hfits : cache.dir.isSome → syntaxOf.Fits) (path : Path) (contentHash : UInt64) :
    Holds P (cache.store files path contentHash syntaxOf).2.2
      (cache.store files path contentHash syntaxOf).2.1 := by
  rcases store_cases cache files path contentHash syntaxOf with ⟨files', hw, hstore⟩ | ⟨_, _, hstore⟩
  · rw [hstore]
    exact ((h.written hprop hfits hw).makeRoom path).remember hprop path
  · rw [hstore]
    exact h.makeRoom path

end SyntaxCache

namespace Session

open SyntaxCache Analysis

variable {P : FileSyntax → Prop} {grammar : Grammar} {start s : Session} {path : Path} {text : String}
  {syntaxOf : FileSyntax}

/-- The cache has a directory. -/
def Backed (s : Session) : Prop :=
  ∃ dir, s.backing = some (some dir)

/-- What a build makes of a session: the directory is the same, and all syntax that the cache can find
has a property. -/
structure Keeping (P : FileSyntax → Prop) (start s : Session) : Prop where
  backing : s.backing = start.backing
  holds : ∀ cache, s.cache = some cache → cache.Holds P s.files

theorem Keeping.lookup (h : Keeping P start s) (path : Path) (text : String) :
    Keeping P start (s.lookup path text).2 ∧
      ∀ found, (s.lookup path text).1 = some found → P found := by
  cases hcache : s.cache with
  | none =>
    rw [lookup_of_none hcache]
    exact ⟨h, fun found hfound => by cases hfound⟩
  | some cache =>
    have hholds := h.holds cache hcache
    have hbacking := (lookup_frame s path text).backing.trans h.backing
    rw [lookup_eq hcache] at hbacking ⊢
    refine ⟨⟨hbacking, fun cache' hcache' => ?_⟩, fun found hfound => hholds.of_get hfound⟩
    cases hcache'
    exact hholds.get path _

theorem Keeping.keep (h : Keeping P start s) (hprop : P syntaxOf)
    (hfits : start.Backed → syntaxOf.Fits) (path : Path) (text : String) :
    Keeping P start (s.keep path text syntaxOf) := by
  cases hcache : s.cache with
  | none =>
    rw [keep_of_none hcache]
    exact h
  | some cache =>
    have hbacking : start.backing = some cache.dir := by rw [← h.backing, Session.backing, hcache]; rfl
    have hdir : cache.dir.isSome → syntaxOf.Fits := by
      intro hsome
      obtain ⟨dir, hdir⟩ := Option.isSome_iff_exists.1 hsome
      exact hfits ⟨dir, hdir ▸ hbacking⟩
    have hholds := (h.holds cache hcache).store hprop hdir path (Digest.content text)
    rw [keep_eq hcache]
    refine ⟨?_, fun cache' hcache' => ?_⟩
    · rw [hbacking, Session.backing, Option.map_some, dir_store]
    · cases hcache'
      exact hholds

/-- The syntax of a text is found in the cache or parsed, and has the property either way. -/
theorem Keeping.syntaxOfText (h : Keeping P start s)
    (hparsed : ∀ syntaxOf, Source.fileSyntax grammar path text = .ok syntaxOf →
      P syntaxOf ∧ (start.Backed → syntaxOf.Fits)) :
    Keeping P start (s.syntaxOfText grammar path text).2 ∧
      ∀ syntaxOf, (s.syntaxOfText grammar path text).1 = .ok syntaxOf → P syntaxOf := by
  obtain ⟨hlookup, hfound⟩ := h.lookup path text
  unfold Session.syntaxOfText
  generalize s.lookup path text = looked at hlookup hfound ⊢
  obtain ⟨found, s'⟩ := looked
  cases found with
  | some found =>
    refine ⟨hlookup, fun syntaxOf hok => ?_⟩
    cases hok
    exact hfound found rfl
  | none =>
    cases hs : Source.fileSyntax grammar path text with
    | error e => exact ⟨hlookup, fun syntaxOf hok => by cases hok⟩
    | ok parsed =>
      obtain ⟨hP, hfits⟩ := hparsed parsed hs
      refine ⟨hlookup.keep hP hfits path text, fun syntaxOf hok => ?_⟩
      cases hok
      exact hP

/-- A file makes no edges, or those of some syntax with the property. -/
theorem Keeping.file (h : Keeping P start s) (policy : ResolutionPolicy)
    (hyields : ∀ text syntaxOf, Source.read s.files path = .ok text →
      Source.fileSyntax grammar path text = .ok syntaxOf → P syntaxOf ∧ (start.Backed → syntaxOf.Fits)) :
    Keeping P start (Analysis.file grammar policy s path).2 ∧
      ((Analysis.file grammar policy s path).1 = [] ∨ ∃ files syntaxOf, P syntaxOf ∧
        (Analysis.file grammar policy s path).1 = edgesOfSyntax files policy path syntaxOf) := by
  unfold Analysis.file Session.syntaxOfFile
  cases hread : Source.read s.files path with
  | error e => exact ⟨h, .inl rfl⟩
  | ok text =>
    obtain ⟨hkeeping, hprop⟩ := h.syntaxOfText fun syntaxOf => hyields text syntaxOf hread
    simp only
    generalize s.syntaxOfText grammar path text = result at hkeeping hprop ⊢
    obtain ⟨outcome, s'⟩ := result
    cases outcome with
    | error e => exact ⟨hkeeping, .inl rfl⟩
    | ok syntaxOf => exact ⟨hkeeping, .inr ⟨s'.files, syntaxOf, hprop syntaxOf rfl, rfl⟩⟩

end Session

namespace Analysis

variable {grammar : Grammar} {policy : ResolutionPolicy} {path : Path} {text : String}

/-- A build of some files reads a text at a path when it comes to that file. -/
def Reads (grammar : Grammar) (policy : ResolutionPolicy) (path : Path) (text : String) :
    Session → List Path → Prop
  | _, [] => False
  | s, next :: paths => (next = path ∧ Source.read s.files path = .ok text) ∨
      Reads grammar policy path text (file grammar policy s next).2 paths

theorem mem_of_reads {paths : List Path} {s : Session} (h : Reads grammar policy path text s paths) :
    path ∈ paths := by
  induction paths generalizing s with
  | nil => exact h.elim
  | cons next paths ih =>
    rcases h with ⟨rfl, _⟩ | h
    · exact List.mem_cons_self
    · exact List.mem_cons_of_mem next (ih h)

end Analysis

end Dependents
