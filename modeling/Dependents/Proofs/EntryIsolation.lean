import Dependents.Language
import Dependents.Proofs.SharedDirectory

/-! What a store does to the answers for other paths. Memory keeps paths apart, the directory only
keeps entry files apart, and different paths can share one. -/
namespace Dependents

namespace SyntaxCache

variable {cache : SyntaxCache} {fs fs' : FileSystem} {dir path other : Path} {contentHash : UInt64}
  {syntaxOf : FileSyntax}

/-- The root leaves no trace in the digest of a path, and so none in the name of its entry file. -/
theorem fileName_of_rooted (h : path.components = .root :: other.components) :
    fileName path = fileName other := by
  have hdigest : path.digest = other.digest := by
    rw [Path.digest, Path.digest, Path.chunks_text, Path.chunks_text, h]
    rfl
  rw [fileName, fileName, hdigest]

-- Nor do the borders of names leave one where the lengths mix to the same bits.
example : fileName ⟨"/aaaa/bbb/cc"⟩ = fileName ⟨"/aaaabbbc/c"⟩ := by decide +kernel

/-- What is held of another path once an entry was written and remembered: what memory held of it,
else what the directory now holds. -/
theorem held_remember (hdir : cache.dir = some dir) (hu : Unlinked fs dir) (hfits : syntaxOf.Fits)
    (hwrite : fs.write (filePath dir path) (entryFor contentHash syntaxOf).encode = .ok fs')
    (hne : path.components ≠ other.components) :
    (cache.remember path (entryFor contentHash syntaxOf)).held fs' other =
      cache.memory[other.components]?.or (if fileName path = fileName other then
        some (entryFor contentHash syntaxOf) else cache.load? fs other) := by
  rw [held, getElem?_remember, if_neg hne, load?_remember]
  split
  · rename_i hname
    rw [load?_write_self hdir hu hfits hwrite hname.symm]
  · rename_i hname
    rw [load?_write_other hdir hu hwrite (Ne.symm hname)]

theorem get_remember_iff (hdir : cache.dir = some dir) (hu : Unlinked fs dir) (hfits : syntaxOf.Fits)
    (hwrite : fs.write (filePath dir path) (entryFor contentHash syntaxOf).encode = .ok fs')
    (hne : path.components ≠ other.components) :
    (∀ h, ((cache.remember path (entryFor contentHash syntaxOf)).get fs' other h).1 =
        (cache.get fs other h).1) ↔
      fileName path ≠ fileName other ∨ other.components ∈ cache.memory ∨
        (cache.get fs other contentHash).1 = some syntaxOf := by
  have hheld := held_remember hdir hu hfits hwrite hne
  constructor
  · intro hsame
    by_cases hname : fileName path = fileName other
    · by_cases hmem : other.components ∈ cache.memory
      · exact .inr (.inl hmem)
      · have hnone : cache.memory[other.components]? = none := Std.HashMap.getElem?_eq_none hmem
        refine .inr (.inr ?_)
        rw [← hsame contentHash, get_fst, hheld, hnone, if_pos hname]
        simp [Option.filter]
    · exact .inl hname
  · intro hcases
    have hkept : (cache.remember path (entryFor contentHash syntaxOf)).held fs' other =
        cache.held fs other := by
      rw [hheld, held]
      rcases hcases with hname | hmem | hget
      · rw [if_neg hname]
      · rw [Std.HashMap.getElem?_eq_some_getElem hmem, Option.some_or, Option.some_or]
      · have hbefore := held_of_get hget
        rw [held] at hbefore
        split
        · rw [hbefore]
          -- What memory holds is what was answered, and else it was the directory that held it.
          rcases Option.or_eq_some_iff.1 hbefore with hmem | ⟨hmem, _⟩ <;> rw [hmem] <;> rfl
        · rfl
    intro h
    rw [get_fst, get_fst, hkept]

end SyntaxCache

namespace SharedCaches

open SyntaxCache

variable {dir path other : Path} {files : FileSystem} {cache : SyntaxCache} {r : SharedCaches}
  {syntaxOf : FileSyntax}

/-- Nothing is found for a path if nothing was stored under its entry file. -/
theorem Sound.get_eq_none (h : Sound dir r) (hcache : cache ∈ r.caches)
    (hnever : ∀ call ∈ r.issued, fileName call.path ≠ fileName path) (contentHash : UInt64) :
    (cache.get r.files path contentHash).1 = none := by
  cases hget : (cache.get r.files path contentHash).1 with
  | none => rfl
  | some found =>
    obtain ⟨call, hcall, hname, _⟩ := (h.caches cache hcache).held (h.backed hcache) (held_of_get hget)
    exact absurd hname (hnever call hcall)

/-- After any run of caches on a directory that held no entry when it was first opened, storing one
path leaves all answers for another one as they were if and only if the two have different entry files,
or memory holds the other one already, or the store fails, or the other one was answered with that very
syntax. A path is not found at all if nothing was stored under its entry file. -/
theorem get_store_iff (hstart : files.StartsVacant dir) (h : Reached files dir r)
    (hcache : cache ∈ r.caches) (hdir : cache.dir = some dir)
    (hne : path.components ≠ other.components) (hroom : cache.HasRoom path)
    (contentHash : UInt64) (hfits : syntaxOf.Fits) :
    let stored := cache.store r.files path contentHash syntaxOf
    ((∀ h, (stored.2.1.get stored.2.2 other h).1 = (cache.get r.files other h).1) ↔
      fileName path ≠ fileName other ∨ other.components ∈ cache.memory ∨
        (∃ e, stored.1 = .error e) ∨ (cache.get r.files other contentHash).1 = some syntaxOf) ∧
    ((∀ call ∈ r.issued, fileName call.path ≠ fileName other) →
      ∀ h, (cache.get r.files other h).1 = none) := by
  intro stored
  have hsound := sound_of_reached hstart h
  refine ⟨?_, fun hnever => hsound.get_eq_none hcache hnever⟩
  have hmade := makeRoom_of_hasRoom hroom
  rcases store_cases cache r.files path contentHash syntaxOf with ⟨files', hw, hstore⟩ | ⟨e, _, hstore⟩
  · have hwrite : r.files.write (filePath dir path) (entryFor contentHash syntaxOf).encode =
        .ok files' := by
      simpa only [Written, hdir] using hw
    have hiff := get_remember_iff hdir (hsound.backed hcache hdir).unlinked hfits hwrite hne
    simpa [stored, hstore, hmade] using hiff
  · simp [stored, hstore, hmade]

theorem reached_fresh : Reached bareDirectory ⟨"/c"⟩ ⟨[blank (some ⟨"/c"⟩)], bareDirectory, []⟩ :=
  .single (step_opens ⟨[], bareDirectory, []⟩ made_bare ⟨[.root], [], "c", by decide, by simp⟩)

/-- Files with names of their own are kept apart. -/
theorem get_store_iff_siblings :
    let cache := blank (some ⟨"/c"⟩)
    let stored := cache.store bareDirectory ⟨"/a.ts"⟩ 7 ⟨[], []⟩
    ∀ h, (stored.2.1.get stored.2.2 ⟨"/b.ts"⟩ h).1 = none := by
  intro cache stored h
  have hne : Path.components ⟨"/a.ts"⟩ ≠ Path.components ⟨"/b.ts"⟩ := by decide +kernel
  have hname : fileName ⟨"/a.ts"⟩ ≠ fileName ⟨"/b.ts"⟩ := by decide +kernel
  obtain ⟨hiff, hmiss⟩ := get_store_iff startsVacant_bare reached_fresh List.mem_cons_self rfl hne
    (.inl (by decide)) 7 (by decide : FileSyntax.Fits ⟨[], []⟩)
  rw [hiff.2 (.inl hname) h, hmiss (by simp) h]

/-- A relative path that was never stored is found after the path from the root is stored. -/
theorem get_of_rooted :
    let cache := blank (some ⟨"/c"⟩)
    let stored := cache.store bareDirectory ⟨"/w/a.ts"⟩ 7 ⟨[], []⟩
    Reached bareDirectory ⟨"/c"⟩ ⟨[cache], bareDirectory, []⟩ ∧
      Path.components ⟨"/w/a.ts"⟩ ≠ Path.components ⟨"w/a.ts"⟩ ∧
      Language.ofPath? ⟨"/w/a.ts"⟩ = some .typescript ∧ Language.ofPath? ⟨"w/a.ts"⟩ = some .typescript ∧
      (cache.get bareDirectory ⟨"w/a.ts"⟩ 7).1 = none ∧
      (stored.2.1.get stored.2.2 ⟨"w/a.ts"⟩ 7).1 = some ⟨[], []⟩ := by
  intro cache stored
  have hne : Path.components ⟨"/w/a.ts"⟩ ≠ Path.components ⟨"w/a.ts"⟩ := by decide +kernel
  have hname : fileName ⟨"/w/a.ts"⟩ = fileName ⟨"w/a.ts"⟩ := fileName_of_rooted (by decide)
  have hwrite := write_bare ⟨"/w/a.ts"⟩ (entryFor 7 ⟨[], []⟩).encode
  have hstored : stored = _ := store_bare ⟨"/w/a.ts"⟩ 7 ⟨[], []⟩
  refine ⟨reached_fresh, hne, by decide, by decide, ?_, ?_⟩
  · exact (sound_of_reached startsVacant_bare reached_fresh).get_eq_none List.mem_cons_self (by simp) 7
  · have hdir : cache.dir = some ⟨"/c"⟩ := rfl
    have hheld := held_remember hdir (unlinked_of_enter?_nil enter?_bare)
      (by decide : FileSyntax.Fits ⟨[], []⟩) hwrite hne
    have hnone : cache.memory[Path.components ⟨"w/a.ts"⟩]? = none := Std.HashMap.getElem?_empty
    rw [hstored, get_fst, hheld, if_pos hname, hnone]
    simp [Option.filter]

end SharedCaches

end Dependents
