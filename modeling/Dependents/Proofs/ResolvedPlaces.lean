import Dependents.Proofs.IndexKeys
import Dependents.Proofs.WellFormedTrees

/-! Where an import leads. A relative specifier is folded to a base before anything is tried, so what it
means depends on the base alone, and every file it can mean lies in the base or beside it. -/
namespace Dependents

namespace Path

variable {p : Path} {cs piece : List Char} {ps : List (List Char)}

/-- The first piece of a text is all of it, or what stands before its first slash. -/
theorem split_of_pieces (h : pieces cs = piece :: ps) :
    cs = piece ∨ ∃ more, cs = piece ++ '/' :: more := by
  induction cs generalizing piece ps with
  | nil =>
    obtain ⟨rfl, _⟩ := List.cons.inj h
    exact Or.inl rfl
  | cons c cs ih =>
    by_cases hc : c = '/'
    · subst hc
      rw [pieces_slash] at h
      obtain ⟨rfl, _⟩ := List.cons.inj h
      exact Or.inr ⟨cs, rfl⟩
    · obtain ⟨first, rest, hcs⟩ := exists_pieces cs
      rw [pieces_cons hc hcs] at h
      obtain ⟨rfl, _⟩ := List.cons.inj h
      rcases ih hcs with rfl | ⟨more, rfl⟩
      · exact Or.inl rfl
      · exact Or.inr ⟨more, rfl⟩

/-- A path starts with a dot if its first piece is one, and with a step up if that is two dots. -/
theorem head?_components (h : pieces p.text.toList = piece :: ps) :
    (p.components.head? = some .current ↔ piece = ['.']) ∧
      (p.components.head? = some .parent ↔ piece = ['.', '.']) := by
  rw [components_of_pieces h]
  by_cases hempty : piece = []
  · subst hempty
    cases ps with
    | nil => simp [firstComponent]
    | cons second ps => simp [firstComponent]
  · by_cases hdot : piece = ['.']
    · subst hdot
      simp [firstComponent]
    · by_cases hdots : piece = ['.', '.']
      · subst hdots
        simp [firstComponent, innerComponent]
      · simp [firstComponent, innerComponent, hempty, hdot, hdots]

/-- What is joined stands at the end of the text. -/
theorem isSuffix_join (p q : Path) : q.text.toList <:+ (p.join q).text.toList := by
  unfold join
  split
  · exact List.suffix_rfl
  · split
    · simp
    · exact ⟨(p.text ++ "/").toList, by simp⟩

end Path

namespace Resolution

open Dependents.Path

variable {fs : FileSystem} {policy : ResolutionPolicy} {specifier specifier' : String}
  {importer importer' base target : Path} {names : List String}

/-- A specifier is relative if its first step stays in the directory or goes up. -/
theorem isRelative_iff : isRelative specifier = true ↔
    (⟨specifier⟩ : Path).components.head? = some .current ∨
      (⟨specifier⟩ : Path).components.head? = some .parent := by
  obtain ⟨first, rest, hpieces⟩ := exists_pieces specifier.toList
  have hhead := head?_components (p := ⟨specifier⟩) hpieces
  have htext : ∀ cs, specifier = String.ofList cs ↔ specifier.toList = cs := by
    intro cs
    rw [← String.toList_inj, String.toList_ofList]
  have hdot : specifier = "." ↔ specifier.toList = ['.'] := htext ['.']
  have hdots : specifier = ".." ↔ specifier.toList = ['.', '.'] := htext ['.', '.']
  rw [hhead.1, hhead.2]
  simp only [isRelative, Bool.or_eq_true, beq_iff_eq, List.isPrefixOf_iff_prefix, hdot, hdots]
  constructor
  · -- Each of the four spellings has one or two dots before its first slash or its end.
    rintro (((h | h) | ⟨more, h⟩) | ⟨more, h⟩)
    · rw [h] at hpieces
      exact Or.inl (List.cons.inj hpieces).1.symm
    · rw [h] at hpieces
      exact Or.inr (List.cons.inj hpieces).1.symm
    · have hsplit := pieces_append_slash ['.'] more
      rw [← h] at hpieces
      exact Or.inl (List.cons.inj (hpieces.symm.trans hsplit)).1
    · have hsplit := pieces_append_slash ['.', '.'] more
      rw [← h] at hpieces
      exact Or.inr (List.cons.inj (hpieces.symm.trans hsplit)).1
  · rintro (rfl | rfl)
    · rcases split_of_pieces hpieces with h | ⟨more, h⟩
      · exact Or.inl (Or.inl (Or.inl h))
      · exact Or.inl (Or.inr ⟨more, h.symm⟩)
    · rcases split_of_pieces hpieces with h | ⟨more, h⟩
      · exact Or.inl (Or.inl (Or.inr h))
      · exact Or.inr ⟨more, h.symm⟩

/-- The paths that are tried for a base, in order. -/
def tried (base : Path) : List Path :=
  [base.withSuffix ".ts", base.withSuffix ".js", base.join ⟨"index.ts"⟩, base.join ⟨"index.js"⟩]

/-- What a base means: the first path tried that is a file, or, if none is and the policy allows it, the
first of all. -/
inductive Means (fs : FileSystem) (policy : ResolutionPolicy) (base : Path) : Path → Prop
  | found {before after : List Path} {file : Path} (htried : tried base = before ++ file :: after)
      (hbefore : ∀ p ∈ before, fs.isFile p = false) (hfile : fs.isFile file = true) :
      Means fs policy base file
  | assumed (hpolicy : policy = .lenient) (hnone : ∀ p ∈ tried base, fs.isFile p = false) :
      Means fs policy base (base.withSuffix ".ts")

theorem candidates_eq (base : Path) : candidates base = tried base := rfl

theorem resolve_of_base? (hrelative : isRelative specifier = true)
    (hbase : base? specifier importer = some base) :
    resolve fs policy specifier importer = some target ↔ Means fs policy base target := by
  rw [resolve, if_pos hrelative, hbase, Option.bind_some, candidates_eq]
  constructor
  · intro h
    cases hfind : (tried base).find? fs.isFile with
    | some file =>
      simp only [hfind, Option.some.injEq] at h
      subst h
      obtain ⟨hfile, before, after, htried, hbefore⟩ := List.find?_eq_some_iff_append.1 hfind
      exact .found htried (by simpa using hbefore) hfile
    | none =>
      cases policy with
      | strict => simp [hfind] at h
      | lenient =>
        simp only [hfind, Option.some.injEq] at h
        subst h
        exact .assumed rfl (by simpa using List.find?_eq_none.1 hfind)
  · intro h
    cases h with
    | found htried hbefore hfile =>
      have hfind : (tried base).find? fs.isFile = some target :=
        List.find?_eq_some_iff_append.2 ⟨hfile, _, _, htried, by simpa using hbefore⟩
      rw [hfind]
    | assumed hpolicy hnone =>
      have hfind : (tried base).find? fs.isFile = none :=
        List.find?_eq_none.2 (by simpa using hnone)
      rw [hfind, hpolicy]

/-- A candidate lies in the base, or, with a suffix to its last name, beside it. -/
theorem parent?_of_mem_candidates (h : AreNames names) (ht : target ∈ candidates (ofNames names)) :
    ∃ above, target.parent? = some above ∧
      (above = ofNames names ∨ (ofNames names).parent? = some above) := by
  rcases List.mem_append.1 ht with ht | ht
  · obtain ⟨suffix, hsuffix, rfl⟩ := List.mem_map.1 ht
    obtain ⟨hslash, hlong⟩ := long_of_mem_suffixes hsuffix
    obtain ⟨most, last, hspelled, hnames, hcases⟩ := names_withSuffix h hslash hlong
    refine ⟨ofNames most, by rw [hspelled, parent?_ofNames hnames], ?_⟩
    rcases hcases with ⟨rfl, rfl, _⟩ | rfl
    · exact Or.inl rfl
    · exact Or.inr (parent?_ofNames h)
  · obtain ⟨file, hfile, rfl⟩ := List.mem_map.1 ht
    have hname := isName_of_mem_indexFiles hfile
    rw [join_ofNames h hname]
    exact ⟨ofNames names, parent?_ofNames (h.concat hname), Or.inl rfl⟩

/-- A candidate ends in one of the suffixes. -/
theorem isSuffix_of_mem_candidates (ht : target ∈ candidates base) :
    ".ts".toList <:+ target.text.toList ∨ ".js".toList <:+ target.text.toList := by
  rcases List.mem_append.1 ht with ht | ht
  · obtain ⟨suffix, hsuffix, rfl⟩ := List.mem_map.1 ht
    rcases List.mem_pair.1 hsuffix with rfl | rfl
    · exact Or.inl (by simp [withSuffix])
    · exact Or.inr (by simp [withSuffix])
  · obtain ⟨file, hfile, rfl⟩ := List.mem_map.1 ht
    have hjoin := isSuffix_join base ⟨file⟩
    rcases List.mem_pair.1 hfile with rfl | rfl
    · exact Or.inl (List.IsSuffix.trans (by decide) hjoin)
    · exact Or.inr (List.IsSuffix.trans (by decide) hjoin)

/-- Bases that are the same place are spelled the same. -/
theorem base?_eq_of_same {base' : Path} (himporter : importer.isAbsolute = true)
    (himporter' : importer'.isAbsolute = true) (h : base? specifier importer = some base)
    (h' : base? specifier' importer' = some base') (hsame : base'.same base = true) : base' = base := by
  obtain ⟨names, hnames, rfl⟩ := names_of_base? himporter h
  obtain ⟨names', hnames', rfl⟩ := names_of_base? himporter' h'
  rw [ofNames_inj hnames' hnames (same_iff.1 hsame)]

/-- Seen from an absolute file, a package leads nowhere, and a relative specifier to what its base means.
So specifiers of one base lead to one file, however they are spelled. That file's path is absolute and
without dots, ends in one of the suffixes, and lies in the base or in the directory of the base. -/
theorem resolve_means (fs : FileSystem) (policy : ResolutionPolicy) (specifier : String)
    (importer dir : Path) (himporter : importer.isAbsolute = true)
    (hdir : importer.parent? = some dir) :
    let base := (dir.join ⟨specifier⟩).normalize
    (isRelative specifier = true ↔ (⟨specifier⟩ : Path).components.head? = some .current ∨
      (⟨specifier⟩ : Path).components.head? = some .parent) ∧
    (isRelative specifier = false → resolve fs policy specifier importer = none) ∧
    (isRelative specifier = true →
      (∀ target, resolve fs policy specifier importer = some target ↔ Means fs policy base target) ∧
      ∀ specifier' importer' dir', isRelative specifier' = true → importer'.isAbsolute = true →
        importer'.parent? = some dir' → (dir'.join ⟨specifier'⟩).normalize.same base = true →
          resolve fs policy specifier' importer' = resolve fs policy specifier importer) ∧
    ∀ target, resolve fs policy specifier importer = some target →
      target.isAbsolute = true ∧ .current ∉ target.components ∧ .parent ∉ target.components ∧
      (∃ above, target.parent? = some above ∧ (above = base ∨ base.parent? = some above)) ∧
      (".ts".toList <:+ target.text.toList ∨ ".js".toList <:+ target.text.toList) := by
  intro base
  have hbase : base? specifier importer = some base := by rw [base?, hdir, Option.map_some]
  refine ⟨isRelative_iff, ?_, fun hrelative => ⟨fun target => resolve_of_base? hrelative hbase, ?_⟩, ?_⟩
  · intro hpackage
    rw [resolve, hpackage, if_neg Bool.false_ne_true]
  · intro specifier' importer' dir' hrelative' himporter' hdir' hsame
    have hbase' : base? specifier' importer' = some (dir'.join ⟨specifier'⟩).normalize := by
      rw [base?, hdir', Option.map_some]
    rw [base?_eq_of_same himporter himporter' hbase hbase' hsame] at hbase'
    simp only [resolve, hrelative, hrelative', hbase, hbase']
  · intro target htarget
    obtain ⟨other, hother, hmem⟩ := mem_candidates_of_resolve htarget
    obtain rfl := Option.some.inj (hbase.symm.trans hother)
    obtain ⟨names, hnames, hspelled⟩ := names_of_base? himporter hbase
    have hends := isSuffix_of_mem_candidates hmem
    rw [hspelled] at hmem ⊢
    obtain ⟨straight, _, hstraight, rfl⟩ := straight_of_mem_candidates hnames hmem
    refine ⟨isAbsolute_ofNames straight, ?_, ?_, parent?_of_mem_candidates hnames hmem, hends⟩
    · simp [components_ofNames hstraight]
    · simp [components_ofNames hstraight]

/-- A directory in which a file stands beside a directory of its name. -/
def namesakes : FileSystem :=
  ⟨[("d", .dir [("b", .dir [("index.ts", .file [])]), ("b.js", .file []), ("main.ts", .file [])])], []⟩

theorem isFile_namesakes (h : AreNames names) : namesakes.isFile (ofNames names) = true ↔
    ∃ content, namesakes.top.at? names = some (.file content) := by
  have hfree : namesakes.NoLinks := by
    simp [FileSystem.NoLinks, FileSystem.top, namesakes, FileNode.throughout_dir,
      FileNode.throughout_file]
  exact FileSystem.isFile_iff_at? h (hfree.linkFree names)

theorem isFile_namesakes_of_none (h : AreNames names) (hat : namesakes.top.at? names = none) :
    namesakes.isFile (ofNames names) = false := by
  rw [← Bool.not_eq_true, isFile_namesakes h, hat]
  simp

/-- Three spellings of one base lead to the file beside the directory, a package leads nowhere, and what
climbs above the root is assumed to lie there. -/
theorem resolve_means_namesakes :
    let importer : Path := ⟨"/d/main.ts"⟩
    importer.isAbsolute = true ∧ importer.parent? = some ⟨"/d"⟩ ∧
      resolve namesakes .strict "./a/../b/" importer = some ⟨"/d/b.js"⟩ ∧
      resolve namesakes .strict "././b" importer = resolve namesakes .strict "./a/../b/" importer ∧
      resolve namesakes .strict "../d/b" importer = resolve namesakes .strict "./a/../b/" importer ∧
      resolve namesakes .strict "b" importer = none ∧
      resolve namesakes .lenient "../../../x" importer = some ⟨"/x.ts"⟩ := by
  intro importer
  have habs : importer.isAbsolute = true := by decide
  have hdir : importer.parent? = some ⟨"/d"⟩ := by decide
  have hbase : (Path.join ⟨"/d"⟩ ⟨"./a/../b/"⟩).normalize = ⟨"/d/b"⟩ := by decide
  obtain ⟨_, _, hmeans, _⟩ := resolve_means namesakes .strict "./a/../b/" importer ⟨"/d"⟩ habs hdir
  obtain ⟨hfound, hequal⟩ := hmeans (by decide)
  obtain ⟨_, hpackage, _, _⟩ := resolve_means namesakes .strict "b" importer ⟨"/d"⟩ habs hdir
  obtain ⟨_, _, hlenient, _⟩ :=
    resolve_means namesakes .lenient "../../../x" importer ⟨"/d"⟩ habs hdir
  refine ⟨habs, hdir, ?_, ?_, ?_, hpackage (by decide), ?_⟩
  · rw [hfound, hbase]
    have htried : tried ⟨"/d/b"⟩ = [ofNames ["d", "b.ts"]] ++ ofNames ["d", "b.js"] ::
        [ofNames ["d", "b", "index.ts"], ofNames ["d", "b", "index.js"]] := by decide
    have hfile : namesakes.isFile (ofNames ["d", "b.js"]) = true :=
      (isFile_namesakes (by decide)).2 ⟨[], rfl⟩
    refine .found htried ?_ hfile
    intro p hp
    obtain rfl := List.mem_singleton.1 hp
    exact isFile_namesakes_of_none (by decide) rfl
  · exact hequal _ importer ⟨"/d"⟩ (by decide) habs hdir (by decide)
  · exact hequal _ importer ⟨"/d"⟩ (by decide) habs hdir (by decide)
  · have hbare : (Path.join ⟨"/d"⟩ ⟨"../../../x"⟩).normalize = ⟨"/x"⟩ := by decide
    have htried : tried ⟨"/x"⟩ = [["x.ts"], ["x.js"], ["x", "index.ts"], ["x", "index.js"]].map ofNames := by
      decide
    rw [(hlenient (by decide)).1, hbare]
    refine .assumed rfl ?_
    rw [htried]
    simp only [List.map_cons, List.map_nil, List.forall_mem_cons]
    refine ⟨?_, ?_, ?_, ?_, fun _ hp => absurd hp List.not_mem_nil⟩ <;>
      exact isFile_namesakes_of_none (by decide) rfl

end Resolution

end Dependents
