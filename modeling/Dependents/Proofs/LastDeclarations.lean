import Dependents.Proofs.ImportBindings
import Dependents.Proofs.IndexKeys
import Mathlib.Data.Finset.Card

/-! What the table of a file's declarations holds. No name is bound twice, and of the declarations that
resolve the last one to list a name gives it its file. -/
namespace Dependents.ImportTable

variable {resolve : String → Option Path} {declarations : List ImportDeclaration}
  {table : ImportTable} {name : String} {binding : ImportBinding} {file : Path}

/-- The names that a table binds. -/
def names (table : ImportTable) : List String :=
  table.bindings.map (·.localName)

theorem isSome_get? : (table.get? name).isSome = true ↔ name ∈ table.names := by
  simp [get?, names]

/-- A new binding takes the place of the one that its name had. -/
theorem names_insert (table : ImportTable) (binding : ImportBinding) :
    (table.insert binding).names =
      binding.localName :: table.names.filter (· != binding.localName) := by
  simp only [names, insert, List.map_cons, List.filter_map, Function.comp_def]

theorem nodup_names_insert (h : table.names.Nodup) (binding : ImportBinding) :
    (table.insert binding).names.Nodup := by
  rw [names_insert, List.nodup_cons]
  exact ⟨by simp, h.filter _⟩

theorem nodup_names_declare (h : table.names.Nodup) (d : ImportDeclaration) :
    (declare resolve table d).names.Nodup := by
  unfold declare
  cases resolve d.specifier with
  | none => exact h
  | some file =>
    refine List.foldlRecOn (motive := fun t : ImportTable => t.names.Nodup) _ _ h ?_
    intro t ht name _
    exact nodup_names_insert ht ⟨name, file⟩

/-- No name is bound twice, in whichever declarations it is repeated. -/
theorem nodup_names_ofDeclarations (resolve : String → Option Path)
    (declarations : List ImportDeclaration) :
    (ofDeclarations resolve declarations).names.Nodup := by
  refine List.foldlRecOn (motive := fun t : ImportTable => t.names.Nodup) _ _ List.nodup_nil ?_
  intro t ht d _
  exact nodup_names_declare ht d

/-- Where no name is bound twice, each binding is found under its own name. -/
theorem get?_eq_some_iff (h : table.names.Nodup) :
    table.get? name = some binding ↔ binding ∈ table.bindings ∧ binding.localName = name := by
  constructor
  · intro hget
    exact ⟨List.mem_of_find?_eq_some hget, by simpa using List.find?_some hget⟩
  · rintro ⟨hmem, rfl⟩
    obtain ⟨found, hget⟩ := Option.isSome_iff_exists.1 (isSome_get?.2 (List.mem_map_of_mem hmem))
    have hname : found.localName = binding.localName := by simpa using List.find?_some hget
    rw [hget, List.inj_on_of_nodup_map h (List.mem_of_find?_eq_some hget) hmem hname]

/-- The declarations that resolve. -/
def resolvable (resolve : String → Option Path) (declarations : List ImportDeclaration) :
    List ImportDeclaration :=
  declarations.filter fun d => (resolve d.specifier).isSome

/-- Declarations that do not resolve leave no trace. -/
theorem ofDeclarations_resolvable (resolve : String → Option Path)
    (declarations : List ImportDeclaration) :
    ofDeclarations resolve (resolvable resolve declarations) =
      ofDeclarations resolve declarations := by
  have hskip : (fun table d => if (resolve d.specifier).isSome then declare resolve table d else table) =
      declare resolve := by
    funext table d
    unfold declare
    cases resolve d.specifier <;> rfl
  rw [ofDeclarations, resolvable, List.foldl_filter, hskip, ofDeclarations]

/-- Some declaration lists the name and resolves to the file, and none after it lists the name and
resolves. -/
def LastMeans (resolve : String → Option Path) (declarations : List ImportDeclaration) (name : String)
    (file : Path) : Prop :=
  ∃ before d after, declarations = before ++ d :: after ∧ name ∈ d.localNames ∧
    resolve d.specifier = some file ∧
      ∀ later ∈ after, name ∈ later.localNames → resolve later.specifier = none

theorem meaning?_eq_some_iff :
    meaning? resolve declarations name = some file ↔ LastMeans resolve declarations name file := by
  simp only [meaning?, List.findSome?_eq_some_iff, Option.ite_none_right_eq_some, ite_eq_right_iff]
  -- The search goes backwards, so what it has passed is what comes after.
  constructor
  · rintro ⟨passed, d, rest, hsplit, ⟨hname, hfile⟩, hpassed⟩
    refine ⟨rest.reverse, d, passed.reverse, ?_, hname, hfile, ?_⟩
    · rw [List.reverse_eq_iff.1 hsplit]
      simp
    · intro later hlater
      exact hpassed later (List.mem_reverse.1 hlater)
  · rintro ⟨before, d, after, rfl, hname, hfile, hafter⟩
    refine ⟨after.reverse, d, before.reverse, by simp, ⟨hname, hfile⟩, ?_⟩
    intro later hlater
    exact hafter later (List.mem_reverse.1 hlater)

/-- A name stands for something exactly if a declaration that resolves lists it. -/
theorem isSome_meaning?_iff :
    (meaning? resolve declarations name).isSome = true ↔
      name ∈ FileSyntax.namesOf (resolvable resolve declarations) := by
  rw [FileSyntax.namesOf, List.mem_flatMap]
  constructor
  · intro h
    obtain ⟨file, hfile⟩ := Option.isSome_iff_exists.1 h
    obtain ⟨d, hd, hname, hresolve⟩ := exists_of_meaning? hfile
    exact ⟨d, List.mem_filter.2 ⟨hd, Option.isSome_of_eq_some hresolve⟩, hname⟩
  · rintro ⟨d, hd, hname⟩
    obtain ⟨hd, hresolve⟩ := List.mem_filter.1 hd
    exact isSome_meaning?_of_mem hd hname hresolve

theorem mem_names_ofDeclarations :
    name ∈ (ofDeclarations resolve declarations).names ↔
      name ∈ FileSyntax.namesOf (resolvable resolve declarations) := by
  rw [← isSome_get?, get?_ofDeclarations, Option.isSome_map, isSome_meaning?_iff]

theorem size_ofDeclarations (resolve : String → Option Path)
    (declarations : List ImportDeclaration) :
    (ofDeclarations resolve declarations).size =
      (FileSyntax.namesOf (resolvable resolve declarations)).toFinset.card := by
  have hnames : (FileSyntax.namesOf (resolvable resolve declarations)).toFinset =
      (ofDeclarations resolve declarations).names.toFinset := by
    ext name
    rw [List.mem_toFinset, List.mem_toFinset, mem_names_ofDeclarations]
  rw [hnames, List.toFinset_card_of_nodup (nodup_names_ofDeclarations resolve declarations), names,
    List.length_map, size]

/-- In the table of a file's declarations, a name is bound to the file of the last declaration that lists
it and resolves, and it is unbound if there is none. Each binding is found under its own name and no other,
the size counts the distinct names of the declarations that resolve, and leaving out the rest of them
changes nothing. -/
theorem last_resolvable_wins (files : FileSystem) (policy : ResolutionPolicy) (importer : Path)
    (declarations : List ImportDeclaration) :
    let resolve := (Resolution.resolve files policy · importer)
    let table := ofDeclarations resolve declarations
    (∀ name binding, table.get? name = some binding ↔
      binding.localName = name ∧ LastMeans resolve declarations name binding.file) ∧
    (∀ name, table.get? name = none ↔
      ∀ d ∈ declarations, name ∈ d.localNames → resolve d.specifier = none) ∧
    (∀ name binding, table.get? name = some binding ↔
      binding ∈ table.bindings ∧ binding.localName = name) ∧
    table.size = (FileSyntax.namesOf (resolvable resolve declarations)).toFinset.card ∧
    ofDeclarations resolve (resolvable resolve declarations) = table := by
  intro resolve table
  refine ⟨?_, ?_, ?_, size_ofDeclarations resolve declarations,
    ofDeclarations_resolvable resolve declarations⟩
  · intro name binding
    rw [get?_ofDeclarations, Option.map_eq_some_iff]
    constructor
    · rintro ⟨file, hfile, rfl⟩
      exact ⟨rfl, meaning?_eq_some_iff.1 hfile⟩
    · rintro ⟨rfl, hlast⟩
      exact ⟨binding.file, meaning?_eq_some_iff.2 hlast, rfl⟩
  · intro name
    rw [get?_ofDeclarations, Option.map_eq_none_iff, meaning?, List.findSome?_eq_none_iff]
    simp only [List.mem_reverse, ite_eq_right_iff]
  · intro name binding
    exact get?_eq_some_iff (nodup_names_ofDeclarations resolve declarations)

/-- A name that is listed three times, twice by one declaration and last by a package, is bound to the
file of the declaration between them. -/
theorem last_resolvable_wins_repeated :
    let files : FileSystem := ⟨[("a.ts", .file []), ("b.ts", .file [])], []⟩
    let resolve := (Resolution.resolve files .strict · ⟨"/main.ts"⟩)
    let declarations : List ImportDeclaration :=
      [⟨"./a", ["f", "g", "f"]⟩, ⟨"./b", ["f"]⟩, ⟨"lodash", ["f", "h"]⟩]
    let table := ofDeclarations resolve declarations
    table.get? "f" = some ⟨"f", ⟨"/b.ts"⟩⟩ ∧ table.get? "h" = none ∧
      ⟨"f", ⟨"/b.ts"⟩⟩ ∈ table.bindings ∧ table.size = 2 ∧
      ofDeclarations resolve [⟨"./a", ["f", "g", "f"]⟩, ⟨"./b", ["f"]⟩] = table := by
  intro files resolve declarations table
  have ha : Resolution.resolve files .strict "./a" ⟨"/main.ts"⟩ = some ⟨"/a.ts"⟩ := by
    have hfile : files.isFile ⟨"/a.ts"⟩ = true := by
      rw [FileSystem.isFile, FileSystem.find_top "a.ts" rfl (by decide) rfl]
    have hbase : Resolution.base? "./a" ⟨"/main.ts"⟩ = some ⟨"/a"⟩ := by decide
    exact Resolution.resolve_of_isFile (by decide) hbase hfile
  have hb : Resolution.resolve files .strict "./b" ⟨"/main.ts"⟩ = some ⟨"/b.ts"⟩ := by
    have hfile : files.isFile ⟨"/b.ts"⟩ = true := by
      rw [FileSystem.isFile, FileSystem.find_top "b.ts" rfl (by decide) rfl]
    have hbase : Resolution.base? "./b" ⟨"/main.ts"⟩ = some ⟨"/b"⟩ := by decide
    exact Resolution.resolve_of_isFile (by decide) hbase hfile
  have hpackage : Resolution.resolve files .strict "lodash" ⟨"/main.ts"⟩ = none := if_neg (by decide)
  have hkept : resolvable resolve declarations = [⟨"./a", ["f", "g", "f"]⟩, ⟨"./b", ["f"]⟩] := by
    simp [resolvable, declarations, resolve, ha, hb, hpackage]
  obtain ⟨hsome, hnone, hfound, hsize, hsame⟩ :=
    last_resolvable_wins files .strict ⟨"/main.ts"⟩ declarations
  have hf : table.get? "f" = some ⟨"f", ⟨"/b.ts"⟩⟩ := by
    refine (hsome _ _).2 ⟨rfl, [⟨"./a", ["f", "g", "f"]⟩], _, _, rfl, List.mem_singleton_self _, hb, ?_⟩
    simpa using hpackage
  refine ⟨hf, (hnone "h").2 ?_, ((hfound _ _).1 hf).1, ?_, ?_⟩
  · simpa [declarations] using hpackage
  · rw [hsize, hkept]
    decide
  · rw [← hkept, hsame]

end Dependents.ImportTable
