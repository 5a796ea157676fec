import Dependents.FileSyntax
import Dependents.ImportTable
import Mathlib.Data.List.Induction

/-! What an import table binds: for each name, the file of the last declaration that lists the name
and resolves. -/
namespace Dependents.ImportTable

variable {resolve : String → Option Path} {table : ImportTable} {name : String}

/-- The file that a name stands for after some declarations. -/
def meaning? (resolve : String → Option Path) (declarations : List ImportDeclaration)
    (name : String) : Option Path :=
  declarations.reverse.findSome? fun d => if name ∈ d.localNames then resolve d.specifier else none

theorem get?_insert (table : ImportTable) (binding : ImportBinding) (name : String) :
    (table.insert binding).get? name =
      if binding.localName = name then some binding else table.get? name := by
  simp only [insert, get?, List.find?_cons, List.find?_filter]
  by_cases h : binding.localName = name
  · simp [h]
  · rw [if_neg h, beq_false_of_ne h]
    refine congrArg (fun p => List.find? p table.bindings) (funext fun b => ?_)
    by_cases hb : b.localName = name
    · simp [hb, Ne.symm h]
    · simp [hb]

theorem get?_insertAll (file : Path) (names : List String) (table : ImportTable) (name : String) :
    (names.foldl (fun table n => table.insert ⟨n, file⟩) table).get? name =
      if name ∈ names then some ⟨name, file⟩ else table.get? name := by
  induction names generalizing table with
  | nil => simp
  | cons n names ih =>
    rw [List.foldl_cons, ih, get?_insert]
    by_cases hmem : name ∈ names
    · simp [hmem]
    · by_cases hn : n = name
      · simp [hn]
      · simp [hmem, hn, Ne.symm hn]

theorem get?_declare (resolve : String → Option Path) (table : ImportTable)
    (d : ImportDeclaration) (name : String) :
    (declare resolve table d).get? name =
      ((if name ∈ d.localNames then resolve d.specifier else none).map (⟨name, ·⟩)).or
        (table.get? name) := by
  unfold declare
  cases resolve d.specifier with
  | none => simp
  | some file =>
    simp only [get?_insertAll]
    split <;> simp

/-- A name is bound to the file of the last declaration that lists it and resolves. -/
theorem get?_ofDeclarations (resolve : String → Option Path)
    (declarations : List ImportDeclaration) (name : String) :
    (ofDeclarations resolve declarations).get? name =
      (meaning? resolve declarations name).map (⟨name, ·⟩) := by
  induction declarations using List.reverseRecOn with
  | nil => rfl
  | append_singleton ds d ih =>
    unfold ofDeclarations at ih ⊢
    rw [List.foldl_append, List.foldl_cons, List.foldl_nil, get?_declare, ih]
    simp only [meaning?, List.reverse_append, List.reverse_singleton, List.singleton_append,
      List.findSome?_cons]
    cases (if name ∈ d.localNames then resolve d.specifier else none) <;> rfl

/-- What a name stands for comes from a declaration that lists it. -/
theorem exists_of_meaning? {declarations : List ImportDeclaration} {file : Path}
    (h : meaning? resolve declarations name = some file) :
    ∃ d ∈ declarations, name ∈ d.localNames ∧ resolve d.specifier = some file := by
  obtain ⟨d, hd, hfile⟩ := List.exists_of_findSome?_eq_some h
  split at hfile
  · rename_i hname
    exact ⟨d, List.mem_reverse.1 hd, hname, hfile⟩
  · cases hfile

/-- Only names that some declaration lists stand for anything. -/
theorem mem_namesOf_of_meaning? {declarations : List ImportDeclaration} {file : Path}
    (h : meaning? resolve declarations name = some file) :
    name ∈ FileSyntax.namesOf declarations := by
  obtain ⟨d, hd, hname, _⟩ := exists_of_meaning? h
  exact List.mem_flatMap.2 ⟨d, hd, hname⟩

/-- A name that a declaration lists stands for something if the declaration resolves. -/
theorem isSome_meaning?_of_mem {declarations : List ImportDeclaration} {d : ImportDeclaration}
    (hd : d ∈ declarations) (hname : name ∈ d.localNames) (h : (resolve d.specifier).isSome = true) :
    (meaning? resolve declarations name).isSome = true := by
  rw [meaning?, List.findSome?_isSome_iff]
  refine ⟨d, List.mem_reverse.2 hd, ?_⟩
  rwa [if_pos hname]

/-- The edge of a call, with the file it leads to, from the meaning of its callee. -/
theorem edge?_ofDeclarations (declarations : List ImportDeclaration) (dependent : Path)
    (site : CallSite) :
    (ofDeclarations resolve declarations).edge? dependent site =
      (meaning? resolve declarations site.callee).map fun file =>
        (file, ⟨dependent, site.position, site.callee, site.caller⟩) := by
  rw [edge?, get?_ofDeclarations, Option.map_map]
  rfl

end Dependents.ImportTable
