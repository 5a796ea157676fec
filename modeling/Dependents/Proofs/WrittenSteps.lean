import Dependents.Path.Normal
import Dependents.Proofs.PathSteps
import Mathlib.Data.List.Basic

/-! Steps written out with single slashes. Such a text is read back as the steps it was written from, and
joining a step or taking the parent changes the steps alone. -/
namespace Dependents.Path

variable {p : Path} {c : Component} {steps : List Component} {piece : List Char}
  {ps : List (List Char)} {name : String} {names : List String}

/-- How a step is written between slashes. The root is the slash after it. -/
def stepText : Component → List Char
  | .root => []
  | .current => ['.']
  | .parent => ['.', '.']
  | .name text => text.toList

/-- The path that takes some steps, written with single slashes. -/
def written (steps : List Component) : Path :=
  ofSpelling (steps.map fun c => (stepText c, some c))

/-- A step that is read back as itself wherever it stands. -/
inductive IsPlain : Component → Prop
  | parent : IsPlain .parent
  | name {text : String} (h : IsName text) : IsPlain (.name text)

namespace IsPlain

theorem no_slash (h : IsPlain c) : '/' ∉ stepText c := by
  cases h with
  | parent => decide
  | name h => exact h.no_slash

theorem ne_nil (h : IsPlain c) : stepText c ≠ [] := by
  cases h with
  | parent => exact List.cons_ne_nil _ _
  | name h => exact h.ne_nil

theorem innerComponent (h : IsPlain c) : innerComponent (stepText c) = some c := by
  cases h with
  | parent => rfl
  | name h => exact h.innerComponent

theorem firstComponent (h : IsPlain c) (last : Bool) : firstComponent (stepText c) last = some c := by
  cases h with
  | parent => rfl
  | name h => exact h.firstComponent last

theorem ne_current (h : IsPlain c) : c ≠ .current := by
  rintro rfl
  cases h

theorem concat_ne_root (h : IsPlain c) (steps : List Component) : steps ++ [c] ≠ [.root] := by
  intro heq
  have hlast := congrArg List.getLast? heq
  rw [List.getLast?_concat] at hlast
  cases Option.some.inj hlast
  cases h

end IsPlain

/-- Names that are read back as themselves. -/
def AreNames (names : List String) : Prop :=
  ∀ name ∈ names, IsName name

theorem AreNames.concat (h : AreNames names) (hname : IsName name) : AreNames (names ++ [name]) := by
  intro other hother
  rcases List.mem_append.1 hother with hother | hother
  · exact h other hother
  · rw [List.mem_singleton.1 hother]
    exact hname

theorem isPlain_of_areNames (h : AreNames names) :
    ∀ c ∈ names.map Component.name, IsPlain c := by
  intro c hc
  obtain ⟨name, hname, rfl⟩ := List.mem_map.1 hc
  exact IsPlain.name (h name hname)

/-- A step other than the root. -/
def IsInner (c : Component) : Prop :=
  c = .current ∨ IsPlain c

/-! What the pieces of a text stand for. -/

theorem isPlain_of_innerComponent (h : innerComponent piece = some c) (hslash : '/' ∉ piece) :
    IsPlain c := by
  unfold innerComponent at h
  split at h
  · cases h
  · rename_i hsilent
    rw [not_or] at hsilent
    split at h
    · cases h
      exact IsPlain.parent
    · rename_i hdots
      cases h
      apply IsPlain.name
      constructor <;> rw [String.toList_ofList]
      · exact hsilent.1
      · exact hslash
      · exact hsilent.2
      · exact hdots

theorem root_or_isInner_of_firstComponent {last : Bool} (h : firstComponent piece last = some c)
    (hslash : '/' ∉ piece) : c = .root ∨ IsInner c := by
  unfold firstComponent at h
  split at h
  · split at h <;> cases h
    exact Or.inl rfl
  · split at h
    · cases h
      exact Or.inr (Or.inl rfl)
    · exact Or.inr (Or.inr (isPlain_of_innerComponent h hslash))

theorem components_of_pieces (h : pieces p.text.toList = piece :: ps) :
    p.components = (firstComponent piece ps.isEmpty).toList ++ ps.filterMap innerComponent := by
  rw [components_eq, h, spell, List.filterMap_cons, List.filterMap_map]
  cases firstComponent piece ps.isEmpty <;> rfl

theorem isPlain_of_later (h : pieces p.text.toList = piece :: ps)
    (hc : c ∈ ps.filterMap innerComponent) : IsPlain c := by
  obtain ⟨later, hlater, hstep⟩ := List.mem_filterMap.1 hc
  have hmem : later ∈ pieces p.text.toList := by
    rw [h]
    exact List.mem_cons_of_mem piece hlater
  exact isPlain_of_innerComponent hstep (not_mem_of_mem_pieces hmem)

/-- After its start a path takes plain steps. -/
theorem isPlain_of_mem_tail (h : c ∈ p.components.tail) : IsPlain c := by
  obtain ⟨first, rest, hpieces⟩ := exists_pieces p.text.toList
  apply isPlain_of_later hpieces
  rw [components_of_pieces hpieces] at h
  cases hfirst : firstComponent first rest.isEmpty with
  | none =>
    rw [hfirst] at h
    exact List.mem_of_mem_tail h
  | some step =>
    rw [hfirst] at h
    exact h

theorem root_or_isInner_of_mem (h : c ∈ p.components) : c = .root ∨ IsInner c := by
  obtain ⟨first, rest, hpieces⟩ := exists_pieces p.text.toList
  rw [components_of_pieces hpieces] at h
  rcases List.mem_append.1 h with h | h
  · have hmem : first ∈ pieces p.text.toList := by
      rw [hpieces]
      exact List.mem_cons_self
    exact root_or_isInner_of_firstComponent (Option.mem_toList.1 h) (not_mem_of_mem_pieces hmem)
  · exact Or.inr (Or.inr (isPlain_of_later hpieces h))

/-- A path is absolute when its first step is the root. -/
theorem isAbsolute_iff : p.isAbsolute = true ↔ p.components.head? = some .root := by
  rw [isAbsolute, beq_iff_eq, components_eq]
  cases htext : p.text.toList with
  | nil => simp [pieces, spell, firstComponent]
  | cons c cs =>
    by_cases hc : c = '/'
    · subst hc
      rw [pieces_slash, spell, List.isEmpty_eq_false_iff.2 (pieces_ne_nil cs)]
      simp [firstComponent]
    · obtain ⟨first, rest, hpieces⟩ := exists_pieces cs
      rw [pieces_cons hc hpieces, spell]
      by_cases hdot : c :: first = ['.']
      · simp [firstComponent, hdot, hc]
      · by_cases hdots : c :: first = ['.', '.']
        · simp [firstComponent, innerComponent, hdots, hc]
        · simp [firstComponent, innerComponent, hdot, hdots, hc]

/-! Steps as texts. -/

/-- Steps that can be written: plain ones, the first of which may be the root. -/
structure AreSteps (steps : List Component) : Prop where
  first : ∀ c ∈ steps.head?, c = .root ∨ IsPlain c
  later : ∀ c ∈ steps.tail, IsPlain c

namespace AreSteps

theorem root : AreSteps [.root] := by
  constructor <;> simp

theorem cons_root (h : ∀ c ∈ steps, IsPlain c) : AreSteps (.root :: steps) :=
  ⟨by simp, h⟩

theorem of_plain (h : ∀ c ∈ steps, IsPlain c) : AreSteps steps where
  first c hc := Or.inr (h c (List.mem_of_head? hc))
  later c hc := h c (List.mem_of_mem_tail hc)

theorem no_slash (h : AreSteps steps) : ∀ piece ∈ steps.map stepText, '/' ∉ piece := by
  intro piece hpiece
  obtain ⟨c, hc, rfl⟩ := List.mem_map.1 hpiece
  cases steps with
  | nil => cases hc
  | cons first later =>
    rcases List.mem_cons.1 hc with rfl | hc
    · rcases h.first c rfl with rfl | hplain
      · simp [stepText]
      · exact hplain.no_slash
    · exact (h.later c hc).no_slash

end AreSteps

/-- But for the root, steps are written as their pieces with slashes between them. -/
theorem toList_written (hroot : steps ≠ [.root]) :
    (written steps).text.toList = ['/'].intercalate (steps.map stepText) := by
  rw [written, ofSpelling]
  · simp [Function.comp_def]
  · intro piece hspelled
    obtain ⟨c, rfl, hc⟩ := List.map_eq_singleton_iff.1 hspelled
    rw [Option.some.inj (Prod.mk.inj hc).2] at hroot
    exact hroot rfl

theorem pieces_written (h : AreSteps steps) (hne : steps ≠ []) (hroot : steps ≠ [.root]) :
    pieces (written steps).text.toList = steps.map stepText := by
  rw [toList_written hroot]
  exact pieces_intercalate (by simpa using hne) h.no_slash

theorem spelling_written (h : AreSteps steps) (hne : steps ≠ []) (hroot : steps ≠ [.root]) :
    (written steps).spelling = steps.map fun c => (stepText c, some c) := by
  rw [spelling_eq, pieces_written h hne hroot]
  obtain ⟨first, later, rfl⟩ := List.exists_cons_of_ne_nil hne
  have hfirst : firstComponent (stepText first) (later.map stepText).isEmpty = some first := by
    rcases h.first first rfl with rfl | hplain
    · cases later with
      | nil => exact absurd rfl hroot
      | cons second later => rfl
    · exact hplain.firstComponent _
  have hlater : ∀ c ∈ later, (stepText c, innerComponent (stepText c)) = (stepText c, some c) := by
    intro c hc
    rw [(h.later c hc).innerComponent]
  rw [List.map_cons, spell, hfirst, List.map_map, List.map_cons]
  exact congrArg _ (List.map_congr_left hlater)

/-- Written steps are read back. -/
theorem components_written (h : AreSteps steps) : (written steps).components = steps := by
  by_cases hne : steps = []
  · subst hne
    rfl
  · by_cases hroot : steps = [.root]
    · subst hroot
      exact components_root
    · rw [components, spelling_written h hne hroot]
      simp [List.filterMap_map]

theorem parent?_written (h : AreSteps (steps ++ [c])) (hc : IsPlain c) :
    (written (steps ++ [c])).parent? = some (written steps) := by
  have htrim : trimEnd (steps.map fun c => (stepText c, some c)) =
      steps.map fun c => (stepText c, some c) := by
    rcases List.eq_nil_or_concat' steps with rfl | ⟨most, last, rfl⟩
    · rfl
    · simp [trimEnd, silent]
  rw [parent?, spelling_written h (by simp) (hc.concat_ne_root steps), List.map_append,
    List.map_singleton, List.reverse_concat, List.dropWhile_cons_of_neg (by simp [silent])]
  cases hc <;> simp only [List.reverse_reverse, htrim, written]

/-- A written path other than the root does not end in a slash. -/
theorem getLast?_written (h : AreSteps steps) (hroot : steps ≠ [.root]) :
    (written steps).text.toList.getLast? ≠ some '/' := by
  intro hslash
  obtain ⟨cs, hcs⟩ := List.getLast?_eq_some_iff.1 hslash
  by_cases hne : steps = []
  · subst hne
    have hempty : (written []).text.toList = [] := by decide
    rw [hempty] at hslash
    cases hslash
  · -- The last piece would be empty, but only the root is written as an empty piece.
    have hpieces := pieces_written h hne hroot
    obtain ⟨most, last, rfl⟩ := (List.eq_nil_or_concat' steps).resolve_left hne
    rw [hcs, pieces_append_slash, List.map_append, List.map_singleton] at hpieces
    have hlast : [] = stepText last := List.singleton_inj.1 (List.append_inj_right' hpieces rfl)
    cases most with
    | nil =>
      rcases h.first last rfl with rfl | hplain
      · exact hroot rfl
      · exact hplain.ne_nil hlast.symm
    | cons first most =>
      have hplain : IsPlain last := h.later last (by simp)
      exact hplain.ne_nil hlast.symm

theorem intercalate_concat (hne : ps ≠ []) (piece : List Char) :
    ['/'].intercalate (ps ++ [piece]) = ['/'].intercalate ps ++ '/' :: piece := by
  induction ps with
  | nil => exact absurd rfl hne
  | cons first rest ih =>
    cases rest with
    | nil => simp [List.intercalate]
    | cons second rest =>
      rw [List.cons_append, List.intercalate_cons_of_ne_nil (by simp), ih (List.cons_ne_nil _ _),
        List.intercalate_cons_of_ne_nil (List.cons_ne_nil _ _)]
      simp

theorem eq_of_toList {p q : Path} (h : p.text.toList = q.text.toList) : p = q :=
  congrArg Path.mk (String.toList_inj.1 h)

theorem join_written (h : AreSteps steps) (hc : IsPlain c) :
    (written steps).join ⟨String.ofList (stepText c)⟩ = written (steps ++ [c]) := by
  have hrel : isAbsolute ⟨String.ofList (stepText c)⟩ = false := by
    apply isAbsolute_of_not_mem
    rw [String.toList_ofList]
    exact hc.no_slash
  rw [join, hrel, if_neg Bool.false_ne_true]
  apply eq_of_toList
  rw [toList_written (hc.concat_ne_root steps), List.map_append, List.map_singleton]
  by_cases hne : steps = []
  · subst hne
    have hempty : (written []).text = "" := by decide
    simp [hempty, List.intercalate]
  · by_cases hroot : steps = [.root]
    · subst hroot
      have hslash : (written [.root]).text = "/" := by decide
      have hlast : "/".toList.getLast? = some '/' := by decide
      rw [hslash, if_pos (Or.inr hlast)]
      simp [List.intercalate, stepText]
    · have hsteps : (written steps).components ≠ [] := by rwa [components_written h]
      have hempty := text_isEmpty_of_ne_nil hsteps
      have hlast := getLast?_written h hroot
      have hjoin : ¬ ((written steps).text.isEmpty = true ∨
          (written steps).text.toList.getLast? = some '/') := by
        rw [hempty, not_or]
        exact ⟨Bool.false_ne_true, hlast⟩
      rw [if_neg hjoin, intercalate_concat (by simpa using hne), ← toList_written hroot]
      simp

end Dependents.Path
