import Dependents.Proofs.LexicalFolding

/-! Absolute paths in normal form. Each spells a list of names, and on such paths joining, taking the
parent and normalising are operations on the lists. -/
namespace Dependents.Path

variable {p q : Path} {name : String} {names names' : List String} {c : Component}
  {steps : List Component}

/-- What the names of an absolute path stand for. -/
def rooted (names : List String) : List Component :=
  .root :: names.map .name

theorem AreNames.areSteps (h : AreNames names) : AreSteps (rooted names) := by
  exact AreSteps.cons_root (isPlain_of_areNames h)

theorem rooted_concat (names : List String) (name : String) :
    rooted (names ++ [name]) = rooted names ++ [.name name] := by
  simp [rooted]

theorem rooted_injective : Function.Injective rooted := by
  intro names names' heq
  exact List.map_injective_iff.2 (fun _ _ => Component.name.inj) (List.cons.inj heq).2

theorem intercalate_names (piece : List Char) (names : List String) :
    ['/'].intercalate (piece :: names.map (·.toList)) =
      piece ++ names.flatMap fun name => '/' :: name.toList := by
  induction names generalizing piece with
  | nil => simp [List.intercalate]
  | cons name names ih =>
    rw [List.map_cons, List.intercalate_cons_of_ne_nil (List.cons_ne_nil _ _), ih]
    simp

theorem ofNames_of_ne_nil (h : names ≠ []) :
    ofNames names = ⟨String.join (names.map ("/" ++ ·))⟩ := by
  cases names with
  | nil => exact absurd rfl h
  | cons name names => rfl

/-- The names of an absolute path are written after the root. -/
theorem ofNames_eq (names : List String) : ofNames names = written (rooted names) := by
  cases names with
  | nil => rfl
  | cons name names =>
    apply eq_of_toList
    have hpieces : (rooted (name :: names)).map stepText = [] :: (name :: names).map (·.toList) := by
      simp [rooted, stepText, Function.comp_def]
    rw [toList_written (by simp [rooted]), hpieces, intercalate_names,
      ofNames_of_ne_nil (List.cons_ne_nil _ _)]
    simp [List.flatMap_map]

theorem components_ofNames (h : AreNames names) :
    (ofNames names).components = .root :: names.map .name := by
  rw [ofNames_eq, components_written h.areSteps]
  rfl

theorem steps_ofNames (h : AreNames names) (hne : names ≠ []) :
    (ofNames names).steps = .root :: names.map .name := by
  obtain ⟨most, last, rfl⟩ := (List.eq_nil_or_concat' names).resolve_left hne
  have hask : (ofNames (most ++ [last])).asksDirectory = false := by
    rw [asksDirectory, ofNames_eq, spelling_written h.areSteps (List.cons_ne_nil _ _) (by simp [rooted]),
      rooted_concat, List.map_append, List.map_singleton, List.getLast?_concat]
    rfl
  rw [Path.steps, hask, components_ofNames h]
  simp

theorem text_ofNames_ne_empty (h : AreNames names) : (ofNames names).text.isEmpty = false := by
  apply text_isEmpty_of_ne_nil
  rw [components_ofNames h]
  exact List.cons_ne_nil _ _

/-- Different names are spelled differently. -/
theorem ofNames_inj (h : AreNames names) (h' : AreNames names')
    (hsame : (ofNames names).components = (ofNames names').components) : names = names' := by
  rw [components_ofNames h, components_ofNames h'] at hsame
  exact rooted_injective hsame

theorem join_ofNames (h : AreNames names) (hname : IsName name) :
    (ofNames names).join ⟨name⟩ = ofNames (names ++ [name]) := by
  have hjoin := join_written h.areSteps (IsPlain.name hname)
  rwa [stepText, String.ofList_toList, ← rooted_concat, ← ofNames_eq, ← ofNames_eq] at hjoin

theorem parent?_ofNames (h : AreNames (names ++ [name])) :
    (ofNames (names ++ [name])).parent? = some (ofNames names) := by
  have hsteps := h.areSteps
  rw [rooted_concat] at hsteps
  have hname : IsName name := h name (by simp)
  rw [ofNames_eq, rooted_concat, parent?_written hsteps (IsPlain.name hname), ofNames_eq]

/-- Where a step leads from some names, without a look at any file system. -/
def lexicalStep (names : List String) : Component → List String
  | .root => []
  | .current => names
  | .parent => names.dropLast
  | .name name => names ++ [name]

theorem foldStep_rooted (names : List String) (c : Component) :
    foldStep (rooted names) c = rooted (lexicalStep names c) := by
  cases c with
  | root => rfl
  | current => rfl
  | parent =>
    rcases List.eq_nil_or_concat' names with rfl | ⟨most, last, rfl⟩
    · rfl
    · rw [rooted_concat, foldStep_parent_name, lexicalStep, List.dropLast_concat]
  | name name => exact (rooted_concat names name).symm

theorem foldl_rooted (steps : List Component) (names : List String) :
    steps.foldl foldStep (rooted names) = rooted (steps.foldl lexicalStep names) := by
  induction steps generalizing names with
  | nil => rfl
  | cons c steps ih => rw [List.foldl_cons, foldStep_rooted, ih, List.foldl_cons]

/-- The names among the steps of a path are names. -/
theorem isName_of_mem_components (h : .name name ∈ p.components) : IsName name := by
  rcases root_or_isInner_of_mem h with hroot | hcurrent | hplain
  · cases hroot
  · cases hcurrent
  · cases hplain with
    | name hname => exact hname

theorem isAbsolute_ofNames (names : List String) : (ofNames names).isAbsolute = true := by
  cases names with
  | nil => decide
  | cons name names => simp [ofNames, isAbsolute]

/-- What is joined to an absolute path gives one. -/
theorem isAbsolute_join (h : p.isAbsolute = true) (q : Path) : (p.join q).isAbsolute = true := by
  unfold join
  split
  · assumption
  · rw [isAbsolute, beq_iff_eq] at h
    split <;> simp [isAbsolute, h]

/-- The parent of an absolute path is absolute. -/
theorem isAbsolute_parent? (h : p.isAbsolute = true) (hq : p.parent? = some q) :
    q.isAbsolute = true := by
  obtain ⟨c, hc, hne⟩ := components_parent? hq
  rw [isAbsolute_iff, hc] at h
  rw [isAbsolute_iff]
  cases hcs : q.components with
  | nil =>
    rw [hcs] at h
    exact absurd (Option.some.inj h) hne
  | cons first rest =>
    rw [hcs] at h
    exact h

/-- An absolute path is normalised to the names that its steps lead to. -/
theorem normalize_of_absolute (h : p.isAbsolute = true) :
    p.normalize = ofNames (p.components.foldl lexicalStep []) ∧
      AreNames (p.components.foldl lexicalStep []) := by
  obtain ⟨steps, hsteps⟩ := List.head?_eq_some_iff.1 (isAbsolute_iff.1 h)
  have hfold : p.components.foldl foldStep [] = rooted (p.components.foldl lexicalStep []) := by
    rw [hsteps]
    exact foldl_rooted steps []
  obtain ⟨htext, ups, names, hnames, heq⟩ := normalize_eq p
  rw [h, hfold] at heq
  have hsame : p.components.foldl lexicalStep [] = names := by
    apply rooted_injective
    exact heq
  refine ⟨?_, ?_⟩
  · rw [htext, hfold, ofNames_eq]
  · rwa [hsame]

/-- A path in normal form is its own normal form. -/
theorem normalize_ofNames (h : AreNames names) : (ofNames names).normalize = ofNames names := by
  have hnormal : IsNormal true (rooted names) := ⟨0, names, h, rfl⟩
  rw [(normalize_eq _).1, components_ofNames h]
  change written ((rooted names).foldl foldStep []) = _
  rw [hnormal.foldl_foldStep, ofNames_eq]

/-- An absolute path in normal form that ends in a name. -/
def Straight (p : Path) : Prop :=
  ∃ names, names ≠ [] ∧ AreNames names ∧ p = ofNames names

/-- Straight paths are the same only if they are spelled the same. -/
theorem Straight.eq_of_components (hp : p.Straight) (hq : q.Straight)
    (h : p.components = q.components) : p = q := by
  obtain ⟨names, _, hnames, rfl⟩ := hp
  obtain ⟨names', _, hnames', rfl⟩ := hq
  rw [ofNames_inj hnames hnames' h]

theorem straight_join (h : AreNames names) (hname : IsName name) :
    ((ofNames names).join ⟨name⟩).Straight :=
  ⟨names ++ [name], by simp, h.concat hname, join_ofNames h hname⟩

/-- A suffix goes to the last name, or makes a name of its own at the root. -/
theorem withSuffix_ofNames (names : List String) (suffix : String) : ∃ most last,
    (ofNames names).withSuffix suffix = ofNames (most ++ [last ++ suffix]) ∧
      (names = [] ∧ most = [] ∧ last = "" ∨ names = most ++ [last]) := by
  rcases List.eq_nil_or_concat' names with rfl | ⟨most, last, rfl⟩
  · exact ⟨[], "", by simp [withSuffix, ofNames], .inl ⟨rfl, rfl, rfl⟩⟩
  · refine ⟨most, last, ?_, .inr rfl⟩
    rw [withSuffix, ofNames_of_ne_nil (by simp), ofNames_of_ne_nil (by simp)]
    simp [String.append_assoc]

/-- A suffix makes a name of the last name, or of nothing at the root. -/
theorem names_withSuffix {suffix : String} (h : AreNames names) (hslash : '/' ∉ suffix.toList)
    (hlong : 2 < suffix.toList.length) :
    ∃ most last, (ofNames names).withSuffix suffix = ofNames (most ++ [last ++ suffix]) ∧
      AreNames (most ++ [last ++ suffix]) ∧
        (names = [] ∧ most = [] ∧ last = "" ∨ names = most ++ [last]) := by
  obtain ⟨most, last, htext, hcases⟩ := withSuffix_ofNames names suffix
  have hmost : AreNames most ∧ '/' ∉ last.toList := by
    rcases hcases with ⟨_, rfl, rfl⟩ | rfl
    · exact ⟨fun _ hmem => absurd hmem List.not_mem_nil, by simp⟩
    · exact ⟨fun name hname => h name (List.mem_append_left _ hname), (h last (by simp)).no_slash⟩
  have hname : IsName (last ++ suffix) := by
    apply isName_of_long
    · rw [String.toList_append, List.length_append]
      omega
    · rw [String.toList_append, List.mem_append, not_or]
      exact ⟨hmost.2, hslash⟩
  exact ⟨most, last, htext, hmost.1.concat hname, hcases⟩

theorem straight_withSuffix {suffix : String} (h : AreNames names) (hslash : '/' ∉ suffix.toList)
    (hlong : 2 < suffix.toList.length) : ((ofNames names).withSuffix suffix).Straight := by
  obtain ⟨most, last, htext, hnames, _⟩ := names_withSuffix h hslash hlong
  exact ⟨_, by simp, hnames, htext⟩

end Dependents.Path
