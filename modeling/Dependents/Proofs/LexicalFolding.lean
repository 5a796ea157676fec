import Dependents.Proofs.WrittenSteps

/-! Normal forms of paths, absolute and relative. Normalising works on a text; after each step that
text is the plain spelling of steps that were folded as a list. -/
namespace Dependents.Path

variable {p q : Path} {c : Component} {steps : List Component} {absolute : Bool}
  {first : List Char} {rest : List (List Char)}

/-- One more step after steps in normal form. A dot is dropped; a parent step cancels the name before it,
is dropped at the root and is kept otherwise. -/
def foldStep (steps : List Component) : Component → List Component
  | .root => [.root]
  | .current => steps
  | .parent =>
    match steps.getLast? with
    | some (.name _) => steps.dropLast
    | some .root => steps
    | _ => steps ++ [.parent]
  | .name text => steps ++ [.name text]

/-- Steps in normal form: names after the root, or after some steps up. -/
def IsNormal (absolute : Bool) (steps : List Component) : Prop :=
  ∃ ups names, AreNames names ∧
    steps = (if absolute then [.root] else List.replicate ups .parent) ++ names.map .name

namespace IsNormal

theorem nil : IsNormal false [] :=
  ⟨0, [], fun _ hmem => absurd hmem List.not_mem_nil, rfl⟩

theorem root : IsNormal true [.root] :=
  ⟨0, [], fun _ hmem => absurd hmem List.not_mem_nil, rfl⟩

theorem areSteps (h : IsNormal absolute steps) : AreSteps steps := by
  obtain ⟨ups, names, hnames, rfl⟩ := h
  have hplain := isPlain_of_areNames hnames
  cases absolute with
  | true => exact AreSteps.cons_root hplain
  | false =>
    apply AreSteps.of_plain
    intro c hc
    rcases List.mem_append.1 hc with hc | hc
    · rw [List.eq_of_mem_replicate hc]
      exact IsPlain.parent
    · exact hplain c hc

theorem current_not_mem (h : IsNormal absolute steps) : .current ∉ steps := by
  obtain ⟨ups, names, _, rfl⟩ := h
  intro hmem
  cases absolute <;> simp at hmem

theorem parent_not_mem (h : IsNormal true steps) : .parent ∉ steps := by
  obtain ⟨ups, names, _, rfl⟩ := h
  simp

theorem leading_ups (h : IsNormal false steps) :
    ∃ ups rest, steps = List.replicate ups .parent ++ rest ∧ .parent ∉ rest := by
  obtain ⟨ups, names, _, rfl⟩ := h
  exact ⟨ups, names.map .name, rfl, by simp⟩

end IsNormal

/-! One step, and then all steps. -/

theorem last?_written (h : AreSteps steps) : (written steps).last? = steps.getLast? := by
  rw [last?, components_written h]

/-- A parent step after a name goes back to what was written before it. -/
theorem fold_parent_name {text : String} (h : AreSteps (steps ++ [.name text])) (htext : IsName text) :
    (written (steps ++ [.name text])).fold .parent = written steps := by
  rw [fold, last?_written h, List.getLast?_concat]
  simp only [pop, parent?_written h (IsPlain.name htext), Option.getD_some]

theorem foldStep_parent_name (steps : List Component) (text : String) :
    foldStep (steps ++ [.name text]) .parent = steps := by
  simp [foldStep]

theorem fold_parent_root : (written [.root]).fold .parent = written [.root] := by
  rw [fold, last?_written AreSteps.root]
  rfl

/-- A parent step after nothing but such steps is kept. -/
theorem fold_parent_ups (ups : Nat) :
    (written (List.replicate ups .parent)).fold .parent =
      written (List.replicate (ups + 1) .parent) := by
  have hplain : ∀ c ∈ List.replicate ups Component.parent, IsPlain c := by
    intro c hc
    rw [List.eq_of_mem_replicate hc]
    exact IsPlain.parent
  have hsteps := AreSteps.of_plain hplain
  have hjoin := join_written hsteps IsPlain.parent
  rw [← List.replicate_succ'] at hjoin
  rw [← hjoin, fold, last?_written hsteps]
  cases ups with
  | zero => rfl
  | succ ups =>
    rw [List.replicate_succ', List.getLast?_concat]
    rfl

theorem foldStep_parent_ups (ups : Nat) :
    foldStep (List.replicate ups .parent) .parent = List.replicate (ups + 1) .parent := by
  rw [List.replicate_succ', foldStep]
  cases ups with
  | zero => rfl
  | succ ups =>
    rw [List.replicate_succ', List.getLast?_concat]

/-- The text follows the list by one step, and the normal form is kept. -/
theorem fold_written (h : IsNormal absolute steps) (hc : IsInner c) :
    (written steps).fold c = written (foldStep steps c) ∧ IsNormal absolute (foldStep steps c) := by
  have hsteps := h.areSteps
  obtain ⟨ups, names, hnames, rfl⟩ := h
  rcases hc with rfl | hc
  · exact ⟨rfl, ups, names, hnames, rfl⟩
  · cases hc with
    | @name text htext =>
      constructor
      · have hjoin := join_written hsteps (IsPlain.name htext)
        rwa [stepText, String.ofList_toList] at hjoin
      · refine ⟨ups, names ++ [text], hnames.concat htext, ?_⟩
        simp [foldStep]
    | parent =>
      -- What the step does is decided by the last step: a name, the root, or a step up.
      rcases List.eq_nil_or_concat' names with rfl | ⟨most, last, rfl⟩
      · cases absolute with
        | true => exact ⟨fold_parent_root, IsNormal.root⟩
        | false =>
          simp only [List.map_nil, List.append_nil, Bool.false_eq_true, if_false]
          rw [foldStep_parent_ups]
          exact ⟨fold_parent_ups ups, ups + 1, [], hnames, by simp⟩
      · rw [List.map_append, List.map_singleton, ← List.append_assoc] at hsteps ⊢
        rw [foldStep_parent_name]
        refine ⟨fold_parent_name hsteps (hnames last (by simp)), ups, most, ?_, rfl⟩
        intro name hname
        exact hnames name (List.mem_append_left _ hname)

theorem foldl_written {all : List Component} (h : IsNormal absolute steps)
    (hall : ∀ c ∈ all, IsInner c) :
    all.foldl fold (written steps) = written (all.foldl foldStep steps) ∧
      IsNormal absolute (all.foldl foldStep steps) := by
  induction all generalizing steps with
  | nil => exact ⟨rfl, h⟩
  | cons c all ih =>
    obtain ⟨hfold, hnormal⟩ := fold_written h (hall c List.mem_cons_self)
    rw [List.foldl_cons, hfold]
    exact ih hnormal fun c hc => hall c (List.mem_cons_of_mem _ hc)

/-- Steps in normal form are folded to themselves. -/
theorem IsNormal.foldl_foldStep (h : IsNormal absolute steps) : steps.foldl foldStep [] = steps := by
  have hnames : ∀ (names : List String) (before : List Component),
      (names.map Component.name).foldl foldStep before = before ++ names.map .name := by
    intro names
    induction names with
    | nil => simp
    | cons name names ih => simp [foldStep, ih]
  have hups : ∀ ups : Nat, (List.replicate ups Component.parent).foldl foldStep [] =
      List.replicate ups .parent := by
    intro ups
    induction ups with
    | zero => rfl
    | succ ups ih =>
      rw [List.replicate_succ', List.foldl_append, ih, List.foldl_cons, List.foldl_nil,
        foldStep_parent_ups, List.replicate_succ']
  obtain ⟨ups, names, _, rfl⟩ := h
  rw [List.foldl_append, hnames]
  cases absolute with
  | true => rfl
  | false => simp only [Bool.false_eq_true, if_false, hups]

/-! Normalising a path folds its steps. -/

theorem isInner_of_relative (h : p.isAbsolute = false) (hc : c ∈ p.components) : IsInner c := by
  obtain ⟨start, later, hsteps⟩ := List.exists_cons_of_ne_nil (List.ne_nil_of_mem hc)
  rw [hsteps] at hc
  rcases List.mem_cons.1 hc with rfl | hlater
  · rcases root_or_isInner_of_mem (p := p) (by rw [hsteps]; exact List.mem_cons_self) with rfl | hinner
    · rw [isAbsolute_iff.2 (by rw [hsteps]; rfl)] at h
      cases h
    · exact hinner
  · refine Or.inr (isPlain_of_mem_tail (p := p) ?_)
    rwa [hsteps]

theorem normalize_eq (p : Path) :
    p.normalize = written (p.components.foldl foldStep []) ∧
      IsNormal p.isAbsolute (p.components.foldl foldStep []) := by
  cases habs : p.isAbsolute with
  | true =>
    obtain ⟨later, hsteps⟩ := List.head?_eq_some_iff.1 (isAbsolute_iff.1 habs)
    have hlater : ∀ c ∈ later, IsInner c := by
      intro c hc
      refine Or.inr (isPlain_of_mem_tail (p := p) ?_)
      rwa [hsteps]
    rw [normalize, hsteps]
    exact foldl_written IsNormal.root hlater
  | false => exact foldl_written IsNormal.nil fun c hc => isInner_of_relative habs hc

theorem components_normalize (p : Path) :
    p.normalize.components = p.components.foldl foldStep [] := by
  obtain ⟨htext, hnormal⟩ := normalize_eq p
  rw [htext, components_written hnormal.areSteps]

/-! Joining. -/

theorem foldl_filter_current (all steps : List Component) :
    (all.filter (· ≠ .current)).foldl foldStep steps = all.foldl foldStep steps := by
  induction all generalizing steps with
  | nil => rfl
  | cons c all ih =>
    by_cases hc : c = .current
    · subst hc
      exact ih steps
    · rw [List.filter_cons_of_pos (by simpa using hc)]
      exact ih (foldStep steps c)

/-- At the start of a relative path a piece stands for what it stands for elsewhere, but for a dot. -/
theorem filter_firstComponent (h : p.isAbsolute = false) (hpieces : pieces p.text.toList = first :: rest) :
    (firstComponent first rest.isEmpty).toList.filter (· ≠ .current) = (innerComponent first).toList := by
  by_cases hempty : first = []
  · subst hempty
    cases rest with
    | nil => rfl
    | cons second rest =>
      have hhead : p.components.head? = some .root := by
        rw [components_of_pieces hpieces]
        rfl
      rw [isAbsolute_iff.2 hhead] at h
      cases h
  · by_cases hdot : first = ['.']
    · subst hdot
      rfl
    · rw [firstComponent, if_neg hempty, if_neg hdot]
      cases hstep : innerComponent first with
      | none => rfl
      | some c =>
        have hslash : '/' ∉ first := not_mem_of_mem_pieces (by rw [hpieces]; exact List.mem_cons_self)
        have hplain := isPlain_of_innerComponent hstep hslash
        simp [hplain.ne_current]

theorem filter_components (h : p.isAbsolute = false) :
    p.components.filter (· ≠ .current) = (pieces p.text.toList).filterMap innerComponent := by
  obtain ⟨first, rest, hpieces⟩ := exists_pieces p.text.toList
  have hrest : (rest.filterMap innerComponent).filter (· ≠ .current) =
      rest.filterMap innerComponent := by
    apply List.filter_eq_self.2
    intro c hc
    simpa using (isPlain_of_later hpieces hc).ne_current
  rw [components_of_pieces hpieces, List.filter_append, filter_firstComponent h hpieces, hrest, hpieces,
    List.filterMap_cons]
  cases innerComponent first <;> rfl

/-- Folding the steps of a join goes on from the steps of the first path with those of the second. -/
theorem foldl_join (p : Path) (h : q.isAbsolute = false) :
    (p.join q).components.foldl foldStep [] =
      q.components.foldl foldStep (p.components.foldl foldStep []) := by
  by_cases hp : p.text.toList = []
  · have hempty : p.text.isEmpty = true := by simpa using hp
    have hjoin : p.join q = q := by
      rw [join, h, if_neg Bool.false_ne_true, if_pos (Or.inl hempty)]
      apply eq_of_toList
      simp [hp]
    rw [hjoin, components_of_text_isEmpty hempty, List.foldl_nil]
  · obtain ⟨before, hspell, hbefore⟩ := spelling_append hp h
    have hsteps : (p.join q).components = p.components ++ q.components.filter (· ≠ .current) := by
      rw [components, hspell, List.filterMap_append, hbefore, List.filterMap_map, filter_components h]
      rfl
    rw [hsteps, List.foldl_append, foldl_filter_current]

/-! The normal form as a text. -/

theorem isAbsolute_normalize (p : Path) : p.normalize.isAbsolute = p.isAbsolute := by
  obtain ⟨htext, hnormal⟩ := normalize_eq p
  rw [Bool.eq_iff_iff, isAbsolute_iff, htext, components_written hnormal.areSteps]
  obtain ⟨ups, names, _, heq⟩ := hnormal
  rw [heq]
  cases p.isAbsolute with
  | true => simp
  | false => cases ups <;> cases names <;> simp [List.replicate_succ]

/-- Written steps have single slashes between them. -/
theorem not_doubled_written (h : AreSteps steps) : ¬ ['/', '/'] <:+: (written steps).text.toList := by
  rintro ⟨before, after, htext⟩
  rw [List.append_assoc, List.cons_append, List.singleton_append] at htext
  by_cases hne : steps = []
  · subst hne
    have hempty : (written []).text.toList = [] := by decide
    simp [hempty] at htext
  · by_cases hroot : steps = [.root]
    · subst hroot
      have hslash : (written [.root]).text.toList = ['/'] := by decide
      have hlength := congrArg List.length htext
      simp [hslash] at hlength
      omega
    · -- Between the two slashes lies an empty piece, which no step after the first is written as.
      have hpieces := pieces_written h hne hroot
      obtain ⟨first, rest, hbefore⟩ := exists_pieces before
      rw [← htext, pieces_append_slash, pieces_slash, hbefore] at hpieces
      have htail := congrArg List.tail hpieces
      rw [List.cons_append, List.tail_cons, ← List.map_tail] at htail
      have hmem : [] ∈ steps.tail.map stepText := by
        rw [← htail]
        simp
      obtain ⟨c, hc, hnil⟩ := List.mem_map.1 hmem
      exact (h.later c hc).ne_nil hnil

theorem normalize_normalize (p : Path) : p.normalize.normalize = p.normalize := by
  obtain ⟨htext, hnormal⟩ := normalize_eq p
  rw [(normalize_eq p.normalize).1, components_normalize, hnormal.foldl_foldStep, htext]

theorem normalize_join (p q : Path) : (p.normalize.join q).normalize = (p.join q).normalize := by
  by_cases hq : q.isAbsolute = true
  · rw [join, if_pos hq, join, if_pos hq]
  · rw [Bool.not_eq_true] at hq
    rw [(normalize_eq _).1, foldl_join _ hq, components_normalize, (normalize_eq p).2.foldl_foldStep,
      (normalize_eq (p.join q)).1, foldl_join p hq]

/-- The steps of a normal form are the folded steps of the path: no dots, parent steps only in front, and
none of them after the root. It is absolute if the path is, is written with single slashes and no slash at
its end, and is its own normal form. What is joined to it gives the same as what is joined to the path. -/
theorem normalize_folds (p : Path) :
    p.normalize.components = p.components.foldl foldStep [] ∧
    .current ∉ p.normalize.components ∧
    (p.isAbsolute = true → .parent ∉ p.normalize.components) ∧
    (p.isAbsolute = false → ∃ ups rest, p.normalize.components = List.replicate ups .parent ++ rest ∧
      .parent ∉ rest) ∧
    p.normalize.isAbsolute = p.isAbsolute ∧
    ¬ ['/', '/'] <:+: p.normalize.text.toList ∧
    (p.normalize.text.toList.getLast? = some '/' → p.normalize = ⟨"/"⟩) ∧
    p.normalize.normalize = p.normalize ∧
    ∀ q, (p.normalize.join q).normalize = (p.join q).normalize := by
  obtain ⟨htext, hnormal⟩ := normalize_eq p
  have hsteps := hnormal.areSteps
  refine ⟨components_normalize p, ?_, ?_, ?_, isAbsolute_normalize p, ?_, ?_, normalize_normalize p,
    normalize_join p⟩
  · rw [components_normalize]
    exact hnormal.current_not_mem
  · intro habs
    rw [habs] at hnormal
    rw [components_normalize]
    exact hnormal.parent_not_mem
  · intro hrel
    rw [hrel] at hnormal
    rw [components_normalize]
    exact hnormal.leading_ups
  · rw [htext]
    exact not_doubled_written hsteps
  · intro hslash
    rw [htext] at hslash ⊢
    by_cases hroot : p.components.foldl foldStep [] = [.root]
    · rw [hroot]
      rfl
    · exact absurd hslash (getLast?_written hsteps hroot)

/-- Below the start of a relative path a parent step cancels a name or is kept, and joining goes on from
there. At the root it is dropped, and the slash at the end of the normal form is the root itself. -/
theorem normalize_folds_upwards :
    let p : Path := ⟨"a/.././../b//./c/"⟩
    let root : Path := ⟨"/x/../.."⟩
    (p.isAbsolute = false ∧ p.normalize = ⟨"../b/c"⟩ ∧
      (∃ ups rest, p.normalize.components = List.replicate ups .parent ++ rest ∧ .parent ∉ rest) ∧
      (p.normalize.join ⟨"./../../../d"⟩).normalize = (p.join ⟨"./../../../d"⟩).normalize ∧
      (p.join ⟨"./../../../d"⟩).normalize = ⟨"../../d"⟩) ∧
    root.isAbsolute = true ∧ .parent ∉ root.normalize.components ∧
      root.normalize.text.toList.getLast? = some '/' ∧ root.normalize = ⟨"/"⟩ := by
  intro p root
  have hrel : p.isAbsolute = false := by decide
  have habs : root.isAbsolute = true := by decide
  have hslash : root.normalize.text.toList.getLast? = some '/' := by decide +kernel
  obtain ⟨_, _, _, hups, _, _, _, _, hjoin⟩ := normalize_folds p
  obtain ⟨_, _, hnone, _, _, _, hroot, _⟩ := normalize_folds root
  refine ⟨⟨hrel, by decide +kernel, hups hrel, hjoin _, by decide +kernel⟩, habs, hnone habs, hslash, ?_⟩
  exact hroot hslash

end Dependents.Path
