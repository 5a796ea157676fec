import Dependents.FileSystem.Basic
import Mathlib.Data.List.TakeWhile

/-! How joining a name and taking the parent act on the steps of a path. Texts are cut at their
slashes, so both are facts about lists of pieces. -/
namespace Dependents.Path

variable {p q : Path} {name : String} {cs piece : List Char} {ps : List (List Char)}

theorem pieces_ne_nil (cs : List Char) : pieces cs ≠ [] := by
  cases cs with
  | nil => simp [pieces]
  | cons c cs =>
    unfold pieces
    split
    · exact List.cons_ne_nil _ _
    · split <;> exact List.cons_ne_nil _ _

theorem pieces_slash (cs : List Char) : pieces ('/' :: cs) = [] :: pieces cs := by
  simp [pieces]

theorem pieces_cons {c : Char} (h : c ≠ '/') {first : List Char} {rest : List (List Char)}
    (hcs : pieces cs = first :: rest) : pieces (c :: cs) = (c :: first) :: rest := by
  simp [pieces, h, hcs]

theorem exists_pieces (cs : List Char) : ∃ first rest, pieces cs = first :: rest :=
  List.exists_cons_of_ne_nil (pieces_ne_nil cs)

theorem pieces_append_slash (as bs : List Char) :
    pieces (as ++ '/' :: bs) = pieces as ++ pieces bs := by
  induction as with
  | nil => exact pieces_slash bs
  | cons a as ih =>
    by_cases ha : a = '/'
    · subst ha
      rw [List.cons_append, pieces_slash, pieces_slash, ih, List.cons_append]
    · obtain ⟨first, rest, hf⟩ := exists_pieces as
      rw [hf, List.cons_append] at ih
      rw [List.cons_append, pieces_cons ha ih, pieces_cons ha hf, List.cons_append]

theorem pieces_of_not_mem (h : '/' ∉ cs) : pieces cs = [cs] := by
  induction cs with
  | nil => rfl
  | cons c cs ih =>
    rw [List.mem_cons, not_or] at h
    exact pieces_cons (Ne.symm h.1) (ih h.2)

theorem not_mem_of_mem_pieces (h : piece ∈ pieces cs) : '/' ∉ piece := by
  induction cs generalizing piece with
  | nil => simp_all [pieces]
  | cons c cs ih =>
    by_cases hc : c = '/'
    · subst hc
      rw [pieces_slash] at h
      rcases List.mem_cons.1 h with rfl | h
      · simp
      · exact ih h
    · obtain ⟨first, rest, hf⟩ := exists_pieces cs
      rw [pieces_cons hc hf] at h
      rcases List.mem_cons.1 h with rfl | h
      · have hfirst : '/' ∉ first := ih (by simp [hf])
        simp [Ne.symm hc, hfirst]
      · exact ih (by simp [hf, h])

theorem pieces_intercalate (hne : ps ≠ []) (h : ∀ piece ∈ ps, '/' ∉ piece) :
    pieces (['/'].intercalate ps) = ps := by
  induction ps with
  | nil => exact absurd rfl hne
  | cons first rest ih =>
    have hfirst := pieces_of_not_mem (h first List.mem_cons_self)
    cases rest with
    | nil => simpa [List.intercalate] using hfirst
    | cons second rest =>
      have hrest := ih (List.cons_ne_nil _ _) fun piece hp => h piece (List.mem_cons_of_mem _ hp)
      have hsplit : ['/'].intercalate (first :: second :: rest) =
          first ++ '/' :: ['/'].intercalate (second :: rest) := by
        simp [List.intercalate]
      rw [hsplit, pieces_append_slash, hfirst, hrest, List.singleton_append]

theorem eq_nil_of_pieces (h : pieces cs = [[]]) : cs = [] := by
  cases cs with
  | nil => rfl
  | cons c cs =>
    by_cases hc : c = '/'
    · subst hc
      rw [pieces_slash] at h
      exact absurd (List.cons.inj h).2 (pieces_ne_nil cs)
    · obtain ⟨first, rest, hf⟩ := exists_pieces cs
      simp [pieces_cons hc hf] at h

/-- The pieces of a text with what each stands for. -/
def spell : List (List Char) → List (List Char × Option Component)
  | [] => []
  | first :: rest =>
    (first, firstComponent first rest.isEmpty) :: rest.map fun piece => (piece, innerComponent piece)

theorem spelling_eq (p : Path) : p.spelling = spell (pieces p.text.toList) := by
  unfold spelling spell
  split <;> simp_all

theorem components_eq (p : Path) :
    p.components = (spell (pieces p.text.toList)).filterMap (·.2) := by
  rw [components, spelling_eq]

theorem components_of_text_isEmpty (h : p.text.isEmpty = true) : p.components = [] := by
  have htext : p.text.toList = [] := by simpa using h
  rw [components_eq, htext]
  rfl

theorem text_isEmpty_of_ne_nil (h : p.components ≠ []) : p.text.isEmpty = false := by
  rw [← Bool.not_eq_true]
  exact fun hempty => h (components_of_text_isEmpty hempty)

/-- A name that can stand between slashes and is read back as itself. -/
structure IsName (name : String) : Prop where
  ne_nil : name.toList ≠ []
  no_slash : '/' ∉ name.toList
  ne_dot : name.toList ≠ ['.']
  ne_dots : name.toList ≠ ['.', '.']

theorem isName_of_long (h : 2 < name.toList.length) (hslash : '/' ∉ name.toList) : IsName name where
  ne_nil hnil := by simp [hnil] at h
  no_slash := hslash
  ne_dot hdot := by simp [hdot] at h
  ne_dots hdots := by simp [hdots] at h

theorem IsName.innerComponent (h : IsName name) : innerComponent name.toList = some (.name name) := by
  simp [Path.innerComponent, h.ne_nil, h.ne_dot, h.ne_dots]

theorem IsName.firstComponent (h : IsName name) (last : Bool) :
    firstComponent name.toList last = some (.name name) := by
  simp [Path.firstComponent, h.ne_nil, h.ne_dot, h.innerComponent]

theorem spell_cons_append (first : List Char) (rest : List (List Char)) {more : List (List Char)}
    (h : more ≠ []) :
    spell (first :: rest ++ more) =
      ((first, Path.firstComponent first false) ::
        rest.map fun piece => (piece, Path.innerComponent piece)) ++
          more.map fun piece => (piece, Path.innerComponent piece) := by
  have hmore : (rest ++ more).isEmpty = false := by
    rw [List.isEmpty_eq_false_iff]
    exact List.append_ne_nil_of_right_ne_nil rest h
  rw [List.cons_append, spell, hmore, List.map_append, List.cons_append]

theorem isEmpty_text_eq_false (h : p.text.toList ≠ []) : p.text.isEmpty = false := by
  rw [← Bool.not_eq_true]
  intro hempty
  exact h (by simpa using hempty)

theorem isAbsolute_of_not_mem (h : '/' ∉ p.text.toList) : p.isAbsolute = false := by
  rw [isAbsolute, beq_eq_false_iff_ne]
  intro hhead
  exact h (List.mem_of_head? hhead)

/-- Joining a path that is not absolute spells the steps of the first path, and then all pieces of the
second one as inner ones. -/
theorem spelling_append (hp : p.text.toList ≠ []) (hq : q.isAbsolute = false) :
    ∃ before, (p.join q).spelling = before ++
        (pieces q.text.toList).map (fun piece => (piece, Path.innerComponent piece)) ∧
      before.filterMap (·.2) = p.components := by
  have hempty := isEmpty_text_eq_false hp
  have hne := pieces_ne_nil q.text.toList
  rw [join, hq, if_neg Bool.false_ne_true]
  by_cases hlast : p.text.toList.getLast? = some '/'
  · -- The slash at the end makes an empty last piece, which the second path takes the place of.
    obtain ⟨cs, hcs⟩ := List.getLast?_eq_some_iff.1 hlast
    obtain ⟨first, rest, hf⟩ := exists_pieces cs
    refine ⟨(first, Path.firstComponent first false) ::
      rest.map fun piece => (piece, Path.innerComponent piece), ?_, ?_⟩
    · rw [if_pos (Or.inr hlast), spelling_eq, String.toList_append, hcs, List.append_assoc,
        List.singleton_append, pieces_append_slash, hf, spell_cons_append first rest hne]
    · have hsilent : Path.innerComponent [] = none := rfl
      rw [components_eq, hcs, pieces_append_slash, hf, pieces,
        spell_cons_append first rest (List.cons_ne_nil _ _), List.filterMap_append]
      simp [hsilent]
  · obtain ⟨first, rest, hf⟩ := exists_pieces p.text.toList
    have hflag : Path.firstComponent first rest.isEmpty = Path.firstComponent first false := by
      cases rest with
      | cons second rest => rfl
      | nil =>
        have hfirst : first ≠ [] := by
          rintro rfl
          exact hp (eq_nil_of_pieces hf)
        simp [Path.firstComponent, hfirst]
    have hsep : "/".toList = ['/'] := rfl
    refine ⟨p.spelling, ?_, rfl⟩
    rw [if_neg (by simp [hlast, hempty]), spelling_eq, spelling_eq, String.toList_append,
      String.toList_append, hsep, List.append_assoc, List.singleton_append, pieces_append_slash, hf,
      spell_cons_append first rest hne, spell, hflag]

/-- Joining a name spells the steps of the path and then the name. -/
theorem spelling_join (p : Path) (h : IsName name) :
    ∃ before, (p.join ⟨name⟩).spelling = before ++ [(name.toList, some (.name name))] ∧
      before.filterMap (·.2) = p.components := by
  have hrel : Path.isAbsolute ⟨name⟩ = false := isAbsolute_of_not_mem h.no_slash
  have hpieces := pieces_of_not_mem h.no_slash
  by_cases hempty : p.text.toList = []
  · have htext : p.text.isEmpty = true := by simpa using hempty
    refine ⟨[], ?_, (components_of_text_isEmpty htext).symm⟩
    rw [join, hrel, if_neg Bool.false_ne_true, if_pos (Or.inl htext), spelling_eq]
    simp [hempty, hpieces, spell, h.firstComponent]
  · obtain ⟨before, hspell, hbefore⟩ := spelling_append hempty hrel
    refine ⟨before, ?_, hbefore⟩
    rw [hspell, hpieces, List.map_singleton, h.innerComponent]

theorem components_join (p : Path) (h : IsName name) :
    (p.join ⟨name⟩).components = p.components ++ [.name name] := by
  obtain ⟨before, hs, hb⟩ := spelling_join p h
  rw [components, hs, List.filterMap_append, hb]
  rfl

/-- A joined name is the last step the system takes. -/
theorem steps_join (p : Path) (h : IsName name) :
    (p.join ⟨name⟩).steps = p.components ++ [.name name] := by
  obtain ⟨before, hs, _⟩ := spelling_join p h
  have hask : (p.join ⟨name⟩).asksDirectory = false := by
    simp [asksDirectory, hs, silent]
  rw [steps, hask, components_join p h]
  simp

theorem text_join_ne_empty (p : Path) (h : IsName name) : (p.join ⟨name⟩).text.isEmpty = false :=
  text_isEmpty_of_ne_nil (by simp [components_join p h])

theorem components_root : Path.components ⟨"/"⟩ = [.root] := by
  have htext : "/".toList = ['/'] := rfl
  rw [components_eq, htext]
  rfl

theorem components_ofSpelling {spelled : List (List Char × Option Component)}
    (h : spelled <+: p.spelling) (hlast : spelled.getLast?.all (·.2.isSome) = true) :
    (ofSpelling spelled).components = spelled.filterMap (·.2) := by
  obtain ⟨first, rest, hf⟩ := exists_pieces p.text.toList
  have hslash : ∀ piece ∈ first :: rest, '/' ∉ piece := by
    intro piece hp
    rw [← hf] at hp
    exact not_mem_of_mem_pieces hp
  rw [spelling_eq, hf, spell] at h
  match spelled with
  | [] => rfl
  | [x] =>
    obtain rfl : x = (first, Path.firstComponent first rest.isEmpty) := by
      simpa using h
    by_cases hfirst : first = []
    · subst hfirst
      cases rest with
      | nil => simp [Path.firstComponent] at hlast
      | cons second rest => exact components_root
    · have hflag : Path.firstComponent first rest.isEmpty = Path.firstComponent first true := by
        simp [Path.firstComponent, hfirst]
      have hroot : Path.firstComponent first true ≠ some .root := by
        unfold Path.firstComponent Path.innerComponent
        split_ifs <;> simp
      have htext : ofSpelling [(first, Path.firstComponent first true)] = ⟨String.ofList first⟩ := by
        unfold ofSpelling
        split
        · simp_all
        · simp [List.intercalate]
      rw [hflag, htext, components_eq, String.toList_ofList,
        pieces_of_not_mem (hslash first List.mem_cons_self)]
      rfl
  | x :: y :: spelled =>
    obtain ⟨rfl, htail⟩ := List.cons_prefix_cons.1 h
    have htake := List.prefix_iff_eq_take.1 htail
    rw [← List.map_take] at htake
    generalize hfew : rest.take (y :: spelled).length = few at htake
    have hfewne : few.isEmpty = false := by cases few <;> simp_all
    have hrestne : rest.isEmpty = false := by cases rest <;> simp_all
    have hpieces : pieces (['/'].intercalate (first :: few)) = first :: few := by
      apply pieces_intercalate (List.cons_ne_nil _ _)
      intro piece hp
      apply hslash
      rcases List.mem_cons.1 hp with rfl | hp
      · exact List.mem_cons_self
      · exact List.mem_cons_of_mem _ (List.mem_of_mem_take (hfew ▸ hp))
    have htext : ofSpelling ((first, Path.firstComponent first rest.isEmpty) :: y :: spelled) =
        ⟨String.ofList (['/'].intercalate (first :: few))⟩ := by
      rw [htake, ofSpelling]
      · simp [Function.comp_def]
      · intro text hx
        simp [← htake] at hx
    rw [htext, components_eq, String.toList_ofList, hpieces, spell, hfewne, hrestne, htake]

theorem trimEnd_isPrefix (spelled : List (List Char × Option Component)) :
    trimEnd spelled <+: spelled := by
  unfold trimEnd
  rw [← List.reverse_suffix, List.reverse_reverse]
  exact List.dropWhile_suffix _

theorem getLast?_trimEnd (spelled : List (List Char × Option Component)) :
    (trimEnd spelled).getLast?.all (·.2.isSome) = true := by
  rw [trimEnd, List.getLast?_reverse]
  cases hd : (spelled.reverse.dropWhile silent).head? with
  | none => rfl
  | some x =>
    have := List.head?_dropWhile_not silent spelled.reverse
    simp_all [silent]

theorem silent_split (spelled : List (List Char × Option Component)) :
    ∃ quiet, spelled = (spelled.reverse.dropWhile silent).reverse ++ quiet ∧
      quiet.filterMap (·.2) = [] := by
  refine ⟨(spelled.reverse.takeWhile silent).reverse, ?_, ?_⟩
  · rw [← List.reverse_append, List.takeWhile_append_dropWhile, List.reverse_reverse]
  · rw [List.filterMap_eq_nil_iff]
    intro x hx
    have hsilent := List.mem_takeWhile_imp (List.mem_reverse.1 hx)
    simpa [silent] using hsilent

theorem filterMap_trimEnd (spelled : List (List Char × Option Component)) :
    (trimEnd spelled).filterMap (·.2) = spelled.filterMap (·.2) := by
  obtain ⟨quiet, hs, hq⟩ := silent_split spelled
  have hall := congrArg (List.filterMap (·.2)) hs
  rw [List.filterMap_append, hq, List.append_nil] at hall
  exact hall.symm

/-- Taking the parent drops the last step, which is not the root. -/
theorem components_parent? (h : p.parent? = some q) :
    ∃ c, p.components = q.components ++ [c] ∧ c ≠ .root := by
  obtain ⟨quiet, hs, hq⟩ := silent_split p.spelling
  unfold parent? at h
  generalize hd : p.spelling.reverse.dropWhile silent = rest at h hs
  match rest with
  | [] => simp at h
  | (piece, none) :: before =>
    have hhead := List.head?_dropWhile_not silent p.spelling.reverse
    simp [hd, silent] at hhead
  | (piece, some c) :: before =>
    by_cases hc : c = .root
    · simp [hc] at h
    · refine ⟨c, ?_, hc⟩
      obtain rfl : ofSpelling (trimEnd before.reverse) = q := by
        cases c <;> simp_all
      rw [List.reverse_cons, List.append_assoc] at hs
      have hbelow : trimEnd before.reverse <+: p.spelling :=
        (trimEnd_isPrefix _).trans ⟨_, hs.symm⟩
      rw [components_ofSpelling hbelow (getLast?_trimEnd _), filterMap_trimEnd, components, hs]
      simp [hq]

/-- A path that ends in a name has a parent. -/
theorem exists_parent? (h : p.last? = some (.name name)) :
    ∃ q, p.parent? = some q ∧ p.components = q.components ++ [.name name] := by
  have hparent : ∃ q, p.parent? = some q := by
    have hlast := filterMap_trimEnd p.spelling
    rw [← components, trimEnd] at hlast
    rw [last?, ← hlast] at h
    unfold parent?
    split
    · rename_i hnil
      rw [hnil] at h
      simp at h
    · rename_i hroot
      rw [hroot] at h
      simp at h
    · exact ⟨_, rfl⟩
  obtain ⟨q, hq⟩ := hparent
  obtain ⟨c, hc, _⟩ := components_parent? hq
  rw [last?, hc, List.getLast?_concat] at h
  cases h
  exact ⟨q, hq, hc⟩

theorem innerComponent_of_ne (hne : piece ≠ []) (hdot : piece ≠ ['.']) (hdots : piece ≠ ['.', '.']) :
    innerComponent piece = some (.name (String.ofList piece)) := by
  simp [innerComponent, hne, hdot, hdots]

/-- Pieces after the first one are spelled by themselves. -/
theorem spelled_after {before after : List (List Char × Option Component)} {c : Option Component}
    (h : p.spelling = before ++ (piece, c) :: after) :
    (piece ≠ [] → piece ≠ ['.'] → c = innerComponent piece) ∧ ∀ x ∈ after, x.2 = innerComponent x.1 := by
  obtain ⟨first, rest, hpieces⟩ := exists_pieces p.text.toList
  rw [spelling_eq, hpieces, spell] at h
  have hrest : ∀ x ∈ rest.map fun piece => (piece, innerComponent piece), x.2 = innerComponent x.1 :=
    List.forall_mem_map.2 fun _ _ => rfl
  cases before with
  | nil =>
    obtain ⟨hfirst, rfl⟩ := List.cons.inj h
    cases hfirst
    exact ⟨fun hne hdot => by simp [firstComponent, hne, hdot], hrest⟩
  | cons x before =>
    rw [(List.cons.inj h).2] at hrest
    exact ⟨fun _ _ => hrest (piece, c) (by simp), fun x hx => hrest x (by simp [hx])⟩

/-- A path whose last piece that is not empty is no dots ends in a name. -/
theorem last?_of_spelled {before : List (List Char × Option Component)} {c : Option Component}
    (h : p.spelling.reverse.dropWhile (·.1.isEmpty) = (piece, c) :: before) (hdot : piece ≠ ['.'])
    (hdots : piece ≠ ['.', '.']) : ∃ name, p.last? = some (.name name) := by
  have hne : piece ≠ [] := by
    have hhead := List.head?_dropWhile_not (·.1.isEmpty) p.spelling.reverse
    rw [h] at hhead
    simpa using hhead
  have hsplit : p.spelling =
      before.reverse ++ (piece, c) :: (p.spelling.reverse.takeWhile (·.1.isEmpty)).reverse := by
    have hall := List.takeWhile_append_dropWhile (p := (·.1.isEmpty)) (l := p.spelling.reverse)
    rw [h] at hall
    have hrev := congrArg List.reverse hall
    simpa using hrev.symm
  obtain ⟨hc, hafter⟩ := spelled_after hsplit
  have hsilent : (p.spelling.reverse.takeWhile (·.1.isEmpty)).reverse.filterMap (·.2) = [] := by
    refine List.filterMap_eq_nil_iff.2 fun x hx => ?_
    have hempty := List.mem_takeWhile_imp (List.mem_reverse.1 hx)
    rw [hafter x hx, List.isEmpty_iff.1 hempty]
    rfl
  refine ⟨String.ofList piece, ?_⟩
  rw [last?, components, hsplit, List.filterMap_append, List.filterMap_cons, hsilent, hc hne hdot,
    innerComponent_of_ne hne hdot hdots]
  simp

/-- A path that goes up, if at all, before it goes down, and ends in a name. -/
def Direct (p : Path) : Prop :=
  ∃ up down name, p.components = up ++ (down ++ [name]).map Component.name ∧
    ∀ name, Component.name name ∉ up

theorem Direct.last? (h : p.Direct) : ∃ name, p.last? = some (.name name) := by
  obtain ⟨up, down, name, hc, _⟩ := h
  exact ⟨name, by rw [Path.last?, hc, List.map_append, ← List.append_assoc]; simp⟩

theorem fileName?_eq_some : p.fileName? = some name ↔ p.last? = some (.name name) := by
  unfold fileName?
  split <;> simp_all

theorem pieces_append {ds : List Char} (hds : '/' ∉ ds) (cs : List Char) :
    ∃ before last, pieces cs = before ++ [last] ∧ pieces (cs ++ ds) = before ++ [last ++ ds] := by
  induction cs with
  | nil => exact ⟨[], [], rfl, pieces_of_not_mem hds⟩
  | cons c cs ih =>
    obtain ⟨before, last, hcs, happ⟩ := ih
    by_cases hc : c = '/'
    · subst hc
      refine ⟨[] :: before, last, ?_, ?_⟩
      · rw [pieces_slash, hcs, List.cons_append]
      · rw [List.cons_append, pieces_slash, happ, List.cons_append]
    · cases before with
      | nil => exact ⟨[], c :: last, pieces_cons hc hcs, pieces_cons hc happ⟩
      | cons first before =>
        exact ⟨(c :: first) :: before, last, pieces_cons hc hcs, pieces_cons hc happ⟩

/-- A path whose text ends in a proper suffix of a name ends in a name with that suffix. -/
theorem last?_withSuffix {suffix : String} (hslash : '/' ∉ suffix.toList)
    (hlong : 2 < suffix.toList.length) (p : Path) : ∃ name,
      (p.withSuffix suffix).last? = some (.name name) ∧ suffix.toList <:+ name.toList := by
  obtain ⟨before, last, hp, happ⟩ := pieces_append hslash p.text.toList
  have hname : IsName (String.ofList (last ++ suffix.toList)) := by
    have hlast : '/' ∉ last := not_mem_of_mem_pieces (by simp [hp] : last ∈ pieces p.text.toList)
    apply isName_of_long
    · rw [String.toList_ofList, List.length_append]
      omega
    · rw [String.toList_ofList, List.mem_append, not_or]
      exact ⟨hlast, hslash⟩
  have hinner := hname.innerComponent
  have hfirst := hname.firstComponent true
  rw [String.toList_ofList] at hinner hfirst
  refine ⟨String.ofList (last ++ suffix.toList), ?_, by simp⟩
  rw [last?, components_eq, withSuffix, String.toList_append, happ]
  cases before with
  | nil => simp [spell, hfirst]
  | cons first before =>
    rw [spell_cons_append first before (List.cons_ne_nil _ _)]
    simp [hinner]

end Dependents.Path
