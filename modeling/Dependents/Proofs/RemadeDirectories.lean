import Dependents.Proofs.Directories

/-! Directories that are removed and made again. If a path ends at the directory itself, and no
directory or link is in it, the path leads to it as before. -/
namespace Dependents.FileSystem

variable {fs fs' less g g' : FileSystem} {p q above : Path} {up place spot names : List String}
  {name last : String} {inner entries : List (String × FileNode)} {more : List Component}

/-- A directory is made only where one was missing on the way. Whatever the path led through before
stood there as a directory or a link. -/
theorem makeDir_on_way (hc : p.components = q.components ++ more)
    (he : fs.enter? p = some (place, inner)) (hp : Persists g.top fs.top)
    (hw : fs.workingDir = g.workingDir) (h : g.makeDir q = .ok g') : ∃ spot last,
      g' = g.put (spot ++ [last]) (.dir []) ∧ (∃ entries, g.top.at? spot = some (.dir entries)) ∧
      g.top.look (spot ++ [last]) = none ∧
      (fs.top.look (spot ++ [last]) = some (.dir []) ∨
        ∃ target, fs.top.look (spot ++ [last]) = some (.link target)) := by
  obtain ⟨above, last, spot, entries, hq, hlast, habove, hfree, rfl⟩ := makeDir_eq_ok h
  obtain ⟨above', hq', hlast'⟩ := Path.exists_parent? hlast
  rw [hq] at hq'
  cases hq'
  obtain ⟨entries', hbefore⟩ := enter?_persist hp hw habove
  have hsteps : p.components = above.components ++ .name last :: more := by
    rw [hc, hlast', List.append_assoc]
    rfl
  rw [enter?_eq_some, hsteps] at he
  have hchild := walk_through (enter?_eq_some.1 hbefore) he
  have hat := at?_of_enter? habove
  have hat' := at?_of_enter? hbefore
  refine ⟨spot, last, rfl, ⟨entries, hat⟩, ?_, ?_⟩
  · rw [FileNode.look_eq_none, FileNode.at?_concat, hat]
    exact hfree
  · rw [FileNode.look_eq_dir]
    simp only [FileNode.look_eq_link, FileNode.at?_concat, hat', Option.bind_some]
    exact hchild

/-- Where a path leads to a directory, nothing has to be made. -/
theorem makeDirs_of_enter? (he : fs.enter? p = some (place, inner)) (h : fs.makeDirs p = .ok fs') :
    fs' = fs := by
  refine makeDirs_keeps (P := (· = fs)) ?_ h rfl
  rintro g g' q more hc rfl hstep
  obtain ⟨spot, last, _, _, hnone, hsome⟩ := makeDir_on_way hc he (.refl _) rfl hstep
  simp [hnone] at hsome

/-- What a path ends at is a directory itself, and holds nothing but files. -/
structure Own (fs : FileSystem) (p : Path) (up : List String) (name : String)
    (inner : List (String × FileNode)) : Prop where
  last : p.last? = some (.name name)
  enter : fs.enter? p = some (up ++ [name], inner)
  above : ∀ q, p.parent? = some q → ∃ entries, fs.enter? q = some (up, entries)
  plain : FileNode.Plain inner

theorem own_of_enter? (hn : p.last? = some (.name name)) (hlink : fs.endsInLink p = false)
    (he : fs.enter? p = some (place, inner)) (hplain : FileNode.Plain inner) :
    ∃ up, fs.Own p up name inner := by
  obtain ⟨above, hq, hc⟩ := Path.exists_parent? hn
  obtain ⟨up, entries, node, hup, hchild⟩ := exists_child_of_enter? hc he
  have hnot : ∀ target, (FileNode.dir entries).child? name ≠ some (.link target) := by
    intro target hchild
    rw [(endsInLink_iff hq hn).2 ⟨up, entries, target, hup, hchild⟩] at hlink
    cases hlink
  have hwalk := walk_snoc (enter?_eq_some.1 hup) hnot
  rw [← hc, enter?_eq_some.1 he] at hwalk
  injection hwalk with hwalk
  injection hwalk with hplace _
  subst hplace
  refine ⟨up, hn, he, fun q hq' => ?_, hplain⟩
  rw [hq] at hq'
  cases hq'
  exact ⟨entries, hup⟩

/-- Files with an empty directory in place of an entry. -/
def withEmpty (fs : FileSystem) (up : List String) (name : String) : FileSystem :=
  (fs.without up name).put (up ++ [name]) (.dir [])

section Removed

variable (h : Own fs p up name inner)
include h

theorem Own.at?_up : ∃ entries, fs.top.at? up = some (.dir entries) := by
  obtain ⟨q, hq, _⟩ := Path.exists_parent? h.last
  obtain ⟨entries, habove⟩ := h.above q hq
  exact ⟨entries, at?_of_enter? habove⟩

theorem Own.emptied : Emptied fs (fs.withEmpty up name) (up ++ [name]) := by
  obtain ⟨entries, hup⟩ := h.at?_up
  refine ⟨by simp [withEmpty, without], ?_, fun names hnames => ?_⟩
  · have hself : (fs.withEmpty up name).top.at? (up ++ [name] ++ []) = FileNode.at? [] (.dir []) :=
      at?_put_self (at?_without hup) []
    rwa [List.append_nil] at hself
  · rw [withEmpty, look_put hnames, look_without hnames]

/-- When the directory is removed, it is all that is missing on the way to it. -/
theorem Own.makeDir_removed (hc : p.components = q.components ++ more)
    (hmake : (fs.without up name).makeDir q = .ok g') : g' = fs.withEmpty up name := by
  obtain ⟨entries, hup⟩ := h.at?_up
  obtain ⟨spot, last, rfl, ⟨entries', hspot⟩, hnone, hsome⟩ :=
    makeDir_on_way hc h.enter (persists_without hup) rfl hmake
  by_cases hbelow : (up ++ [name]) <+: spot ++ [last]
  · obtain ⟨more, hmore⟩ := hbelow
    rcases List.eq_nil_or_concat' more with rfl | ⟨before, other, rfl⟩
    · rw [withEmpty, ← hmore, List.append_nil]
    · rw [← List.append_assoc] at hmore
      rw [← List.append_inj_left' hmore rfl, at?_without_self hup] at hspot
      cases hspot
  · rw [look_without hbelow] at hnone
    simp [hnone] at hsome

/-- When it is made again, nothing is missing. -/
theorem Own.makeDir_withEmpty (hc : p.components = q.components ++ more) :
    (fs.withEmpty up name).makeDir q ≠ .ok g' := by
  intro hmake
  have hdir := at?_of_enter? h.enter
  have henter := h.emptied.enter? hdir h.enter h.plain
  obtain ⟨spot, last, _, _, hnone, hsome⟩ := makeDir_on_way hc henter (.refl _) rfl hmake
  simp [hnone] at hsome

/-- The directory that is made again stands where it stood, and is empty. -/
theorem Own.remade (hremove : fs.remove p = .ok less) (hmake : less.makeDirs p = .ok fs') :
    fs'.enter? p = some (up ++ [name], []) := by
  have hgone := (absent_remove h.last hremove).enter?_eq
  obtain ⟨q, hq, _⟩ := Path.exists_parent? h.last
  obtain ⟨_, habove⟩ := h.above q hq
  obtain ⟨_, _, habove', rfl⟩ := remove_eq_ok hq h.last hremove
  rw [habove] at habove'
  cases habove'
  have hmade : fs' = fs.without up name ∨ fs' = fs.withEmpty up name := by
    refine makeDirs_keeps (P := fun g => g = fs.without up name ∨ g = fs.withEmpty up name) ?_ hmake
      (.inl rfl)
    rintro g g' q more hc (rfl | rfl) hstep
    · exact .inr (h.makeDir_removed hc hstep)
    · exact absurd hstep (h.makeDir_withEmpty hc)
  rcases hmade with rfl | rfl
  · obtain ⟨_, _, he⟩ := (made_makeDirs hmake).exists_enter? h.last
    rw [hgone] at he
    cases he
  · exact h.emptied.enter? (at?_of_enter? h.enter) h.enter h.plain

end Removed

/-- A path that leads to the same directory once that is removed and made again: it goes straight, or
it removes no link, and what it leads to holds nothing but files. -/
def Firm (fs : FileSystem) (p : Path) : Prop :=
  p.Direct ∨ (fs.endsInLink p = true → p.asksDirectory = true) ∧
    ∀ place inner, fs.enter? p = some (place, inner) → FileNode.Plain inner

/-- Files from which the entry at the end of a path was removed, a directory or a link. -/
structure Removed (fs : FileSystem) (p : Path) (less : FileSystem) : Prop where
  name : ∃ name, p.last? = some (.name name)
  removed : fs.remove p = .ok less
  links : fs.endsInLink p = true → p.asksDirectory = false
  found : fs.endsInLink p = true ∨ ∃ place inner, fs.enter? p = some (place, inner)

theorem Removed.absent (h : fs.Removed p less) : less.Absent p := by
  obtain ⟨name, hn⟩ := h.name
  exact absent_remove hn h.removed

/-- A firm path leads to an empty directory once that is made again. -/
theorem Removed.remade (h : fs.Removed p less) (hfirm : fs.Firm p)
    (hmake : less.makeDirs p = .ok fs') : ∃ place, fs'.enter? p = some (place, []) := by
  rcases hfirm with hdirect | ⟨hlinks, hplain⟩
  · rcases enter?_makeDirs hdirect hmake with ⟨_, _, _, he⟩ | ⟨_, hnew⟩
    · rw [h.absent.enter?_eq] at he
      cases he
    · exact hnew
  · have hlink : fs.endsInLink p = false := by
      rw [← Bool.not_eq_true]
      intro hlink
      have hasks := h.links hlink
      rw [hlinks hlink] at hasks
      cases hasks
    obtain ⟨name, hn⟩ := h.name
    obtain ⟨place, inner, he⟩ := h.found.resolve_left (by simp [hlink])
    obtain ⟨up, hown⟩ := own_of_enter? hn hlink he (hplain place inner he)
    exact ⟨up ++ [name], hown.remade h.removed hmake⟩

theorem name_of_removable (h : fs.irremovable? p = none) :
    (∃ name, p.last? = some (.name name)) ∧ fs.endsInLink p = false := by
  unfold irremovable? at h
  split at h
  · cases h
  · cases h
  · cases h
  · rename_i hnil hdot hdots
    obtain ⟨⟨piece, c⟩, before, hspelled⟩ := List.exists_cons_of_ne_nil hnil
    refine ⟨Path.last?_of_spelled hspelled ?_ ?_, ?_⟩
    · rintro rfl
      exact hdot c before hspelled
    · rintro rfl
      exact hdots c before hspelled
    · simpa using h

theorem removed_of_link (hlink : fs.endsInLink p = true) (hasks : p.asksDirectory = false) :
    ∃ less, fs.removeDir p = (.ok (), less) ∧ fs.Removed p less := by
  obtain ⟨name, hn⟩ := last?_of_endsInLink hlink
  obtain ⟨above, hq, _⟩ := Path.exists_parent? hn
  obtain ⟨place, entries, target, he, hchild⟩ := (endsInLink_iff hq hn).1 hlink
  have hremove := remove_of_child hq hn he hchild
  refine ⟨fs.without place name, ?_, ⟨name, hn⟩, hremove, fun _ => hasks, .inl hlink⟩
  rw [removeDir, if_pos (by simp [hlink, hasks]), hremove]

theorem removed_of_removable (h : fs.irremovable? p = none) (he : fs.enter? p = some (place, inner)) :
    ∃ less, fs.removeDir p = (.ok (), less) ∧ fs.Removed p less := by
  obtain ⟨⟨name, hn⟩, hlink⟩ := name_of_removable h
  obtain ⟨above, hq, hc⟩ := Path.exists_parent? hn
  obtain ⟨up, entries, node, hup, hchild⟩ := exists_child_of_enter? hc he
  have hremove := remove_of_child hq hn hup hchild
  have htext : p.text.isEmpty = false := Path.text_isEmpty_of_ne_nil (by simp [hc])
  refine ⟨fs.without up name, ?_, ⟨name, hn⟩, hremove, by simp [hlink], .inr ⟨place, inner, he⟩⟩
  rw [removeDir, if_neg (by simp [hlink]), (find_eq_dir htext).2 he, hremove]
  simp only [h]

/-- Removing a directory removes an entry, or empties the directory where it stands, or finds none. -/
theorem removeDir_cases (fs : FileSystem) (htext : p.text.isEmpty = false) :
    (∃ less, fs.removeDir p = (.ok (), less) ∧ fs.Removed p less) ∨
    (∃ e place inner, fs.removeDir p = (.error e, fs.clearDir place) ∧
      fs.enter? p = some (place, inner)) ∨
    ∃ e, fs.removeDir p = (.error e, fs) ∧ fs.enter? p = none := by
  by_cases hlink : (fs.endsInLink p && !p.asksDirectory) = true
  · obtain ⟨hlink, hasks⟩ := Bool.and_eq_true_iff.1 hlink
    exact .inl (removed_of_link hlink (by simpa using hasks))
  · cases he : fs.enter? p with
    | some there =>
      obtain ⟨place, inner⟩ := there
      cases hirr : fs.irremovable? p with
      | none => exact .inl (removed_of_removable hirr he)
      | some e =>
        refine .inr (.inl ⟨e, place, inner, ?_, rfl⟩)
        rw [removeDir, if_neg hlink, (find_eq_dir htext).2 he]
        simp only [hirr]
    | none =>
      have hnot : ∀ names entries, fs.find p ≠ .ok (names, .dir entries) := by
        intro names entries hfind
        rw [(find_eq_dir htext).1 hfind] at he
        cases he
      refine .inr (.inr ?_)
      rw [removeDir, if_neg hlink]
      split
      · rename_i hfind
        exact absurd hfind (hnot _ _)
      · exact ⟨_, rfl, rfl⟩
      · exact ⟨_, rfl, rfl⟩

/-- A path that leads to a directory with nothing but files, where nothing is left to be made. -/
structure Steady (fs : FileSystem) (p : Path) : Prop where
  text : p.text.isEmpty = false
  made : fs.Made p
  enters : ∃ place inner, fs.enter? p = some (place, inner) ∧ FileNode.Plain inner

/-- A path whose directory was removed and cannot be made again. -/
structure Lost (fs : FileSystem) (p : Path) : Prop where
  absent : fs.Absent p
  refused : ∃ e, fs.makeDirs p = .error e

/-- A path that leads to no directory, or to an empty one. -/
def Bare (fs : FileSystem) (p : Path) : Prop :=
  ∀ place entries, fs.enter? p = some (place, entries) → entries = []

theorem Steady.emptied (h : fs.Steady p) (he : fs.enter? p = some (place, inner)) :
    (fs.clearDir place).Steady p ∧ (fs.clearDir place).enter? p = some (place, []) := by
  obtain ⟨place', inner', he', hplain⟩ := h.enters
  rw [he] at he'
  cases he'
  have hdir := at?_of_enter? he
  have hemptied := emptied_clearDir hdir
  have henter := hemptied.enter? hdir he hplain
  have hmade := h.made.persist (hemptied.persists_of_plain hdir hplain) hemptied.workingDir
  exact ⟨⟨h.text, hmade, place, [], henter, FileNode.plain_nil⟩, henter⟩

end Dependents.FileSystem
