import Dependents.Proofs.Directories

/-! Writing a file. It changes what stands at one place and leads no path elsewhere, so a path is read
as before unless it leads to that place. -/
namespace Dependents.FileSystem

variable {fs fs' : FileSystem} {p q : Path} {place spot m there : List String} {name : String}
  {entries inner : List (String × FileNode)} {found : Option FileNode} {content : List UInt8}

/-- File systems that differ at most in a file at one place. -/
structure DifferAt (spot : List String) (fs fs' : FileSystem) : Prop where
  workingDir : fs'.workingDir = fs.workingDir
  look : ∀ names, names ≠ spot → fs'.top.look names = fs.top.look names
  before : FileNode.Loose (fs.top.look spot)
  after : FileNode.Loose (fs'.top.look spot)

theorem DifferAt.symm (h : DifferAt spot fs fs') : DifferAt spot fs' fs :=
  ⟨h.workingDir.symm, fun names hne => (h.look names hne).symm, h.after, h.before⟩

theorem DifferAt.persists (h : DifferAt spot fs fs') : Persists fs.top fs'.top := by
  intro names
  by_cases hspot : names = spot
  · subst hspot
    rcases h.before with hold | ⟨old, hold⟩ <;> simp [hold]
  · rw [h.look names hspot]
    exact ⟨id, fun _ => id⟩

theorem DifferAt.loose (h : DifferAt spot fs fs') (hm : FileNode.Loose (fs.top.at? m)) :
    FileNode.Loose (fs'.top.at? m) := by
  rw [← FileNode.loose_look] at hm ⊢
  by_cases hspot : m = spot
  · rw [hspot]
    exact h.after
  · rwa [h.look m hspot]

/-- Every path leads where it led. -/
theorem DifferAt.locate (h : DifferAt spot fs fs') (hq : fs.locate q = .ok (m, found)) :
    fs'.locate q = .ok (m, fs'.top.at? m) := by
  unfold FileSystem.locate at hq ⊢
  split at hq
  · cases hq
  · rename_i htext
    have hat := walk_at hq
    rw [if_neg htext, h.workingDir, walk_kept h.persists hq fun hm => h.loose (hat ▸ hm)]

theorem at?_of_locate (h : fs.locate q = .ok (m, found)) : found = fs.top.at? m := by
  unfold FileSystem.locate at h
  split at h
  · cases h
  · exact walk_at h

theorem read_eq_ok : fs.read q = .ok content ↔
    ∃ names, fs.locate q = .ok (names, some (.file content)) := by
  unfold FileSystem.read FileSystem.find
  cases fs.locate q with
  | error e => simp
  | ok place =>
    obtain ⟨names, found⟩ := place
    cases found with
    | none => simp
    | some node => cases node <;> simp

theorem isFile_iff : fs.isFile q = true ↔ ∃ content, fs.read q = .ok content := by
  unfold FileSystem.isFile FileSystem.read
  split
  · rename_i hfind
    simp [hfind]
  · rename_i hnot
    simp only [Bool.false_eq_true, false_iff, not_exists]
    intro content
    split
    · rename_i hfind
      exact absurd hfind (hnot _ _)
    · simp
    · simp

/-- What is read was read before, or stands at the place. -/
theorem DifferAt.read_cases (h : DifferAt spot fs fs') (hq : fs'.read q = .ok content) :
    fs.read q = .ok content ∨ fs'.top.at? spot = some (.file content) := by
  obtain ⟨m, hlocate⟩ := read_eq_ok.1 hq
  have hfile := (at?_of_locate hlocate).symm
  by_cases hspot : m = spot
  · exact .inr (hspot ▸ hfile)
  · refine .inl (read_eq_ok.2 ⟨m, ?_⟩)
    rw [h.symm.locate hlocate]
    rw [← FileNode.look_eq_file, h.look m hspot, FileNode.look_eq_file] at hfile
    rw [hfile]

/-- A path that does not lead to the place is read as before. -/
theorem DifferAt.read_of_ne (h : DifferAt spot fs fs') (hne : ∀ found, fs.locate q ≠ .ok (spot, found))
    (hq : fs.read q = .ok content) : fs'.read q = .ok content := by
  obtain ⟨m, hlocate⟩ := read_eq_ok.1 hq
  have hspot : m ≠ spot := fun heq => hne _ (heq ▸ hlocate)
  have hfile := (at?_of_locate hlocate).symm
  rw [← FileNode.look_eq_file, ← h.look m hspot, FileNode.look_eq_file] at hfile
  exact read_eq_ok.2 ⟨m, by rw [h.locate hlocate, hfile]⟩

theorem at?_put_file (content : List UInt8) (hdir : fs.top.at? place = some (.dir entries)) :
    (fs.put (place ++ [name]) (.file content)).top.at? (place ++ [name]) = some (.file content) := by
  rw [FileNode.at?_concat, at?_put hdir, Option.bind_some, FileNode.child?_putEntry, if_pos rfl]

/-- A file that is put where there was nothing or a file. -/
theorem differAt_put_file (content : List UInt8) (hdir : fs.top.at? place = some (.dir entries))
    (hold : FileNode.Loose (fs.top.look (place ++ [name]))) :
    DifferAt (place ++ [name]) fs (fs.put (place ++ [name]) (.file content)) where
  workingDir := workingDir_put fs _ _
  look _ hne := look_put_file content hdir hold hne
  before := hold
  after := .inr ⟨content, FileNode.look_eq_file.2 (at?_put_file content hdir)⟩

/-- A directory that a path leads to stays where it is when a file is put into it. -/
theorem enter?_put_file (h : fs.enter? p = some (place, entries))
    (hold : FileNode.Loose (fs.top.look (place ++ [name]))) :
    (fs.put (place ++ [name]) (.file content)).enter? p =
      some (place, FileNode.putEntry name (.file content) entries) := by
  have hdir := at?_of_enter? h
  have hdiffer := differAt_put_file content hdir hold
  obtain ⟨entries', h'⟩ := enter?_persist hdiffer.persists hdiffer.workingDir h
  have hat := at?_of_enter? h'
  rw [at?_put hdir] at hat
  injection hat with hat
  injection hat with hat
  rw [h', hat]

/-- What is written to a path with a name in it goes to a name in a directory, wherever links lead. -/
theorem exists_place_of_write (hname : ∃ name, Component.name name ∈ p.steps)
    (h : fs.write p content = .ok fs') : ∃ place name entries,
      DifferAt (place ++ [name]) fs fs' ∧ fs'.top.at? place = some (.dir entries) ∧
        fs'.locate p = .ok (place ++ [name], some (.file content)) := by
  obtain ⟨m, found, hlocate, hfree, rfl⟩ := locate_of_write h
  have hat := at?_of_locate hlocate
  have hwalk := hlocate
  unfold locate at hwalk
  split at hwalk
  · cases hwalk
  · obtain ⟨place, name, entries, rfl, hplace, hloose⟩ := walk_ends (.inr hname) hwalk hfree
    rw [hat, ← FileNode.loose_look] at hloose
    have hdiffer := differAt_put_file content hplace hloose
    refine ⟨place, name, _, hdiffer, at?_put hplace, ?_⟩
    rw [hdiffer.locate hlocate, at?_put_file content hplace]

/-- What can be read after a file was written is that file, or could be read before. -/
theorem read_of_write (hname : ∃ name, Component.name name ∈ p.steps)
    (h : fs.write p content = .ok fs') {bytes : List UInt8} (hq : fs'.read q = .ok bytes) :
    fs.read q = .ok bytes ∨ bytes = content := by
  obtain ⟨place, name, entries, hdiffer, _, hlocate⟩ := exists_place_of_write hname h
  refine (hdiffer.read_cases hq).imp_right fun hfile => ?_
  rw [← at?_of_locate hlocate] at hfile
  cases hfile
  rfl

/-- Replacing a file lists the directories as before. -/
theorem list_put_file {old : List UInt8} (hdir : fs.top.at? place = some (.dir entries))
    (hold : fs.top.at? (place ++ [name]) = some (.file old)) (h : fs.enter? p = some (there, inner)) :
    (fs.put (place ++ [name]) (.file content)).list p = fs.list p := by
  cases hp : p.text.isEmpty with
  | true => rw [list, list, find, find, locate, locate, if_pos hp, if_pos hp]
  | false =>
    have hthere : fs.top.at? (place ++ [name]) ≠ none := by
      rw [hold]
      exact Option.some_ne_none _
    have hdiffer := differAt_put_file content hdir (.inr ⟨old, FileNode.look_eq_file.2 hold⟩)
    obtain ⟨inner', h'⟩ := enter?_persist hdiffer.persists hdiffer.workingDir h
    have hat' := at?_of_enter? h'
    rw [put_concat] at hat'
    have hnames := FileNode.names_change_putEntry content place hthere (at?_of_enter? h) hat'
    rw [list_eq_ok.2 ⟨hp, there, inner, h, rfl⟩, list_eq_ok.2 ⟨hp, there, inner', h', hnames⟩]

end Dependents.FileSystem
