import Dependents.Proofs.Walk
import Mathlib.Data.List.Induction

/-! Directories that paths lead to. Making one succeeds without effect where it is, or leaves a new
empty one; removing one leaves its path leading to none. -/
namespace Dependents.FileSystem

variable {fs fs' : FileSystem} {p above : Path} {place names : List String} {name : String}
  {entries inner : List (String × FileNode)} {found : Option FileNode}

/-- The directory that the steps of a path lead to: its place and its entries. -/
def enter? (fs : FileSystem) (p : Path) : Option (List String × List (String × FileNode)) :=
  match walk fs.top maxLinks fs.workingDir p.components with
  | .ok (place, some (.dir entries)) => some (place, entries)
  | _ => none

theorem enter?_eq_some : fs.enter? p = some (place, entries) ↔
    walk fs.top maxLinks fs.workingDir p.components = .ok (place, some (.dir entries)) := by
  unfold enter?
  split
  · rename_i h
    simp [h]
  · rename_i h
    simp only [reduceCtorEq, false_iff]
    exact h place entries

theorem enter?_eq_none : fs.enter? p = none ↔ ∀ place entries,
    walk fs.top maxLinks fs.workingDir p.components ≠ .ok (place, some (.dir entries)) := by
  simp only [← enter?_eq_some, Option.eq_none_iff_forall_ne_some, Prod.forall, ne_eq]

theorem at?_of_enter? (h : fs.enter? p = some (place, entries)) :
    fs.top.at? place = some (.dir entries) :=
  (walk_at (enter?_eq_some.1 h)).symm

/-- Nothing stands where the steps of a path lead. -/
def Absent (fs : FileSystem) (p : Path) : Prop :=
  ∀ names node, walk fs.top maxLinks fs.workingDir p.components ≠ .ok (names, some node)

theorem Absent.enter?_eq (h : fs.Absent p) : fs.enter? p = none :=
  enter?_eq_none.2 fun place entries => h place (.dir entries)

theorem Absent.holds (h : fs.Absent p) : fs.holds p = false := by
  have hfind : ∀ names node, fs.find p ≠ .ok (names, node) := by
    intro names node hfind
    unfold find at hfind
    split at hfind
    · rename_i names node hlocate
      unfold locate at hlocate
      split at hlocate
      · cases hlocate
      · rw [Path.steps] at hlocate
        split at hlocate
        · exact h names node (walk_of_snoc_current hlocate)
        · rw [List.append_nil] at hlocate
          exact h names node hlocate
    · cases hfind
    · cases hfind
  unfold FileSystem.holds
  cases hfound : fs.find p with
  | error e => rfl
  | ok found => exact absurd hfound (hfind found.1 found.2)

theorem find_eq_dir (hp : p.text.isEmpty = false) :
    fs.find p = .ok (place, .dir entries) ↔ fs.enter? p = some (place, entries) := by
  have hsteps : walk fs.top maxLinks fs.workingDir p.steps = .ok (place, some (.dir entries)) ↔
      fs.enter? p = some (place, entries) := by
    rw [enter?_eq_some, Path.steps]
    split
    · exact walk_snoc_current _ _ _ _
    · rw [List.append_nil]
  rw [← hsteps, find, locate, hp, if_neg Bool.false_ne_true]
  split <;> simp_all

theorem holds_of_enter? (hp : p.text.isEmpty = false) (h : fs.enter? p = some (place, entries)) :
    fs.holds p = true := by
  rw [FileSystem.holds, (find_eq_dir hp).2 h]
  rfl

theorem isDir_iff (hp : p.text.isEmpty = false) :
    fs.isDir p = true ↔ ∃ place entries, fs.enter? p = some (place, entries) := by
  simp only [← find_eq_dir hp, isDir]
  split <;> simp_all

/-- The names that are listed are those in the directory that the steps lead to. -/
theorem list_eq_ok : fs.list p = .ok names ↔ p.text.isEmpty = false ∧
    ∃ place entries, fs.enter? p = some (place, entries) ∧ entries.map (·.1) = names := by
  constructor
  · intro h
    have htext : p.text.isEmpty = false := by
      rw [← Bool.not_eq_true]
      intro hempty
      rw [list, find, locate, if_pos hempty] at h
      cases h
    unfold list at h
    split at h
    · rename_i place entries hfind
      injection h with h
      exact ⟨htext, place, entries, (find_eq_dir htext).1 hfind, h⟩
    · cases h
    · cases h
  · rintro ⟨htext, place, entries, he, rfl⟩
    rw [list, (find_eq_dir htext).2 he]

theorem enter?_persist (hp : Persists fs.top fs'.top) (hw : fs'.workingDir = fs.workingDir)
    (h : fs.enter? p = some (place, entries)) : ∃ entries', fs'.enter? p = some (place, entries') := by
  obtain ⟨entries', hwalk⟩ := walk_persist_dir hp (enter?_eq_some.1 h)
  exact ⟨entries', enter?_eq_some.2 (hw ▸ hwalk)⟩

theorem isDir_persist (hp : Persists fs.top fs'.top) (hw : fs'.workingDir = fs.workingDir)
    (htext : p.text.isEmpty = false) (h : fs.isDir p = true) : fs'.isDir p = true := by
  obtain ⟨place, entries, he⟩ := (isDir_iff htext).1 h
  obtain ⟨entries', he'⟩ := enter?_persist hp hw he
  exact (isDir_iff htext).2 ⟨place, entries', he'⟩

section Below

variable (hc : p.components = above.components ++ [.name name])
include hc

theorem enter?_none_below (h : fs.enter? above = none) : fs.enter? p = none := by
  obtain ⟨e, he⟩ := walk_snoc_error (enter?_eq_none.1 h) name
  rw [enter?, hc, he]

theorem enter?_missing (h : fs.enter? above = some (place, entries))
    (hchild : (FileNode.dir entries).child? name = none) : fs.enter? p = none := by
  rw [enter?, hc, walk_snoc (enter?_eq_some.1 h) (by simp [hchild]), hchild]

theorem enter?_child (h : fs.enter? above = some (place, entries))
    (hchild : (FileNode.dir entries).child? name = some (.dir inner)) :
    fs.enter? p = some (place ++ [name], inner) := by
  rw [enter?_eq_some, hc, walk_snoc (enter?_eq_some.1 h) (by simp [hchild]), hchild]

end Below

theorem find_above (above : Path) :
    fs.find (if above.text.isEmpty then ⟨"."⟩ else above) = .ok (place, .dir entries) ↔
      fs.enter? above = some (place, entries) := by
  by_cases hempty : above.text.isEmpty = true
  · have hdot : Path.components ⟨"."⟩ = [.current] := by
      have htext : ".".toList = ['.'] := rfl
      rw [Path.components_eq, htext]
      rfl
    rw [if_pos hempty, find_eq_dir (by rfl), enter?_eq_some, enter?_eq_some, hdot,
      Path.components_of_text_isEmpty hempty, walk, walk, walk]
  · rw [if_neg hempty, find_eq_dir (by simpa using hempty)]

theorem entryPlace_of_enter? (hp : p.parent? = some above) (hn : p.last? = some (.name name))
    (h : fs.enter? above = some (place, entries)) :
    fs.entryPlace p = .ok (place ++ [name], (FileNode.dir entries).child? name) := by
  unfold entryPlace
  rw [hp, Path.fileName?_eq_some.2 hn]
  simp only [(find_above above).2 h]

theorem entryPlace_eq_ok (hp : p.parent? = some above) (hn : p.last? = some (.name name))
    (h : fs.entryPlace p = .ok (names, found)) : ∃ place entries,
      fs.enter? above = some (place, entries) ∧ names = place ++ [name] ∧
        found = (FileNode.dir entries).child? name := by
  unfold entryPlace at h
  rw [hp, Path.fileName?_eq_some.2 hn] at h
  simp only at h
  split at h
  · rename_i place entries hfind
    cases h
    exact ⟨place, entries, (find_above above).1 hfind, rfl, rfl⟩
  · cases h
  · cases h

theorem name_of_free (h : fs.entryPlace p = .ok (names, none)) : ∃ above name,
    p.parent? = some above ∧ p.last? = some (.name name) := by
  unfold entryPlace at h
  split at h
  · rename_i above name hp hn
    exact ⟨above, name, hp, Path.fileName?_eq_some.1 hn⟩
  · cases hf : fs.find p <;> rw [hf] at h <;> cases h

/-- Making a directory puts an empty one under a name that was free. -/
theorem makeDir_eq_ok (h : fs.makeDir p = .ok fs') : ∃ above name place entries,
    p.parent? = some above ∧ p.last? = some (.name name) ∧
      fs.enter? above = some (place, entries) ∧ (FileNode.dir entries).child? name = none ∧
      fs' = fs.put (place ++ [name]) (.dir []) := by
  unfold makeDir at h
  split at h
  · rename_i names hplace
    obtain ⟨above, name, hp, hn⟩ := name_of_free hplace
    obtain ⟨place, entries, he, rfl, hc⟩ := entryPlace_eq_ok hp hn hplace
    injection h with h
    exact ⟨above, name, place, entries, hp, hn, he, hc.symm, h.symm⟩
  · cases h
  · cases h

theorem persists_put_dir (hdir : fs.top.at? place = some (.dir entries))
    (hfree : (FileNode.dir entries).child? name = none) :
    Persists fs.top (fs.put (place ++ [name]) (.dir [])).top := by
  intro names
  by_cases hbelow : (place ++ [name]) <+: names
  · obtain ⟨more, rfl⟩ := hbelow
    have hnone : fs.top.look (place ++ [name] ++ more) = none := by
      rw [FileNode.look_eq_none, FileNode.at?_append, FileNode.at?_concat, hdir]
      simp [hfree]
    rw [hnone]
    simp
  · rw [look_put hbelow]
    exact ⟨id, fun _ => id⟩

theorem enter?_makeDir (h : fs.makeDir p = .ok fs') :
    ∃ place, fs'.enter? p = some (place, []) := by
  obtain ⟨above, name, place, entries, hp, hn, he, hfree, rfl⟩ := makeDir_eq_ok h
  obtain ⟨c, hc, _⟩ := Path.components_parent? hp
  obtain rfl : c = .name name := by
    rw [Path.last?, hc, List.getLast?_concat] at hn
    exact Option.some.inj hn
  have hdir := at?_of_enter? he
  obtain ⟨entries', he'⟩ := enter?_persist (persists_put_dir hdir hfree) (workingDir_put _ _ _) he
  have hentries : entries' = FileNode.putEntry name (.dir []) entries := by
    have hat := at?_of_enter? he'
    rw [at?_put hdir] at hat
    simpa using hat.symm
  refine ⟨place ++ [name], enter?_child hc he' ?_⟩
  rw [hentries, FileNode.child?_putEntry, if_pos rfl]

theorem lineage_succ (n : Nat) (p : Path) :
    lineage (n + 1) p = (p.parent?.elim [] (lineage n)) ++ [p] := by
  rw [lineage]
  cases p.parent? <;> rfl

/-- The paths above a path take the first of its steps. -/
theorem components_of_mem_lineage {n : Nat} {q : Path} (h : q ∈ lineage n p) :
    ∃ more, p.components = q.components ++ more := by
  induction n generalizing p with
  | zero => cases h
  | succ n ih =>
    rw [lineage_succ] at h
    rcases List.mem_append.1 h with h | h
    · cases hq : p.parent? with
      | none =>
        rw [hq] at h
        cases h
      | some above =>
        rw [hq] at h
        obtain ⟨c, hc, _⟩ := Path.components_parent? hq
        obtain ⟨more, hmore⟩ := ih h
        exact ⟨more ++ [c], by rw [hc, hmore, List.append_assoc]⟩
    · rw [List.mem_singleton.1 h]
      exact ⟨[], (List.append_nil _).symm⟩

/-- Directories are made from the top down. -/
theorem makeDirs_eq (hp : p.components ≠ []) :
    fs.makeDirs p = p.parent?.elim (pure fs) fs.makeDirs >>= fun fs =>
      if fs.isDir p then .ok fs else fs.makeDir p := by
  have htext := Path.text_isEmpty_of_ne_nil hp
  obtain ⟨n, hn⟩ := Nat.exists_eq_succ_of_ne_zero (mt List.length_eq_zero_iff.1 hp)
  unfold makeDirs
  rw [hn, lineage_succ, List.filter_append, List.foldlM_append]
  cases hq : p.parent? with
  | none => simp [htext]
  | some above =>
    obtain ⟨c, hc, _⟩ := Path.components_parent? hq
    have hlen : above.components.length = n := by
      rw [hc, List.length_append] at hn
      simpa using hn
    simp [htext, hlen]

theorem makeDirs_eq_ok (hp : p.components ≠ []) (h : fs.makeDirs p = .ok fs') :
    ∃ mid, p.parent?.elim (pure fs) fs.makeDirs = .ok mid ∧
      (mid.isDir p = true ∧ fs' = mid ∨ mid.isDir p = false ∧ mid.makeDir p = .ok fs') := by
  rw [makeDirs_eq hp] at h
  cases hmid : p.parent?.elim (pure fs) fs.makeDirs with
  | error e =>
    rw [hmid] at h
    cases h
  | ok mid =>
    rw [hmid] at h
    refine ⟨mid, rfl, ?_⟩
    change (if mid.isDir p = true then Except.ok mid else mid.makeDir p) = .ok fs' at h
    split at h
    · rename_i hdir
      injection h with h
      exact .inl ⟨hdir, h.symm⟩
    · rename_i hdir
      exact .inr ⟨by simpa using hdir, h⟩

/-- A path without names can be found, but not made. -/
theorem makeDirs_of_no_name (hp : ∀ name, Component.name name ∉ p.components)
    (h : fs.makeDirs p = .ok fs') : fs' = fs := by
  induction hn : p.components.length generalizing p fs' with
  | zero =>
    rw [makeDirs, hn] at h
    injection h with h
    exact h.symm
  | succ n ih =>
    have hne : p.components ≠ [] := by
      intro hnil
      simp [hnil] at hn
    obtain ⟨mid, hmid, hlast⟩ := makeDirs_eq_ok hne h
    have hmidfs : mid = fs := by
      cases hq : p.parent? with
      | none =>
        rw [hq] at hmid
        injection hmid with hmid
        exact hmid.symm
      | some above =>
        rw [hq] at hmid
        obtain ⟨c, hc, _⟩ := Path.components_parent? hq
        refine ih (fun name hmem => hp name ?_) hmid ?_
        · rw [hc]
          exact List.mem_append_left _ hmem
        · rw [hc] at hn
          simpa using hn
    rcases hlast with ⟨_, rfl⟩ | ⟨_, hmake⟩
    · exact hmidfs
    · obtain ⟨_, name, _, _, _, hname, _⟩ := makeDir_eq_ok hmake
      exact absurd (List.mem_of_getLast? hname) (hp name)

/-- What the last of the directories on the way adds to the others. -/
theorem enter?_makeDirs_step {mid : FileSystem} (hc : p.components = above.components ++ [.name name])
    (hmid : mid = fs ∨ fs.enter? above = none ∧ ∃ place, mid.enter? above = some (place, []))
    (hlast : mid.isDir p = true ∧ fs' = mid ∨ mid.isDir p = false ∧ mid.makeDir p = .ok fs') :
    (fs' = fs ∧ ∃ place entries, fs.enter? p = some (place, entries)) ∨
      fs.enter? p = none ∧ ∃ place, fs'.enter? p = some (place, []) := by
  have htext : p.text.isEmpty = false := Path.text_isEmpty_of_ne_nil (by simp [hc])
  have hisDir : mid.isDir p = true ↔ _ := isDir_iff htext
  rcases hmid with rfl | ⟨hnone, place, hnew⟩
  · rcases hlast with ⟨hdir, rfl⟩ | ⟨hdir, hmake⟩
    · exact .inl ⟨rfl, hisDir.1 hdir⟩
    · refine .inr ⟨?_, enter?_makeDir hmake⟩
      rw [Option.eq_none_iff_forall_ne_some]
      rintro ⟨place, entries⟩ he
      rw [hisDir.2 ⟨place, entries, he⟩] at hdir
      cases hdir
  · refine .inr ⟨enter?_none_below hc hnone, ?_⟩
    rcases hlast with ⟨hdir, rfl⟩ | ⟨_, hmake⟩
    · obtain ⟨_, _, he⟩ := hisDir.1 hdir
      rw [enter?_missing hc hnew (FileNode.child?_nil name)] at he
      cases he
    · exact enter?_makeDir hmake

theorem makeDirs_of_name (hn : p.last? = some (.name name)) (h : fs.makeDirs p = .ok fs') :
    ∃ above mid, p.components = above.components ++ [.name name] ∧ fs.makeDirs above = .ok mid ∧
      (mid.isDir p = true ∧ fs' = mid ∨ mid.isDir p = false ∧ mid.makeDir p = .ok fs') := by
  obtain ⟨above, hq, hc⟩ := Path.exists_parent? hn
  have hne : p.components ≠ [] := by simp [hc]
  obtain ⟨mid, hmid, hlast⟩ := makeDirs_eq_ok hne h
  rw [hq] at hmid
  exact ⟨above, mid, hc, hmid, hlast⟩

/-- Making a directory that is there has no effect; making one that is not leaves it empty. -/
theorem enter?_makeDirs (hp : p.Direct) (h : fs.makeDirs p = .ok fs') :
    (fs' = fs ∧ ∃ place entries, fs.enter? p = some (place, entries)) ∨
      fs.enter? p = none ∧ ∃ place, fs'.enter? p = some (place, []) := by
  obtain ⟨up, down, name, hp, hup⟩ := hp
  induction down using List.reverseRecOn generalizing p name fs' with
  | nil =>
    have hn : p.last? = some (.name name) := by simp [Path.last?, hp]
    obtain ⟨above, mid, hc, hmid, hlast⟩ := makeDirs_of_name hn h
    obtain rfl : above.components = up := by simpa [hp] using hc.symm
    exact enter?_makeDirs_step hc (.inl (makeDirs_of_no_name hup hmid)) hlast
  | append_singleton down last ih =>
    have hn : p.last? = some (.name name) := by simp [Path.last?, hp]
    obtain ⟨above, mid, hc, hmid, hlast⟩ := makeDirs_of_name hn h
    have habove : above.components = up ++ (down ++ [last]).map Component.name := by
      rw [hp, List.map_append, ← List.append_assoc] at hc
      exact (List.append_inj_left' hc rfl).symm
    exact enter?_makeDirs_step hc ((ih hmid last habove).imp_left (·.1)) hlast

/-- What every directory made on the way keeps, making all of them keeps. -/
theorem makeDirs_keeps {P : FileSystem → Prop}
    (hstep : ∀ {g g' : FileSystem} {q : Path} {more : List Component},
      p.components = q.components ++ more → P g → g.makeDir q = .ok g' → P g')
    (h : fs.makeDirs p = .ok fs') (hfs : P fs) : P fs' := by
  unfold makeDirs at h
  have hpaths : ∀ q ∈ (lineage p.components.length p).filter (fun q => !q.text.isEmpty),
      ∃ more, p.components = q.components ++ more :=
    fun q hq => components_of_mem_lineage (List.mem_filter.1 hq).1
  generalize (lineage p.components.length p).filter (fun q => !q.text.isEmpty) = paths at h hpaths
  induction paths generalizing fs with
  | nil =>
    injection h with h
    exact h ▸ hfs
  | cons q paths ih =>
    rw [List.forall_mem_cons] at hpaths
    obtain ⟨⟨more, hq⟩, hpaths⟩ := hpaths
    rw [List.foldlM_cons] at h
    by_cases hdir : fs.isDir q = true
    · rw [if_pos hdir] at h
      exact ih hfs h hpaths
    · rw [if_neg hdir] at h
      cases hmake : fs.makeDir q with
      | error e =>
        rw [hmake] at h
        cases h
      | ok mid =>
        rw [hmake] at h
        exact ih (hstep hq hfs hmake) h hpaths

/-- The directories on the way of a path are all there, itself included. -/
def Made (fs : FileSystem) (p : Path) : Prop :=
  ∀ q ∈ (lineage p.components.length p).filter fun q => !q.text.isEmpty, fs.isDir q = true

theorem Made.persist (hp : Persists fs.top fs'.top) (hw : fs'.workingDir = fs.workingDir)
    (h : fs.Made p) : fs'.Made p := by
  intro q hq
  exact isDir_persist hp hw (by simpa using (List.mem_filter.1 hq).2) (h q hq)

theorem Made.exists_enter? (hn : p.last? = some (.name name)) (h : fs.Made p) :
    ∃ place entries, fs.enter? p = some (place, entries) := by
  obtain ⟨above, _, hc⟩ := Path.exists_parent? hn
  have htext : p.text.isEmpty = false := Path.text_isEmpty_of_ne_nil (by simp [hc])
  refine (isDir_iff htext).1 (h p (List.mem_filter.2 ⟨?_, by simp [htext]⟩))
  rw [hc, List.length_append, List.length_singleton, lineage_succ]
  exact List.mem_append_right _ List.mem_cons_self

theorem makeDirs_of_made (h : fs.Made p) : fs.makeDirs p = .ok fs := by
  unfold Made at h
  unfold makeDirs
  generalize (lineage p.components.length p).filter (fun q => !q.text.isEmpty) = paths at h ⊢
  induction paths with
  | nil => rfl
  | cons q paths ih =>
    rw [List.forall_mem_cons] at h
    rw [List.foldlM_cons, if_pos h.1]
    exact ih h.2

theorem enter?_root (fs : FileSystem) (hp : p.components = [.root]) :
    fs.enter? p = some ([], fs.root) := by
  rw [enter?, hp, walk, walk]
  rfl

/-- A directory at the top is entered by its name. -/
theorem enter?_top (name : String) (hp : p.components = [.root, .name name])
    (h : fs.top.at? [name] = some (.dir entries)) : fs.enter? p = some ([name], entries) := by
  rw [enter?_eq_some, hp, walk, walk_name_dir h, walk, List.nil_append, h]

theorem made_top (name : String)
    (hway : (lineage p.components.length p).filter (fun q => !q.text.isEmpty) = [⟨"/"⟩, p])
    (hp : p.components = [.root, .name name]) (h : fs.top.at? [name] = some (.dir entries)) :
    fs.Made p := by
  have hroot : fs.enter? ⟨"/"⟩ = some ([], fs.root) := enter?_root fs (by decide)
  have htext : p.text.isEmpty = false := Path.text_isEmpty_of_ne_nil (by simp [hp])
  rw [Made, hway, List.forall_mem_cons, List.forall_mem_singleton]
  exact ⟨(isDir_iff (by decide)).2 ⟨_, _, hroot⟩, (isDir_iff htext).2 ⟨_, _, enter?_top name hp h⟩⟩

theorem persists_makeDir {q : Path} (h : fs.makeDir q = .ok fs') :
    Persists fs.top fs'.top ∧ fs'.workingDir = fs.workingDir := by
  obtain ⟨_, _, _, _, _, _, he, hfree, rfl⟩ := makeDir_eq_ok h
  exact ⟨persists_put_dir (at?_of_enter? he) hfree, workingDir_put _ _ _⟩

theorem isDir_makeDir {q : Path} (htext : q.text.isEmpty = false) (h : fs.makeDir q = .ok fs') :
    fs'.isDir q = true := by
  obtain ⟨place, he⟩ := enter?_makeDir h
  exact (isDir_iff htext).2 ⟨place, [], he⟩

/-- What was to be made is there. -/
theorem made_makeDirs (h : fs.makeDirs p = .ok fs') : fs'.Made p := by
  unfold makeDirs at h
  unfold Made
  have htext : ∀ q ∈ (lineage p.components.length p).filter (fun q => !q.text.isEmpty),
      q.text.isEmpty = false := fun q hq => by simpa using (List.mem_filter.1 hq).2
  generalize (lineage p.components.length p).filter (fun q => !q.text.isEmpty) = paths at h htext ⊢
  -- What is there at a step is there at the end.
  suffices hall : (Persists fs.top fs'.top ∧ fs'.workingDir = fs.workingDir) ∧
      ∀ q ∈ paths, fs'.isDir q = true from hall.2
  induction paths generalizing fs with
  | nil =>
    injection h with h
    subst h
    exact ⟨⟨.refl _, rfl⟩, fun _ hq => by cases hq⟩
  | cons q paths ih =>
    rw [List.forall_mem_cons] at htext
    rw [List.foldlM_cons] at h
    obtain ⟨mid, hmid, hp, hdir⟩ : ∃ mid, (if fs.isDir q then .ok fs else fs.makeDir q) = .ok mid ∧
        (Persists fs.top mid.top ∧ mid.workingDir = fs.workingDir) ∧ mid.isDir q = true := by
      by_cases hdir : fs.isDir q = true
      · exact ⟨fs, if_pos hdir, ⟨.refl _, rfl⟩, hdir⟩
      · rw [if_neg hdir] at h ⊢
        cases hmake : fs.makeDir q with
        | error e =>
          rw [hmake] at h
          cases h
        | ok mid => exact ⟨mid, rfl, persists_makeDir hmake, isDir_makeDir htext.1 hmake⟩
    rw [hmid] at h
    obtain ⟨hrest, hall⟩ := ih h htext.2
    rw [List.forall_mem_cons]
    exact ⟨⟨hp.1.trans hrest.1, hrest.2.trans hp.2⟩, isDir_persist hrest.1 hrest.2 htext.1 hdir, hall⟩

/-- The files without an entry of the directory at a place. -/
def without (fs : FileSystem) (place : List String) (name : String) : FileSystem :=
  { fs with root := FileNode.change (FileNode.dropEntry name) place fs.root }

theorem at?_without (hdir : fs.top.at? place = some (.dir entries)) :
    (fs.without place name).top.at? place = some (.dir (FileNode.dropEntry name entries)) :=
  FileNode.at?_change place hdir

theorem look_without (h : ¬ (place ++ [name]) <+: names) :
    (fs.without place name).top.look names = fs.top.look names := by
  apply FileNode.look_change (P := (· = name)) _ place names (by simpa using h)
  intro entries other hother
  rw [FileNode.child?_dropEntry, if_neg hother]

theorem at?_without_self (hdir : fs.top.at? place = some (.dir entries)) (more : List String) :
    (fs.without place name).top.at? (place ++ [name] ++ more) = none := by
  rw [FileNode.at?_append, FileNode.at?_concat, at?_without hdir]
  simp [FileNode.child?_dropEntry]

/-- Without an entry there are no directories and links but those there were. -/
theorem persists_without (hdir : fs.top.at? place = some (.dir entries)) :
    Persists (fs.without place name).top fs.top := by
  intro names
  by_cases hbelow : (place ++ [name]) <+: names
  · obtain ⟨more, rfl⟩ := hbelow
    rw [FileNode.look_eq_none.2 (at?_without_self hdir more)]
    simp
  · rw [look_without hbelow]
    exact ⟨id, fun _ => id⟩

theorem remove_of_child (hq : p.parent? = some above) (hn : p.last? = some (.name name))
    (he : fs.enter? above = some (place, entries)) {node : FileNode}
    (hchild : (FileNode.dir entries).child? name = some node) :
    fs.remove p = .ok (fs.without place name) := by
  rw [remove, entryPlace_of_enter? hq hn he, hchild]
  simp [without]

theorem remove_eq_ok (hq : p.parent? = some above) (hn : p.last? = some (.name name))
    (h : fs.remove p = .ok fs') :
    ∃ place entries, fs.enter? above = some (place, entries) ∧ fs' = fs.without place name := by
  unfold remove at h
  split at h
  · cases h
  · rename_i names node hplace
    obtain ⟨place, entries, he, rfl, _⟩ := entryPlace_eq_ok hq hn hplace
    rw [List.getLast?_concat, List.dropLast_concat] at h
    injection h with h
    exact ⟨place, entries, he, h.symm⟩
  · cases h

/-- Nothing stands at a path whose entry was removed. -/
theorem absent_remove (hn : p.last? = some (.name name)) (h : fs.remove p = .ok fs') :
    fs'.Absent p := by
  obtain ⟨above, hq, hc⟩ := Path.exists_parent? hn
  obtain ⟨place, entries, he, rfl⟩ := remove_eq_ok hq hn h
  have hdir := at?_of_enter? he
  intro names node hwalk
  rw [hc] at hwalk
  cases hup : (fs.without place name).enter? above with
  | none =>
    obtain ⟨e, herror⟩ := walk_snoc_error (enter?_eq_none.1 hup) name
    rw [herror] at hwalk
    cases hwalk
  | some there =>
    obtain ⟨place', entries'⟩ := there
    -- The directory above was reached in the same way before.
    obtain ⟨_, hbefore⟩ := enter?_persist (persists_without hdir) rfl hup
    rw [he] at hbefore
    cases hbefore
    have hat := at?_of_enter? hup
    rw [at?_without hdir] at hat
    injection hat with hat
    injection hat with hat
    have hgone : (FileNode.dir entries').child? name = none := by
      rw [← hat, FileNode.child?_dropEntry, if_pos rfl]
    rw [walk_snoc (enter?_eq_some.1 hup) (by simp [hgone]), hgone] at hwalk
    cases hwalk

/-- The entry that a path leads to a directory by. -/
theorem exists_child_of_enter? (hc : p.components = above.components ++ [.name name])
    (h : fs.enter? p = some (place, inner)) : ∃ up entries node,
      fs.enter? above = some (up, entries) ∧ (FileNode.dir entries).child? name = some node := by
  cases hup : fs.enter? above with
  | none =>
    rw [enter?_none_below hc hup] at h
    cases h
  | some there =>
    obtain ⟨up, entries⟩ := there
    cases hchild : (FileNode.dir entries).child? name with
    | none =>
      rw [enter?_missing hc hup hchild] at h
      cases h
    | some node => exact ⟨up, entries, node, rfl, hchild⟩

/-- A path that ends in the name of a link. -/
theorem endsInLink_iff (hq : p.parent? = some above) (hn : p.last? = some (.name name)) :
    fs.endsInLink p = true ↔ ∃ place entries target, fs.enter? above = some (place, entries) ∧
      (FileNode.dir entries).child? name = some (.link target) := by
  rw [endsInLink, Path.fileName?_eq_some.2 hn]
  constructor
  · intro h
    split at h
    · rename_i names target hplace
      obtain ⟨place, entries, he, _, hchild⟩ := entryPlace_eq_ok hq hn hplace
      exact ⟨place, entries, target, he, hchild.symm⟩
    · cases h
  · rintro ⟨place, entries, target, he, hchild⟩
    rw [entryPlace_of_enter? hq hn he, hchild]
    rfl

theorem last?_of_endsInLink (h : fs.endsInLink p = true) : ∃ name, p.last? = some (.name name) := by
  unfold endsInLink at h
  split at h
  · obtain ⟨name, hn⟩ := Option.isSome_iff_exists.1 h
    exact ⟨name, Path.fileName?_eq_some.1 hn⟩
  · cases h

/-- Files in which the directory at a place is empty and all else is as it was. -/
structure Emptied (fs fs' : FileSystem) (place : List String) : Prop where
  workingDir : fs'.workingDir = fs.workingDir
  dir : fs'.top.at? place = some (.dir [])
  look : ∀ names, ¬ place <+: names → fs'.top.look names = fs.top.look names

theorem emptied_clearDir (hdir : fs.top.at? place = some (.dir inner)) :
    Emptied fs (fs.clearDir place) place where
  workingDir := rfl
  dir := FileNode.at?_change place hdir
  look names hnames := by
    apply FileNode.look_change (P := fun _ => True) (by simp) place names
    intro name _ hbelow
    exact hnames ((List.prefix_append place [name]).trans hbelow)

theorem Emptied.look_below (h : Emptied fs fs' place) (name : String) (more : List String) :
    fs'.top.look (place ++ name :: more) = none := by
  rw [FileNode.look_eq_none, FileNode.at?_append, h.dir]
  rfl

section Emptied

variable (h : Emptied fs fs' place) (hdir : fs.top.at? place = some (.dir inner))
include h hdir

/-- There are no directories and links but those there were. -/
theorem Emptied.persists : Persists fs'.top fs.top := by
  intro names
  by_cases hbelow : place <+: names
  · obtain ⟨more, rfl⟩ := hbelow
    cases more with
    | nil =>
      rw [List.append_nil, FileNode.look_eq_dir.2 ⟨[], h.dir⟩, FileNode.look_eq_dir.2 ⟨inner, hdir⟩]
      exact ⟨id, fun _ => id⟩
    | cons name more =>
      rw [h.look_below]
      simp
  · rw [h.look names hbelow]
    exact ⟨id, fun _ => id⟩

/-- A path that leads to the directory no longer leads anywhere, or to no entries. -/
theorem Emptied.entries_eq_nil (he : fs.enter? p = some (place, inner)) {there : List String}
    (he' : fs'.enter? p = some (there, entries)) : entries = [] := by
  obtain ⟨_, hbefore⟩ := enter?_persist (h.persists hdir) h.workingDir.symm he'
  rw [he] at hbefore
  cases hbefore
  have hat := at?_of_enter? he'
  rw [h.dir] at hat
  cases hat
  rfl

/-- If the directory held nothing but files, all directories and links are still there. -/
theorem Emptied.persists_of_plain (hplain : FileNode.Plain inner) : Persists fs.top fs'.top := by
  intro names
  by_cases hbelow : place <+: names
  · obtain ⟨more, rfl⟩ := hbelow
    cases more with
    | nil =>
      rw [List.append_nil, FileNode.look_eq_dir.2 ⟨[], h.dir⟩, FileNode.look_eq_dir.2 ⟨inner, hdir⟩]
      exact ⟨id, fun _ => id⟩
    | cons name more =>
      rcases FileNode.loose_below hdir hplain name more with hold | ⟨content, hold⟩ <;>
        simp [hold]
  · rw [h.look names hbelow]
    exact ⟨id, fun _ => id⟩

/-- The path then still leads to it. -/
theorem Emptied.enter? (he : fs.enter? p = some (place, inner)) (hplain : FileNode.Plain inner) :
    fs'.enter? p = some (place, []) := by
  obtain ⟨entries, he'⟩ := enter?_persist (h.persists_of_plain hdir hplain) h.workingDir he
  obtain rfl := h.entries_eq_nil hdir he he'
  exact he'

end Emptied

end Dependents.FileSystem
