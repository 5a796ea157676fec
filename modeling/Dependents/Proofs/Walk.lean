import Dependents.Proofs.PathSteps
import Dependents.Proofs.Places

/-! Walks along paths: what a walk depends on, and how it goes on by one more step. A walk passes
through directories and links only, so it does not notice changes to files it does not end at. -/
namespace Dependents.FileSystem

variable {top top' : FileNode} {links : Nat} {here m : List String} {steps rest : List Component}
  {name : String} {found : Option FileNode} {node : FileNode}
  {entries : List (String × FileNode)} {target : Path} {content : List UInt8}

theorem walk_name_dir (h : top.at? (here ++ [name]) = some (.dir entries)) :
    walk top links here (.name name :: rest) = walk top links (here ++ [name]) rest := by
  rw [FileNode.at?_concat] at h
  rw [walk, h]

theorem walk_name_link (h : top.at? (here ++ [name]) = some (.link target)) :
    walk top (links + 1) here (.name name :: rest) = walk top links here (target.steps ++ rest) := by
  rw [FileNode.at?_concat] at h
  rw [walk, h]

theorem walk_name_file (h : top.at? (here ++ [name]) = some (.file content)) :
    walk top links here [.name name] = .ok (here ++ [name], some (.file content)) := by
  rw [FileNode.at?_concat] at h
  rw [walk, h]
  rfl

theorem walk_name_none (h : top.at? (here ++ [name]) = none)
    (hdir : top.at? here = some (.dir entries)) :
    walk top links here [.name name] = .ok (here ++ [name], none) := by
  rw [FileNode.at?_concat] at h
  rw [walk, h]
  simp [hdir, FileNode.isDir]

/-- A file at the top is found by its name. -/
theorem find_top {fs : FileSystem} {p : Path} (name : String) (htext : p.text.isEmpty = false)
    (hsteps : p.steps = [.root, .name name]) (h : fs.top.at? [name] = some (.file content)) :
    fs.find p = .ok ([name], .file content) := by
  rw [find, locate, htext, if_neg Bool.false_ne_true, hsteps, walk, walk_name_file h]
  rfl

/-- No path leads to a file if its first name is missing. -/
theorem isFile_top_none {fs : FileSystem} {p : Path} (name : String)
    (hsteps : ∃ rest, p.steps = .root :: .name name :: rest) (h : fs.top.at? [name] = none) :
    fs.isFile p = false := by
  obtain ⟨rest, hsteps⟩ := hsteps
  have hchild : (fs.top.at? []).bind (·.child? name) = none := by
    rw [← FileNode.at?_concat]
    exact h
  have hlocate : fs.locate p = .error .notFound ∨ fs.locate p = .ok ([name], none) := by
    unfold locate
    split
    · exact .inl rfl
    · rw [hsteps, walk, walk, hchild]
      dsimp only
      split
      · exact .inr rfl
      · exact .inl rfl
  rcases hlocate with hlocate | hlocate <;> rw [isFile, find, hlocate]

theorem dir_of_child {found : FileNode} (h : (top.at? here).bind (·.child? name) = some found) :
    ∃ entries, top.at? here = some (.dir entries) := by
  obtain ⟨node, hnode, hchild⟩ := Option.bind_eq_some_iff.1 h
  cases node with
  | dir entries => exact ⟨entries, hnode⟩
  | file content => cases hchild
  | link target => cases hchild

/-- A walk says what stands where it ends. -/
theorem walk_at (h : walk top links here steps = .ok (m, found)) : found = top.at? m := by
  fun_induction walk top links here steps with
  | case1 links here => cases h; rfl
  | case2 links here rest ih => exact ih h
  | case3 links here rest ih => exact ih h
  | case4 links here rest ih => exact ih h
  | case5 links here name rest hnone _ => cases h; rw [FileNode.at?_concat, hnone]
  | case6 => cases h
  | case7 links here name rest entries _ ih => exact ih h
  | case8 links here name rest content hfile _ => cases h; rw [FileNode.at?_concat, hfile]
  | case9 => cases h
  | case10 => cases h
  | case11 here name rest target _ links ih => exact ih h

/-- Directories and links of one tree are there in another, too. -/
def Persists (top top' : FileNode) : Prop :=
  ∀ names, (top.look names = some (.dir []) → top'.look names = some (.dir [])) ∧
    ∀ target, top.look names = some (.link target) → top'.look names = some (.link target)

theorem Persists.dir (h : Persists top top') {names : List String}
    (hd : top.at? names = some (.dir entries)) : ∃ entries', top'.at? names = some (.dir entries') :=
  FileNode.look_eq_dir.1 ((h names).1 (FileNode.look_eq_dir.2 ⟨entries, hd⟩))

theorem Persists.link (h : Persists top top') {names : List String}
    (hl : top.at? names = some (.link target)) : top'.at? names = some (.link target) :=
  FileNode.look_eq_link.1 ((h names).2 target (FileNode.look_eq_link.2 hl))

theorem Persists.refl (top : FileNode) : Persists top top :=
  fun _ => ⟨id, fun _ => id⟩

theorem Persists.trans {top'' : FileNode} (h : Persists top top') (h' : Persists top' top'') :
    Persists top top'' :=
  fun names => ⟨fun hd => (h' names).1 ((h names).1 hd),
    fun target hl => (h' names).2 target ((h names).2 target hl)⟩

/-- A walk ends at the same place in any tree that keeps the directories and links, if there is nothing
or a file there where the walk found nothing or a file. -/
theorem walk_kept (hp : Persists top top') (h : walk top links here steps = .ok (m, found))
    (hm : FileNode.Loose found → FileNode.Loose (top'.at? m)) :
    walk top' links here steps = .ok (m, top'.at? m) := by
  fun_induction walk top links here steps with
  | case1 links here =>
    injection h with h
    injection h with hhere _
    rw [walk, hhere]
  | case2 links here rest ih => rw [walk]; exact ih h
  | case3 links here rest ih => rw [walk]; exact ih h
  | case4 links here rest ih => rw [walk]; exact ih h
  | case5 links here name rest hnone hrest =>
    cases h
    obtain ⟨hrest, hdir⟩ := Bool.and_eq_true_iff.1 hrest
    obtain rfl := List.isEmpty_iff.1 hrest
    obtain ⟨node, hnode, hdir⟩ := (Option.any_eq_true _ _).1 hdir
    cases node with
    | file content => cases hdir
    | link target => cases hdir
    | dir entries =>
      obtain ⟨entries', hdir'⟩ := hp.dir hnode
      rcases hm (.inl rfl) with hnew | ⟨new, hnew⟩
      · rw [walk_name_none hnew hdir', hnew]
      · rw [walk_name_file hnew, hnew]
  | case6 => cases h
  | case7 links here name rest entries hdir ih =>
    rw [← FileNode.at?_concat] at hdir
    obtain ⟨entries', hdir'⟩ := hp.dir hdir
    rw [walk_name_dir hdir']
    exact ih h
  | case8 links here name rest content hfile hrest =>
    cases h
    obtain rfl := List.isEmpty_iff.1 hrest
    obtain ⟨entries, hdir⟩ := dir_of_child hfile
    obtain ⟨entries', hdir'⟩ := hp.dir hdir
    rcases hm (.inr ⟨content, rfl⟩) with hnew | ⟨new, hnew⟩
    · rw [walk_name_none hnew hdir', hnew]
    · rw [walk_name_file hnew, hnew]
  | case9 => cases h
  | case10 => cases h
  | case11 here name rest target hlink links ih =>
    rw [← FileNode.at?_concat] at hlink
    rw [walk_name_link (hp.link hlink)]
    exact ih h

theorem walk_persist_dir (hp : Persists top top')
    (h : walk top links here steps = .ok (m, some (.dir entries))) :
    ∃ entries', walk top' links here steps = .ok (m, some (.dir entries')) := by
  obtain ⟨entries', hdir⟩ := hp.dir (walk_at h).symm
  have hwalk := walk_kept hp h fun hloose => by simp [FileNode.Loose] at hloose
  exact ⟨entries', by rw [hwalk, hdir]⟩

/-- One more name is looked up in the directory that the steps before it lead to. -/
theorem walk_snoc (h : walk top links here steps = .ok (m, some (.dir entries)))
    (hlink : ∀ target, (FileNode.dir entries).child? name ≠ some (.link target)) :
    walk top links here (steps ++ [.name name]) =
      .ok (m ++ [name], (FileNode.dir entries).child? name) := by
  fun_induction walk top links here steps with
  | case1 links here =>
    injection h with h
    injection h with hhere hdir
    subst hhere
    have hchild : top.at? (here ++ [name]) = (FileNode.dir entries).child? name := by
      rw [FileNode.at?_concat, hdir]
      rfl
    rw [List.nil_append]
    cases hc : (FileNode.dir entries).child? name with
    | none => exact walk_name_none (hchild.trans hc) hdir
    | some child =>
      rw [hc] at hchild
      cases child with
      | file content => exact walk_name_file hchild
      | dir inner => rw [walk_name_dir hchild, walk, hchild]
      | link target => exact absurd hc (hlink target)
  | case2 links here rest ih => rw [List.cons_append, walk]; exact ih h
  | case3 links here rest ih => rw [List.cons_append, walk]; exact ih h
  | case4 links here rest ih => rw [List.cons_append, walk]; exact ih h
  | case5 => cases h
  | case6 => cases h
  | case7 links here step rest inner hdir ih =>
    rw [← FileNode.at?_concat] at hdir
    rw [List.cons_append, walk_name_dir hdir]
    exact ih h
  | case8 => cases h
  | case9 => cases h
  | case10 => cases h
  | case11 here step rest target hl links ih =>
    rw [← FileNode.at?_concat] at hl
    rw [List.cons_append, walk_name_link hl, ← List.append_assoc]
    exact ih h

/-- No further name can be looked up where the steps lead to no directory. -/
theorem walk_snoc_error (h : ∀ m entries, walk top links here steps ≠ .ok (m, some (.dir entries)))
    (name : String) : ∃ e, walk top links here (steps ++ [.name name]) = .error e := by
  fun_induction walk top links here steps with
  | case1 links here =>
    have hnone : top.at? (here ++ [name]) = none := by
      rw [FileNode.at?_concat]
      cases hat : top.at? here with
      | none => rfl
      | some node =>
        cases node with
        | dir entries => exact absurd (by rw [hat]) (h here entries)
        | file content => rfl
        | link target => rfl
    refine ⟨.notFound, ?_⟩
    rw [FileNode.at?_concat] at hnone
    rw [List.nil_append, walk, hnone]
    cases hat : top.at? here with
    | none => rfl
    | some node =>
      cases node with
      | dir entries => exact absurd (by rw [hat]) (h here entries)
      | file content => rfl
      | link target => rfl
  | case2 links here rest ih => rw [List.cons_append, walk]; exact ih h
  | case3 links here rest ih => rw [List.cons_append, walk]; exact ih h
  | case4 links here rest ih => rw [List.cons_append, walk]; exact ih h
  | case5 links here step rest hnone _ | case6 links here step rest hnone _ =>
    rw [List.cons_append, walk, hnone]
    exact ⟨.notFound, by simp⟩
  | case7 links here step rest inner hdir ih =>
    rw [← FileNode.at?_concat] at hdir
    rw [List.cons_append, walk_name_dir hdir]
    exact ih h
  | case8 links here step rest content hfile _ | case9 links here step rest content hfile _ =>
    rw [List.cons_append, walk, hfile]
    exact ⟨.notDirectory, by simp⟩
  | case10 here step rest target hl =>
    rw [List.cons_append, walk, hl]
    exact ⟨.tooManyLinks, rfl⟩
  | case11 here step rest target hl links ih =>
    rw [← FileNode.at?_concat] at hl
    rw [List.cons_append, walk_name_link hl, ← List.append_assoc]
    exact ih h

theorem walk_current (h : ∀ step ∈ steps, step = .current) :
    walk top links here steps = .ok (here, top.at? here) := by
  induction steps with
  | nil => rw [walk]
  | cons step steps ih =>
    obtain ⟨rfl, hsteps⟩ := List.forall_mem_cons.1 h
    rw [walk]
    exact ih hsteps

theorem walk_snoc_current (top : FileNode) (links : Nat) (here : List String)
    (steps : List Component) :
    walk top links here (steps ++ [.current]) = .ok (m, some (.dir entries)) ↔
      walk top links here steps = .ok (m, some (.dir entries)) := by
  fun_induction walk top links here steps with
  | case1 links here => rw [List.nil_append, walk, walk]
  | case2 links here rest ih => rw [List.cons_append, walk]; exact ih
  | case3 links here rest ih => rw [List.cons_append, walk]; exact ih
  | case4 links here rest ih => rw [List.cons_append, walk]; exact ih
  | case5 links here step rest hnone _ | case6 links here step rest hnone _ =>
    rw [List.cons_append, walk, hnone]
    simp
  | case7 links here step rest inner hdir ih =>
    rw [← FileNode.at?_concat] at hdir
    rw [List.cons_append, walk_name_dir hdir]
    exact ih
  | case8 links here step rest content hfile _ | case9 links here step rest content hfile _ =>
    rw [List.cons_append, walk, hfile]
    simp
  | case10 here step rest target hl =>
    rw [List.cons_append, walk, hl]
  | case11 here step rest target hl links ih =>
    rw [← FileNode.at?_concat] at hl
    rw [List.cons_append, walk_name_link hl, ← List.append_assoc]
    exact ih

theorem walk_of_snoc_current (h : walk top links here (steps ++ [.current]) = .ok (m, some node)) :
    walk top links here steps = .ok (m, some node) := by
  fun_induction walk top links here steps with
  | case1 links here => rwa [List.nil_append, walk, walk] at h
  | case2 links here rest ih => rw [List.cons_append, walk] at h; exact ih h
  | case3 links here rest ih => rw [List.cons_append, walk] at h; exact ih h
  | case4 links here rest ih => rw [List.cons_append, walk] at h; exact ih h
  | case5 links here step rest hnone _ | case6 links here step rest hnone _ =>
    rw [List.cons_append, walk, hnone] at h
    simp at h
  | case7 links here step rest inner hdir ih =>
    rw [← FileNode.at?_concat] at hdir
    rw [List.cons_append, walk_name_dir hdir] at h
    exact ih h
  | case8 links here step rest content hfile _ | case9 links here step rest content hfile _ =>
    rw [List.cons_append, walk, hfile] at h
    simp at h
  | case10 here step rest target hl =>
    rw [List.cons_append, walk, hl] at h
    exact h
  | case11 here step rest target hl links ih =>
    rw [← FileNode.at?_concat] at hl
    rw [List.cons_append, walk_name_link hl, ← List.append_assoc] at h
    exact ih h

/-- A walk that reaches a directory has found a directory or a link under each name on its way. -/
theorem walk_through (hdir : walk top links here steps = .ok (m, some (.dir entries)))
    {place : List String} {inner : List (String × FileNode)}
    (h : walk top links here (steps ++ .name name :: rest) = .ok (place, some (.dir inner))) :
    (∃ below, (FileNode.dir entries).child? name = some (.dir below)) ∨
      ∃ target, (FileNode.dir entries).child? name = some (.link target) := by
  fun_induction walk top links here steps with
  | case1 links here =>
    injection hdir with hdir
    injection hdir with _ hat
    rw [List.nil_append, walk, hat, Option.bind_some] at h
    cases hchild : (FileNode.dir entries).child? name with
    | none =>
      simp only [hchild] at h
      split at h <;> cases h
    | some child =>
      cases child with
      | dir below => exact .inl ⟨below, rfl⟩
      | link target => exact .inr ⟨target, rfl⟩
      | file content =>
        simp only [hchild] at h
        split at h <;> cases h
  | case2 links here rest' ih => rw [List.cons_append, walk] at h; exact ih hdir h
  | case3 links here rest' ih => rw [List.cons_append, walk] at h; exact ih hdir h
  | case4 links here rest' ih => rw [List.cons_append, walk] at h; exact ih hdir h
  | case5 => cases hdir
  | case6 => cases hdir
  | case7 links here step rest' below hd ih =>
    rw [← FileNode.at?_concat] at hd
    rw [List.cons_append, walk_name_dir hd] at h
    exact ih hdir h
  | case8 => cases hdir
  | case9 => cases hdir
  | case10 => cases hdir
  | case11 here step rest' target hl links ih =>
    rw [← FileNode.at?_concat] at hl
    rw [List.cons_append, walk_name_link hl, ← List.append_assoc] at h
    exact ih hdir h

theorem dir_of_at?_append {names more : List String}
    (h : top.at? (names ++ more) = some (.dir entries)) : ∃ inner, top.at? names = some (.dir inner) := by
  rw [FileNode.at?_append] at h
  obtain ⟨node, hnode, hmore⟩ := Option.bind_eq_some_iff.1 h
  cases node with
  | dir inner => exact ⟨inner, hnode⟩
  | file content => cases more <;> simp [FileNode.at?, FileNode.child?] at hmore
  | link target => cases more <;> simp [FileNode.at?, FileNode.child?] at hmore

/-- Without links, a walk ends under the last name of its steps. -/
theorem getLast?_of_walk (hlinks : ∀ names target, top.at? names ≠ some (.link target))
    (hrest : ∀ step ∈ rest, step = .current)
    (h : walk top links here (steps ++ .name name :: rest) = .ok (m, found)) :
    m.getLast? = some name := by
  fun_induction walk top links here steps with
  | case1 links here =>
    rw [List.nil_append, walk] at h
    split at h
    · split at h
      · cases h
        exact List.getLast?_concat
      · cases h
    · rw [walk_current hrest] at h
      cases h
      exact List.getLast?_concat
    · split at h
      · cases h
        exact List.getLast?_concat
      · cases h
    · rename_i target hlink
      rw [← FileNode.at?_concat] at hlink
      exact absurd hlink (hlinks _ target)
  | case2 links here rest' ih => rw [List.cons_append, walk] at h; exact ih h
  | case3 links here rest' ih => rw [List.cons_append, walk] at h; exact ih h
  | case4 links here rest' ih => rw [List.cons_append, walk] at h; exact ih h
  | case5 links here step rest' hnone _ | case6 links here step rest' hnone _ =>
    rw [List.cons_append, walk, hnone] at h
    simp at h
  | case7 links here step rest' inner hdir ih =>
    rw [← FileNode.at?_concat] at hdir
    rw [List.cons_append, walk_name_dir hdir] at h
    exact ih h
  | case8 links here step rest' content hfile _ | case9 links here step rest' content hfile _ =>
    rw [List.cons_append, walk, hfile] at h
    simp at h
  | case10 here step rest' target hlink | case11 here step rest' target hlink links ih =>
    rw [← FileNode.at?_concat] at hlink
    exact absurd hlink (hlinks _ target)

/-- A walk that does not end at a directory has looked a name up in one, and has found a file or
nothing. -/
theorem walk_ends {root : List (String × FileNode)}
    (hhere : (∃ entries, (FileNode.dir root).at? here = some (.dir entries)) ∨
      ∃ name, Component.name name ∈ steps)
    (h : walk (.dir root) links here steps = .ok (m, found))
    (hfound : ∀ entries, found ≠ some (.dir entries)) :
    ∃ place name entries, m = place ++ [name] ∧ (FileNode.dir root).at? place = some (.dir entries) ∧
      FileNode.Loose found := by
  generalize htop : FileNode.dir root = top at h hhere ⊢
  -- Once a name is passed the walk stands in a directory, so it can end there at nothing else.
  fun_induction walk top links here steps with
  | case1 links here =>
    injection h with h
    injection h with _ hat
    rcases hhere with ⟨entries, hdir⟩ | ⟨name, hname⟩
    · exact absurd (hat.symm.trans hdir) (hfound entries)
    · simp at hname
  | case2 links here rest ih => exact ih h (.inl ⟨root, by rw [← htop]; rfl⟩)
  | case3 links here rest ih => exact ih h (by simpa using hhere)
  | case4 links here rest ih =>
    refine ih h (hhere.imp (fun ⟨entries, hdir⟩ => ?_) (by simp))
    rcases List.eq_nil_or_concat' here with rfl | ⟨before, last, rfl⟩
    · exact ⟨entries, hdir⟩
    · rw [List.dropLast_concat]
      exact dir_of_at?_append hdir
  | case5 links here name rest hnone hrest =>
    cases h
    obtain ⟨node, hnode, hdir⟩ := (Option.any_eq_true _ _).1 (Bool.and_eq_true_iff.1 hrest).2
    cases node with
    | dir entries => exact ⟨here, name, entries, rfl, hnode, .inl rfl⟩
    | file content => cases hdir
    | link target => cases hdir
  | case6 => cases h
  | case7 links here name rest entries hdir ih =>
    rw [← FileNode.at?_concat] at hdir
    exact ih h (.inl ⟨entries, hdir⟩)
  | case8 links here name rest content hfile hrest =>
    cases h
    obtain ⟨entries, hdir⟩ := dir_of_child hfile
    exact ⟨here, name, entries, rfl, hdir, .inr ⟨content, rfl⟩⟩
  | case9 => cases h
  | case10 => cases h
  | case11 here name rest target hl links ih => exact ih h (.inl (dir_of_child hl))

end Dependents.FileSystem
