import Dependents.Proofs.NormalPaths
import Dependents.Proofs.Walk

/-! Canonical paths. Following a path ends at names that pass through no link, so a path in normal form
that leads somewhere is canonical exactly when no link stands on its way. -/
namespace Dependents.FileSystem

open Dependents.Path

variable {fs : FileSystem} {top : FileNode} {links : Nat} {here m names : List String} {name : String}
  {steps : List Component} {found : Option FileNode} {node : FileNode}

/-- No link stands on the way along some names, or at their end. -/
def LinkFree (top : FileNode) (names : List String) : Prop :=
  ∀ before, before <+: names → ∀ target, top.at? before ≠ some (.link target)

/-- A link stands on the way along a path from the root, or at its end. -/
def LinkOn (fs : FileSystem) (p : Path) : Prop :=
  ∃ names target, (.root :: names.map .name) <+: p.components ∧ fs.top.at? names = some (.link target)

theorem linkFree_nil (htop : ∀ target, top ≠ .link target) : LinkFree top [] := by
  intro before hbefore target hlink
  rw [List.prefix_nil.1 hbefore] at hlink
  exact htop target (Option.some.inj hlink)

theorem LinkFree.concat (h : LinkFree top names)
    (hname : ∀ target, top.at? (names ++ [name]) ≠ some (.link target)) :
    LinkFree top (names ++ [name]) := by
  intro before hbefore
  rcases List.prefix_concat_iff.1 hbefore with rfl | hbefore
  · exact hname
  · exact h before hbefore

/-- A walk passes through links, but does not end behind one. -/
theorem linkFree_of_walk (htop : ∀ target, top ≠ .link target) (hhere : LinkFree top here)
    (h : walk top links here steps = .ok (m, found)) : LinkFree top m := by
  fun_induction walk top links here steps with
  | case1 links here =>
    cases h
    exact hhere
  | case2 links here rest ih => exact ih (linkFree_nil htop) h
  | case3 links here rest ih => exact ih hhere h
  | case4 links here rest ih =>
    exact ih (fun before hbefore => hhere before (hbefore.trans (List.dropLast_prefix here))) h
  | case5 links here name rest hnone _ =>
    cases h
    refine hhere.concat fun target => ?_
    rw [FileNode.at?_concat, hnone]
    simp
  | case6 => cases h
  | case7 links here name rest entries hdir ih =>
    refine ih (hhere.concat fun target => ?_) h
    rw [FileNode.at?_concat, hdir]
    simp
  | case8 links here name rest content hfile _ =>
    cases h
    refine hhere.concat fun target => ?_
    rw [FileNode.at?_concat, hfile]
    simp
  | case9 => cases h
  | case10 => cases h
  | case11 here name rest target hlink links ih => exact ih hhere h

/-- Along names without links a walk goes straight. -/
theorem walk_of_linkFree (hfree : LinkFree top (here ++ names))
    (h : walk top links here (names.map .name) = .ok (m, some node)) : m = here ++ names := by
  induction names generalizing here with
  | nil =>
    rw [List.map_nil, walk] at h
    injection h with h
    rw [List.append_nil, (Prod.mk.inj h).1]
  | cons name names ih =>
    rw [List.append_cons] at hfree ⊢
    rw [List.map_cons, walk, ← FileNode.at?_concat] at h
    split at h
    · split at h <;> cases h
    · exact ih hfree h
    · split at h
      · rename_i hempty
        cases h
        rw [List.map_eq_nil_iff.1 (List.isEmpty_iff.1 hempty), List.append_nil]
      · cases h
    · rename_i target hlink
      exact absurd hlink (hfree _ (List.prefix_append _ _) target)

/-- A walk along names ends at names. -/
theorem areNames_of_walk (hhere : AreNames here) (hsteps : ∀ name, .name name ∈ steps → IsName name)
    (h : walk top links here steps = .ok (m, found)) : AreNames m := by
  fun_induction walk top links here steps with
  | case1 links here =>
    cases h
    exact hhere
  | case2 links here rest ih =>
    exact ih (fun _ hmem => absurd hmem List.not_mem_nil) (fun name hname => hsteps name (.tail _ hname)) h
  | case3 links here rest ih => exact ih hhere (fun name hname => hsteps name (.tail _ hname)) h
  | case4 links here rest ih =>
    exact ih (fun name hname => hhere name (List.dropLast_subset here hname))
      (fun name hname => hsteps name (.tail _ hname)) h
  | case5 links here name rest _ _ | case8 links here name rest _ _ _ =>
    cases h
    exact hhere.concat (hsteps name (.head _))
  | case6 => cases h
  | case7 links here name rest entries hdir ih =>
    exact ih (hhere.concat (hsteps name (.head _))) (fun name hname => hsteps name (.tail _ hname)) h
  | case9 => cases h
  | case10 => cases h
  | case11 here name rest target hlink links ih =>
    refine ih hhere (fun name hname => ?_) h
    rcases List.mem_append.1 hname with hname | hname
    · unfold Path.steps at hname
      rcases List.mem_append.1 hname with hname | hname
      · exact isName_of_mem_components hname
      · split at hname <;> simp at hname
    · exact hsteps name (.tail _ hname)

theorem linkOn_ofNames (h : AreNames names) :
    fs.LinkOn (ofNames names) ↔ ¬ LinkFree fs.top names := by
  unfold LinkOn LinkFree
  simp only [components_ofNames h, List.cons_prefix_cons, true_and, not_forall, not_not]
  constructor
  · rintro ⟨before, target, ⟨rest, hrest⟩, hlink⟩
    obtain ⟨first, last, hnames, hfirst, _⟩ := List.map_eq_append_iff.1 hrest.symm
    have hbefore : first = before :=
      List.map_injective_iff.2 (fun _ _ heq => Component.name.inj heq) hfirst
    exact ⟨before, ⟨last, by rw [hnames, hbefore]⟩, target, hlink⟩
  · rintro ⟨before, hbefore, target, hlink⟩
    exact ⟨before, target, hbefore.map _, hlink⟩

/-- A path in normal form leads to the names that it spells exactly if no link stands on its way. -/
theorem find_ofNames (h : AreNames names) (hne : names ≠ [])
    (hfind : fs.find (ofNames names) = .ok (m, node)) :
    AreNames m ∧ (m = names ↔ ¬ fs.LinkOn (ofNames names)) := by
  have hwalk : walk fs.top maxLinks [] (names.map .name) = .ok (m, some node) := by
    unfold find at hfind
    split at hfind
    · rename_i heq
      cases hfind
      rwa [locate, text_ofNames_ne_empty h, if_neg Bool.false_ne_true, steps_ofNames h hne, walk] at heq
    · cases hfind
    · cases hfind
  have hroot : AreNames [] := fun _ hmem => absurd hmem List.not_mem_nil
  refine ⟨areNames_of_walk hroot (fun name hname => ?_) hwalk, ?_⟩
  · obtain ⟨other, hother, heq⟩ := List.mem_map.1 hname
    cases heq
    exact h name hother
  rw [linkOn_ofNames h, not_not]
  constructor
  · rintro rfl
    have htop : ∀ target, fs.top ≠ .link target := fun _ heq => by cases heq
    exact linkFree_of_walk htop (linkFree_nil htop) hwalk
  · intro hfree
    exact walk_of_linkFree hfree hwalk

end Dependents.FileSystem
