import Dependents.CommandLine.Run
import Dependents.Proofs.Policies
import Dependents.Proofs.ScanContents

/-! Paths where nothing is a link. A walk keeps the names of the directory that it is in just as the
lexical normal form does, so a path that leads somewhere leads to its normal form. -/
namespace Dependents

open Dependents.Path

namespace FileSystem

variable {fs : FileSystem} {links : Nat} {here m : List String} {steps : List Component}
  {found : Option FileNode} {p c : Path}

/-- Where no link is, a walk ends where folding its steps ends. -/
theorem NoLinks.foldl_of_walk (h : fs.NoLinks) (hwalk : walk fs.top links here steps = .ok (m, found)) :
    m = steps.foldl lexicalStep here := by
  have hlink : ∀ {here : List String} {name : String} {target : Path},
      (fs.top.at? here).bind (·.child? name) ≠ some (.link target) := by
    intro here name target hlink
    rw [← FileNode.at?_concat] at hlink
    exact h.linkFree _ _ List.prefix_rfl target hlink
  fun_induction walk fs.top links here steps with
  | case1 links here =>
    cases hwalk
    rfl
  | case2 links here rest ih => exact ih hwalk
  | case3 links here rest ih => exact ih hwalk
  | case4 links here rest ih => exact ih hwalk
  | case5 links here name rest _ hlast =>
    obtain rfl : rest = [] := List.isEmpty_iff.1 (Bool.and_eq_true_iff.1 hlast).1
    cases hwalk
    rfl
  | case6 => cases hwalk
  | case7 links here name rest entries _ ih => exact ih hwalk
  | case8 links here name rest content _ hlast =>
    obtain rfl : rest = [] := List.isEmpty_iff.1 hlast
    cases hwalk
    rfl
  | case9 => cases hwalk
  | case10 here name rest target heq => exact absurd heq hlink
  | case11 here name rest target heq => exact absurd heq hlink

/-- A silent end changes nothing of where the steps of a path lead. -/
theorem foldl_steps (p : Path) (here : List String) :
    p.steps.foldl lexicalStep here = p.components.foldl lexicalStep here := by
  unfold Path.steps
  split
  · rw [List.foldl_append]
    rfl
  · rw [List.append_nil]

/-- Where an absolute path leads does not depend on the working directory. -/
theorem foldl_components (hp : p.isAbsolute = true) (here : List String) :
    p.components.foldl lexicalStep here = p.components.foldl lexicalStep [] := by
  obtain ⟨steps, hsteps⟩ := List.head?_eq_some_iff.1 (isAbsolute_iff.1 hp)
  rw [hsteps]
  rfl

/-- Where no link is, a path that leads somewhere leads to its lexical normal form. -/
theorem NoLinks.eq_normalize (h : fs.NoLinks) (hp : p.isAbsolute = true)
    (hcanonical : fs.canonicalize p = .ok c) : c = p.normalize := by
  obtain ⟨names, node, hfind, rfl⟩ := canonicalize_eq_ok.1 hcanonical
  have hnames := h.foldl_of_walk (walk_of_find hfind)
  rw [foldl_steps, foldl_components hp] at hnames
  rw [(normalize_of_absolute hp).1, hnames]

/-- Where no link is, a straight path that leads to a file leads there by its own names. -/
theorem NoLinks.find_straight (h : fs.NoLinks) (hp : p.Straight) (hfile : fs.isFile p = true) :
    ∃ names content, p = ofNames names ∧ fs.find p = .ok (names, .file content) := by
  obtain ⟨names, _, hnames, rfl⟩ := hp
  obtain ⟨m, content, hfind⟩ := isFile_iff_find.1 hfile
  obtain ⟨rfl, _⟩ := at?_of_find_ofNames hnames (h.linkFree names) hfind
  exact ⟨_, content, rfl, hfind⟩

end FileSystem

/-- Without links the lexical normal form of an absolute path that leads somewhere is its canonical form,
so a target is named alike whether or not it is there; and what an import of a scanned file means is its
own canonical form, the one path under which any scan lists that file. -/
theorem CommandLine.unlinked_forms_agree (fs : FileSystem) (hfree : fs.NoLinks) :
    (∀ p : Path, p.isAbsolute = true →
      (∀ c, fs.canonicalize p = .ok c → c = p.normalize) ∧
        resolveTarget fs p = (fs.absolute p).normalize) ∧
    ∀ (config : Config) (roots : List Path), ∀ importer ∈ Scan.roots fs config roots,
      ∀ (specifier : String) (target : Path),
        Resolution.resolve fs .strict specifier importer.path = some target →
          fs.canonicalize target = .ok target ∧
          (∀ config' : Config,
            Scan.root fs config' target = (Scan.sourceFile? config' target).toList) ∧
          (fs.WellFormed → ∀ (config' : Config) (roots' : List Path),
            ∀ listed ∈ Scan.roots fs config' roots',
              (fs.canonicalize listed.path = fs.canonicalize target ↔ listed.path = target)) := by
  constructor
  · intro p hp
    refine ⟨fun c hcanonical => hfree.eq_normalize hp hcanonical, ?_⟩
    unfold resolveTarget
    rw [FileSystem.absolute, if_pos hp]
    split
    · rename_i c hcanonical
      exact hfree.eq_normalize hp hcanonical
    · rfl
  · intro config roots importer himporter specifier target hresolve
    have hstraight := Resolution.straight_of_resolve (Scan.isAbsolute_of_mem_roots himporter) hresolve
    obtain ⟨names, content, rfl, hfind⟩ :=
      hfree.find_straight hstraight (Resolution.isFile_of_resolve hresolve)
    have hcanonical := FileSystem.canonicalize_eq_ok.2 ⟨names, _, hfind, rfl⟩
    refine ⟨hcanonical, fun config' => Scan.root_of_find hfind, fun hfs config' roots' listed hlisted => ?_⟩
    refine ⟨fun hequal => ?_, fun heq => by rw [heq]⟩
    obtain ⟨root, _, hroot⟩ := List.mem_flatMap.1 (Path.mem_of_mem_firstOfEach hlisted)
    obtain ⟨listedNames, _, hlistedNames, hspelled⟩ := Scan.straight_of_mem_root hfs hroot
    have hnormal := hfree.eq_normalize (Scan.isAbsolute_of_mem_roots hlisted) (hequal.trans hcanonical)
    rw [hnormal, hspelled, normalize_ofNames hlistedNames]

namespace CommandLine

/-- Two files, one of them in a directory of its own. -/
def nestedFiles : FileSystem :=
  ⟨[("w", .dir [("m.ts", .file []), ("a", .dir [("x.ts", .file [])])])], ["w"]⟩

theorem noLinks_nestedFiles : nestedFiles.NoLinks := by
  simp [FileSystem.NoLinks, FileSystem.top, nestedFiles, FileNode.throughout_dir,
    FileNode.throughout_file]

theorem wellFormed_nestedFiles : nestedFiles.WellFormed := by
  refine ⟨?_, _, rfl⟩
  simp only [FileSystem.top, nestedFiles, FileNode.throughout_dir, FileNode.throughout_file,
    FileNode.WellNamed, List.forall_mem_cons, List.map_cons, List.map_nil, List.not_mem_nil,
    false_implies, implies_true]
  decide

theorem root_nestedFiles : Scan.root nestedFiles Config.standard ⟨"/w/m.ts"⟩ =
    [⟨⟨"/w/m.ts"⟩, .typescript⟩] := by
  have hspelled : (⟨"/w/m.ts"⟩ : Path) = ofNames ["w", "m.ts"] := by decide
  have hfind : nestedFiles.find (ofNames ["w", "m.ts"]) = .ok (["w", "m.ts"], .file []) :=
    FileSystem.find_of_at? (by decide) rfl (by simp)
  rw [hspelled, Scan.root_of_find hfind]
  decide

/-- A detour through a directory, and an import with one, end where they seem to. -/
theorem unlinked_forms_agree_nestedFiles :
    let importer : SourceFile := ⟨⟨"/w/m.ts"⟩, .typescript⟩
    nestedFiles.NoLinks ∧ nestedFiles.WellFormed ∧
      resolveTarget nestedFiles ⟨"/w/a/.././m.ts"⟩ = ⟨"/w/m.ts"⟩ ∧
      importer ∈ Scan.roots nestedFiles Config.standard [⟨"/w/m.ts"⟩] ∧
      Resolution.resolve nestedFiles .strict "./a/../a/x" importer.path = some ⟨"/w/a/x.ts"⟩ ∧
      nestedFiles.canonicalize ⟨"/w/a/x.ts"⟩ = .ok ⟨"/w/a/x.ts"⟩ ∧
      Scan.root nestedFiles Config.standard ⟨"/w/a/x.ts"⟩ = [⟨⟨"/w/a/x.ts"⟩, .typescript⟩] ∧
      ¬ nestedFiles.canonicalize importer.path = nestedFiles.canonicalize ⟨"/w/a/x.ts"⟩ := by
  intro importer
  have himporter : importer ∈ Scan.roots nestedFiles Config.standard [⟨"/w/m.ts"⟩] := by
    rw [Scan.roots, List.flatMap_cons, List.flatMap_nil, root_nestedFiles]
    decide
  have hresolve : Resolution.resolve nestedFiles .strict "./a/../a/x" importer.path =
      some ⟨"/w/a/x.ts"⟩ := by
    have hsuffix : (ofNames ["w", "a", "x"]).withSuffix ".ts" = ofNames ["w", "a", "x.ts"] := by
      decide
    have hfile : nestedFiles.isFile ((ofNames ["w", "a", "x"]).withSuffix ".ts") = true := by
      rw [hsuffix]
      exact (FileSystem.isFile_iff_at? (by decide) (noLinks_nestedFiles.linkFree _)).2 ⟨[], rfl⟩
    rw [Resolution.resolve_of_isFile (by decide) (by decide) hfile, hsuffix]
    decide
  obtain ⟨hpaths, htargets⟩ := unlinked_forms_agree nestedFiles noLinks_nestedFiles
  obtain ⟨hcanonical, hroot, hlisted⟩ := htargets _ _ importer himporter _ _ hresolve
  refine ⟨noLinks_nestedFiles, wellFormed_nestedFiles, ?_, himporter, hresolve, hcanonical, ?_, ?_⟩
  · rw [(hpaths ⟨"/w/a/.././m.ts"⟩ (by decide)).2]
    decide
  · rw [hroot]
    decide
  · rw [hlisted wellFormed_nestedFiles _ _ importer himporter]
    decide

end CommandLine

end Dependents
