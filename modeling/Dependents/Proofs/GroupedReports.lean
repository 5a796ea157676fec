import Dependents.Proofs.FirstOccurrences
import Dependents.Report.Text
import Mathlib.Data.List.Perm.Subperm

/-! Edges grouped by the file they come from. Grouping is a stable partition: each file heads one
group, at the place of its first edge, and its edges keep their order. -/
namespace Dependents

variable {edges edges' : List Edge} {edge : Edge} {files : List Path}

/-- The files that edges come from, each as its first edge spells it. -/
def dependentsOf (edges : List Edge) : List Path :=
  Path.firsts (edges.map (·.dependent))

theorem dependentsOf_concat (edges : List Edge) (edge : Edge) :
    dependentsOf (edges ++ [edge]) = dependentsOf edges ++
      if (dependentsOf edges).any (·.same edge.dependent) then [] else [edge.dependent] := by
  rw [dependentsOf, List.map_append, List.map_singleton, Path.firsts_concat, ← Path.any_same_firsts]
  rfl

namespace Report

/-- The edges that come from a file, in their order. -/
def groupOf (edges : List Edge) (file : Path) : Group :=
  ⟨file, edges.filter (·.dependent.same file)⟩

theorem groupOf_concat_of_same {file : Path} (h : file.same edge.dependent = true) :
    groupOf (edges ++ [edge]) file = ⟨file, (groupOf edges file).edges ++ [edge]⟩ := by
  rw [Path.same_comm] at h
  simp [groupOf, h]

theorem groupOf_concat_of_not_same {file : Path} (h : file.same edge.dependent = false) :
    groupOf (edges ++ [edge]) file = groupOf edges file := by
  rw [Path.same_comm] at h
  simp [groupOf, h]

/-- An edge from elsewhere changes no group. -/
theorem map_groupOf_concat (h : ∀ file ∈ files, file.same edge.dependent = false) :
    files.map (groupOf (edges ++ [edge])) = files.map (groupOf edges) := by
  apply List.map_congr_left
  intro file hfile
  exact groupOf_concat_of_not_same (h file hfile)

/-- An edge from a new file comes last, in a group of its own. -/
theorem placeEdge_new (h : ∀ file ∈ files, file.same edge.dependent = false) :
    placeEdge (files.map (groupOf edges)) edge =
      files.map (groupOf edges) ++ [⟨edge.dependent, [edge]⟩] := by
  induction files with
  | nil => rfl
  | cons file files ih =>
    obtain ⟨hfile, hfiles⟩ := List.forall_mem_cons.1 h
    have hother : ¬ (groupOf edges file).file.same edge.dependent = true := by
      rw [Bool.not_eq_true]
      exact hfile
    rw [List.map_cons, placeEdge, if_neg hother, ih hfiles, List.cons_append]

/-- An edge from a file that heads a group goes to the end of that group. -/
theorem placeEdge_old (hdistinct : files.Pairwise fun p q => p.same q = false)
    (h : files.any (·.same edge.dependent) = true) :
    placeEdge (files.map (groupOf edges)) edge = files.map (groupOf (edges ++ [edge])) := by
  induction files with
  | nil => cases h
  | cons file files ih =>
    obtain ⟨hfile, hfiles⟩ := List.pairwise_cons.1 hdistinct
    rw [List.map_cons, List.map_cons, placeEdge]
    cases hsame : file.same edge.dependent with
    | true =>
      have hothers : ∀ other ∈ files, other.same edge.dependent = false := by
        intro other hother
        rw [Path.same_comm, ← Path.same_trans_left hsame, hfile other hother]
      rw [map_groupOf_concat hothers, groupOf_concat_of_same hsame]
      exact if_pos hsame
    | false =>
      rw [List.any_cons, hsame, Bool.false_or] at h
      rw [groupOf_concat_of_not_same hsame, ih hfiles h]
      exact if_neg (Bool.eq_false_iff.1 hsame)

/-- The groups of edges: one for each file, in the order of the files' first edges. -/
theorem groups_eq (edges : List Edge) : groups edges = (dependentsOf edges).map (groupOf edges) := by
  induction edges using List.reverseRecOn with
  | nil => rfl
  | append_singleton edges edge ih =>
    rw [groups, List.foldl_concat, ← groups, ih, dependentsOf_concat]
    cases hany : (dependentsOf edges).any (·.same edge.dependent) with
    | true =>
      rw [if_pos rfl, List.append_nil]
      exact placeEdge_old (Path.pairwise_firsts _) hany
    | false =>
      have hnew : ∀ file ∈ dependentsOf edges, file.same edge.dependent = false := by
        simpa using hany
      have hnone : edges.filter (·.dependent.same edge.dependent) = [] := by
        rw [dependentsOf, Path.any_same_firsts] at hany
        simpa using hany
      have hself : groupOf (edges ++ [edge]) edge.dependent = ⟨edge.dependent, [edge]⟩ := by
        rw [groupOf_concat_of_same (Path.same_iff.2 rfl), groupOf, hnone, List.nil_append]
      rw [if_neg Bool.false_ne_true, placeEdge_new hnew, List.map_append, map_groupOf_concat hnew,
        List.map_singleton, hself]

/-- Placing an edge adds it to what the groups hold, and nothing else. -/
theorem perm_placeEdge (gs : List Group) (edge : Edge) :
    ((placeEdge gs edge).flatMap (·.edges)).Perm (gs.flatMap (·.edges) ++ [edge]) := by
  induction gs with
  | nil => exact .refl _
  | cons g gs ih =>
    rw [placeEdge]
    split
    · rw [List.flatMap_cons, List.flatMap_cons, List.append_assoc, List.append_assoc]
      exact List.perm_append_comm.append_left g.edges
    · rw [List.flatMap_cons, List.flatMap_cons, List.append_assoc]
      exact ih.append_left g.edges

theorem perm_groups (edges : List Edge) : ((groups edges).flatMap (·.edges)).Perm edges := by
  induction edges using List.reverseRecOn with
  | nil => exact .refl _
  | append_singleton edges edge ih =>
    rw [groups, List.foldl_concat, ← groups]
    exact (perm_placeEdge _ edge).trans (ih.append_right [edge])

/-- The lines of a file: one that names it, then one for each edge, two blanks deeper. That has the place
of the call, counted from one and filled up to eight characters, the callee, and the function around. -/
def fileLines (base : Option Path) (indent : String) (file : Path) (edges : List Edge) : List String :=
  (indent ++ file.shownFrom base ++ "\n") :: edges.map fun edge =>
    let place := Text.decimal (edge.position.line + 1) ++ ":" ++
      Text.decimal (edge.position.character + 1)
    let blanks := String.ofList (List.replicate (8 - place.length) ' ')
    let scope := edge.caller.elim "at module scope" fun caller => "in " ++ caller
    indent ++ "  " ++ place ++ blanks ++ " " ++ edge.targetFunction ++ "  " ++ scope ++ "\n"

theorem fileLines_eq (base : Option Path) (indent : String) (file : Path) (edges : List Edge) :
    fileLines base indent file edges = (indent ++ file.shownFrom base ++ "\n") ::
      edges.map fun edge => indent ++ "  " ++ edgeLine edge ++ "\n" := by
  refine congrArg _ (List.map_congr_left fun edge _ => ?_)
  rw [edgeLine, padRight, Position.location]
  cases edge.caller <;> simp only [Option.elim, String.append_assoc] <;> rfl

theorem join_groupText (base : Option Path) (indent : String) (gs : List Group) :
    String.join (gs.map (groupText base indent)) =
      String.join (gs.flatMap fun g => fileLines base indent g.file g.edges) := by
  induction gs with
  | nil => rfl
  | cons g gs ih =>
    rw [List.map_cons, String.join_cons, List.flatMap_cons, String.join_append, ih, fileLines_eq,
      String.join_cons, groupText]

theorem groupedText_eq (base : Option Path) (indent : String) (edges : List Edge) :
    groupedText base indent edges = String.join ((dependentsOf edges).flatMap fun file =>
      fileLines base indent file (edges.filter (·.dependent.same file))) := by
  rw [groupedText, join_groupText, groups_eq, List.flatMap_map]
  rfl

theorem perm_dependentsOf (edges : List Edge) :
    ((dependentsOf edges).flatMap fun file => edges.filter (·.dependent.same file)).Perm edges := by
  have hperm := perm_groups edges
  rwa [groups_eq, List.flatMap_map] at hperm

end Report

/-! The files counted. -/

theorem dependentFiles_ofEdges (edges : List Edge) :
    (Impact.ofEdges edges).dependentFiles = (dependentsOf edges).length := by
  have hplaces : (edges.map (·.dependent)).map Path.components = edges.map (·.dependent.components) :=
    List.map_map
  rw [Impact.ofEdges, ← hplaces, ← Path.map_components_firsts, List.length_map, dependentsOf]

/-- Files stay files of more edges, so they do not get fewer. -/
theorem length_dependentsOf_le (h : ∀ e ∈ edges, e ∈ edges') :
    (dependentsOf edges).length ≤ (dependentsOf edges').length := by
  have hnodup : ((dependentsOf edges).map Path.components).Nodup := by
    rw [List.Nodup, List.pairwise_map]
    refine (Path.pairwise_firsts _).imp ?_
    intro p q hpq heq
    rw [Path.same_iff.2 heq] at hpq
    cases hpq
  have hsubset : (dependentsOf edges).map Path.components ⊆ (dependentsOf edges').map Path.components := by
    intro place hplace
    rw [dependentsOf, Path.map_components_firsts, List.mem_eraseDups] at hplace ⊢
    simp only [List.map_map, List.mem_map] at hplace ⊢
    obtain ⟨e, he, heq⟩ := hplace
    exact ⟨e, h e he, heq⟩
  have hlength := (hnodup.subperm hsubset).length_le
  rwa [List.length_map, List.length_map] at hlength

theorem ImpactLevel.ofCount_mono {m n : Nat} (h : m ≤ n) :
    (compare (ofCount m) (ofCount n)).isLE = true := by
  by_cases hn : n < 6
  · have hsmall : ∀ n < 6, ∀ m ≤ n, (compare (ofCount m) (ofCount n)).isLE = true := by decide
    exact hsmall n hn m h
  · have hhigh : ofCount n = .high := by
      obtain ⟨k, rfl⟩ := Nat.exists_eq_add_of_le (Nat.le_of_not_lt hn)
      rw [Nat.add_comm]
      rfl
    rw [hhigh]
    cases ofCount m <;> rfl

/-- Adding edges never makes the impact smaller. -/
theorem Impact.ofEdges_mono (h : ∀ e ∈ edges, e ∈ edges') :
    (ofEdges edges).dependentFiles ≤ (ofEdges edges').dependentFiles ∧
      (compare (ofEdges edges).level (ofEdges edges').level).isLE = true := by
  have hle : (ofEdges edges).dependentFiles ≤ (ofEdges edges').dependentFiles := by
    rw [dependentFiles_ofEdges, dependentFiles_ofEdges]
    exact length_dependentsOf_le h
  exact ⟨hle, ImpactLevel.ofCount_mono hle⟩

theorem Impact.ofEdges_congr (h : ∀ e, e ∈ edges ↔ e ∈ edges') : ofEdges edges = ofEdges edges' :=
  congrArg Impact.mk (Nat.le_antisymm (ofEdges_mono fun e he => (h e).1 he).1
    (ofEdges_mono fun e he => (h e).2 he).1)

theorem DependencyIndex.dependentFiles_of_mem {index : DependencyIndex} {b : Bucket} (h : Built index)
    (hb : b ∈ index.buckets) : index.dependentFiles b.target = dependentsOf b.edges := by
  have hedges : index.edgesOf b.target = b.edges := edgesIn_of_mem h.sorted hb
  rw [dependentFiles, hedges, Path.firstOfEach_eq_firsts, dependentsOf]

namespace Report

/-- The text of an index counts under each target the files that it then names. -/
theorem indexText_eq {index : DependencyIndex} (h : index.Built) (hne : index.buckets ≠ [])
    (base : Option Path) : indexText base index = String.join (index.buckets.map fun b =>
      b.target.shownFrom base ++ " (" ++ counted b.edges.length "call" ++ ", "
        ++ counted (dependentsOf b.edges).length "file" ++ ")\n" ++ groupedText base "  " b.edges) := by
  have hsome : ¬ index.isEmpty = true := mt List.isEmpty_iff.1 hne
  rw [indexText, if_neg hsome]
  congr 1
  apply List.map_congr_left
  intro b hb
  rw [bucketText, DependencyIndex.dependentFiles_of_mem h hb]

theorem mem_edges_ofIndex {index : DependencyIndex} {target : Path} {function : String}
    (h : edge ∈ (ofIndex index target (some function)).edges) : edge ∈ (ofIndex index target none).edges :=
  List.mem_of_mem_filter h

/-- Edges are written under their files: one header for each file that they come from, where the first of
its edges stands, with exactly the edges of that file in their order, so that each edge is written once.
There are as many headers as the impact counts files and as the header of an index bucket says. The impact
does not depend on the order of edges or on how often each is there, it never gets smaller when edges are
added, and so one function's is never greater than that of its file. -/
theorem grouped_stably :
    (∀ base indent edges,
      groupedText base indent edges = String.join ((dependentsOf edges).flatMap fun file =>
        fileLines base indent file (edges.filter (·.dependent.same file))) ∧
      ((dependentsOf edges).flatMap fun file => edges.filter (·.dependent.same file)).Perm edges ∧
      (dependentsOf edges).length = (Impact.ofEdges edges).dependentFiles) ∧
    (∀ index : DependencyIndex, index.Built →
      (∀ b ∈ index.buckets, index.dependentFiles b.target = dependentsOf b.edges) ∧
      ∀ base, index.buckets ≠ [] → indexText base index = String.join (index.buckets.map fun b =>
        b.target.shownFrom base ++ " (" ++ counted b.edges.length "call" ++ ", "
          ++ counted (dependentsOf b.edges).length "file" ++ ")\n" ++ groupedText base "  " b.edges)) ∧
    (∀ edges edges', (∀ e, e ∈ edges ↔ e ∈ edges') → Impact.ofEdges edges = Impact.ofEdges edges') ∧
    (∀ edges edges', (∀ e ∈ edges, e ∈ edges') →
      (Impact.ofEdges edges).dependentFiles ≤ (Impact.ofEdges edges').dependentFiles ∧
      (compare (Impact.ofEdges edges).level (Impact.ofEdges edges').level).isLE = true) ∧
    ∀ index target function,
      let part := (ofIndex index target (some function)).impact
      let whole := (ofIndex index target none).impact
      part.dependentFiles ≤ whole.dependentFiles ∧ (compare part.level whole.level).isLE = true := by
  refine ⟨?_, ?_, fun edges edges' => Impact.ofEdges_congr, fun edges edges' => Impact.ofEdges_mono, ?_⟩
  · intro base indent edges
    exact ⟨groupedText_eq base indent edges, perm_dependentsOf edges, (dependentFiles_ofEdges edges).symm⟩
  · intro index hbuilt
    refine ⟨fun b hb => DependencyIndex.dependentFiles_of_mem hbuilt hb, ?_⟩
    intro base hne
    exact indexText_eq hbuilt hne base
  · intro index target function
    exact Impact.ofEdges_mono fun e he => mem_edges_ofIndex he

theorem grouped_stably_respelled :
    let edges : List Edge := [⟨⟨"/w/a.ts"⟩, ⟨0, 0⟩, "f", none⟩, ⟨⟨"/w/b.ts"⟩, ⟨1, 4⟩, "f", some "g"⟩,
      ⟨⟨"/w/.//a.ts"⟩, ⟨2, 8⟩, "f", none⟩]
    let index := DependencyIndex.empty.extend (edges.map fun e => (⟨"/w/t.ts"⟩, e))
    index.Built ∧ ⟨⟨"/w/t.ts"⟩, edges⟩ ∈ index.buckets ∧
      index.dependentFiles ⟨"/w/t.ts"⟩ = [⟨"/w/a.ts"⟩, ⟨"/w/b.ts"⟩] ∧
      (Impact.ofEdges edges).dependentFiles = 2 := by
  intro edges index
  have hbuilt : index.Built := DependencyIndex.Built.empty.extend _
  have hb : ⟨⟨"/w/t.ts"⟩, edges⟩ ∈ index.buckets := by decide
  have hfiles : dependentsOf edges = [⟨"/w/a.ts"⟩, ⟨"/w/b.ts"⟩] := by decide
  have hbucket := (grouped_stably.2.1 index hbuilt).1 ⟨⟨"/w/t.ts"⟩, edges⟩ hb
  have hcount := (grouped_stably.1 none "" edges).2.2
  rw [hfiles] at hbucket hcount
  exact ⟨hbuilt, hb, hbucket, hcount.symm⟩

end Report

end Dependents
