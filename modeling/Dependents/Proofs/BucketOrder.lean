import Dependents.Proofs.IndexContents
import Dependents.Proofs.IndexKeys
import Dependents.Proofs.KeptSyntax
import Dependents.Proofs.Nesting
import Dependents.Proofs.Positions
import Mathlib.Data.Prod.Lex

/-! The order of edges in a bucket: file by file as the scan found them, and within a file as the calls
stand in the text, because later nodes in pre-order start no earlier. -/
namespace Dependents

/-- Calls in the order of their positions. -/
def FileSyntax.InOrder (syntaxOf : FileSyntax) : Prop :=
  syntaxOf.callSites.Pairwise fun a b => a.position ≤ b.position

/-- Edges file by file, and within a file in the order of their positions. -/
inductive InFileOrder : List Path → List Edge → Prop
  | nil : InFileOrder [] []
  | cons {path : Path} {paths : List Path} {block rest : List Edge}
      (hdependent : ∀ e ∈ block, e.dependent = path)
      (hpositions : block.Pairwise fun a b => a.position ≤ b.position)
      (hrest : InFileOrder paths rest) : InFileOrder (path :: paths) (block ++ rest)

variable {parsed : ParseTree} {paths : List Path} {edges edges' : List Edge} {e : Edge}
  {files : FileSystem} {policy : ResolutionPolicy} {path : Path} {syntaxOf : FileSyntax}

/-- Where spans nest, the calls of a tree come in the order of their positions. -/
theorem FileSyntax.inOrder_ofTree (h : parsed.root.Nested) (text : String) :
    (FileSyntax.ofTree (SyntaxTree.ofParseTree parsed text)).InOrder := by
  obtain ⟨hstarts, _⟩ := NamedTree.places_ordered [] parsed.named (ParseTree.nested_named h)
  unfold FileSyntax.InOrder
  rw [Analysis.callSites_ofTree, SyntaxTree.callSites_ofParseTree, List.pairwise_filterMap]
  refine hstarts.imp fun {a b} hab site hsite site' hsite' => ?_
  have hposition : ∀ {place : NamedTree × List NamedTree} {wanted : CallSite → Bool} {site : CallSite},
      (place.1.call? text.toList place.2).filter wanted = some site →
        site.position = Text.positionOf text.toList place.1.label.start := by
    intro place wanted site hsite
    have hcall := (Option.filter_eq_some_iff.1 hsite).1
    unfold NamedTree.call? at hcall
    split at hcall
    · obtain ⟨callee, _, rfl⟩ := Option.map_eq_some_iff.1 hcall
      rfl
    · cases hcall
  rw [hposition hsite, hposition hsite']
  exact Text.positionOf_mono _ hab

namespace InFileOrder

theorem dependent_mem (h : InFileOrder paths edges) (he : e ∈ edges) : e.dependent ∈ paths := by
  induction h with
  | nil => cases he
  | cons hdependent _ _ ih =>
    rcases List.mem_append.1 he with he | he
    · exact List.mem_cons.2 (.inl (hdependent e he))
    · exact List.mem_cons_of_mem _ (ih he)

theorem sublist (h : InFileOrder paths edges) (hs : edges'.Sublist edges) :
    InFileOrder paths edges' := by
  induction h generalizing edges' with
  | nil =>
    rw [List.sublist_nil.1 hs]
    exact .nil
  | cons hdependent hpositions _ ih =>
    obtain ⟨block, rest, rfl, hblock, hrest⟩ := List.sublist_append_iff.1 hs
    exact .cons (fun e he => hdependent e (hblock.subset he)) (hpositions.sublist hblock) (ih hrest)

/-- The edges of a file stand together, in the place of the file. -/
theorem flatMap_filter (h : InFileOrder paths edges) (hnodup : paths.Nodup) :
    paths.flatMap (fun path => edges.filter fun e => e.dependent = path) = edges := by
  induction h with
  | nil => rfl
  | @cons path paths block rest hdependent _ hrest ih =>
    obtain ⟨hnew, hnodup⟩ := List.nodup_cons.1 hnodup
    have hfirst : (block ++ rest).filter (fun e => e.dependent = path) = block := by
      rw [List.filter_append, List.filter_eq_self.2 (by simpa using hdependent),
        List.filter_eq_nil_iff.2, List.append_nil]
      intro e he
      simpa using fun heq : e.dependent = path => hnew (heq ▸ hrest.dependent_mem he)
    have hothers : ∀ other ∈ paths, (block ++ rest).filter (fun e => e.dependent = other) =
        rest.filter fun e => e.dependent = other := by
      intro other hother
      rw [List.filter_append, List.filter_eq_nil_iff.2, List.nil_append]
      intro e he
      simpa [hdependent e he] using fun heq : path = other => hnew (heq ▸ hother)
    rw [List.flatMap_cons, hfirst, List.flatMap_congr hothers, ih hnodup]

/-- Edges come by the rank of their file and then by position. -/
theorem sorted (h : InFileOrder paths edges) (hnodup : paths.Nodup) :
    edges.Pairwise fun a b =>
      toLex (paths.idxOf a.dependent, a.position) ≤ toLex (paths.idxOf b.dependent, b.position) := by
  induction h with
  | nil => exact .nil
  | @cons path paths block rest hdependent hpositions hrest ih =>
    obtain ⟨hnew, hnodup⟩ := List.nodup_cons.1 hnodup
    have hfirst : ∀ e ∈ block, (path :: paths).idxOf e.dependent = 0 := by
      intro e he
      rw [hdependent e he, List.idxOf_cons_self]
    have hlater : ∀ e ∈ rest, (path :: paths).idxOf e.dependent = paths.idxOf e.dependent + 1 := by
      intro e he
      exact List.idxOf_cons_ne _ fun heq => hnew (heq ▸ hrest.dependent_mem he)
    refine List.pairwise_append.2 ⟨?_, ?_, fun a ha b hb => ?_⟩
    · refine hpositions.imp_of_mem fun {a b} ha hb hab => ?_
      rw [hfirst a ha, hfirst b hb]
      exact Prod.Lex.toLex_le_toLex.2 (.inr ⟨rfl, hab⟩)
    · refine (ih hnodup).imp_of_mem fun {a b} ha hb hab => ?_
      rw [hlater a ha, hlater b hb]
      rcases Prod.Lex.toLex_le_toLex.1 hab with hlt | ⟨heq, hle⟩
      · exact Prod.Lex.toLex_le_toLex.2 (.inl (Nat.succ_lt_succ hlt))
      · exact Prod.Lex.toLex_le_toLex.2 (.inr ⟨congrArg (· + 1) heq, hle⟩)
    · rw [hfirst a ha, hlater b hb]
      exact Prod.Lex.toLex_le_toLex.2 (.inl (Nat.succ_pos _))

end InFileOrder

namespace Analysis

open SyntaxCache

variable {grammar : Grammar} {start s : Session}

/-- The edges of one file are those of its calls, in the same order. -/
theorem edgesOfSyntax_inOrder (h : syntaxOf.InOrder) (files : FileSystem)
    (policy : ResolutionPolicy) (path : Path) :
    (edgesOfSyntax files policy path syntaxOf).Pairwise fun a b => a.2.position ≤ b.2.position := by
  have hposition : ∀ {table : ImportTable} {site : CallSite} {pair : Path × Edge},
      table.edge? path site = some pair → pair.2.position = site.position := by
    intro table site pair hpair
    obtain ⟨binding, _, rfl⟩ := Option.map_eq_some_iff.1 hpair
    rfl
  refine List.pairwise_filterMap.2 (h.imp fun {a b} hab pair hpair pair' hpair' => ?_)
  rw [hposition hpair, hposition hpair']
  exact hab

/-- Files that are built one after another contribute their edges one after another. -/
theorem fileList_inFileOrder (h : Session.Keeping FileSyntax.InOrder start s)
    (policy : ResolutionPolicy) (hyields : ∀ path text syntaxOf,
      Reads grammar policy path text s paths → Source.fileSyntax grammar path text = .ok syntaxOf →
        syntaxOf.InOrder ∧ (start.Backed → syntaxOf.Fits)) :
    InFileOrder paths ((fileList grammar policy s paths).1.map (·.2)) ∧
      Session.Keeping FileSyntax.InOrder start (fileList grammar policy s paths).2 := by
  induction paths generalizing s with
  | nil => exact ⟨.nil, h⟩
  | cons path paths ih =>
    obtain ⟨hkeeping, hedges⟩ :=
      h.file policy fun text syntaxOf hread => hyields path text syntaxOf (.inl ⟨rfl, hread⟩)
    obtain ⟨hmore, hend⟩ := ih hkeeping fun p text syntaxOf hreads => hyields p text syntaxOf (.inr hreads)
    unfold fileList
    dsimp only
    rw [List.map_append]
    refine ⟨?_, hend⟩
    rcases hedges with hnone | ⟨files, syntaxOf, horder, hedges⟩
    · rw [hnone]
      exact .cons (fun e he => by cases he) .nil hmore
    · rw [hedges]
      have hpositions := edgesOfSyntax_inOrder horder files policy path
      exact .cons (List.forall_mem_map.2 fun pair hpair => dependent_of_mem_edgesOfSyntax hpair)
        (List.pairwise_map.2 hpositions) hmore

/-- Every bucket of an index is sorted by the rank of the dependent file in the scan and then by the
position of the call, and the edges of a file stand together in it. Cached syntax is no exception: it
had its calls in order when it was found, and it still has them after the build. -/
theorem buckets_sorted (grammar : Grammar) (config : Config) (s : Session) (roots : List Path)
    (hnested : ∀ found ∈ Scan.roots s.files config roots, ∀ text parsed,
      Reads grammar config.resolution found.path text s
        ((Scan.roots s.files config roots).map (·.path)) →
      grammar found.language text = some parsed → parsed.root.Nested)
    (hcache : ∀ cache, s.cache = some cache → cache.Holds FileSyntax.InOrder s.files)
    (hfits : s.Backed → ∀ path text syntaxOf,
      Reads grammar config.resolution path text s
        ((Scan.roots s.files config roots).map (·.path)) →
      Source.fileSyntax grammar path text = .ok syntaxOf → syntaxOf.Fits) :
    let paths := (Scan.roots s.files config roots).map (·.path)
    let build := analyze grammar config s roots
    paths.Pairwise (fun p q => q.same p = false) ∧
      (∀ bucket ∈ build.1.buckets,
        (∀ e ∈ bucket.edges, e.dependent ∈ paths) ∧
        bucket.edges.Pairwise (fun a b => toLex (paths.idxOf a.dependent, a.position) ≤
          toLex (paths.idxOf b.dependent, b.position)) ∧
        paths.flatMap (fun path => bucket.edges.filter fun e => e.dependent = path) = bucket.edges) ∧
      ∀ cache, build.2.cache = some cache → cache.Holds FileSyntax.InOrder build.2.files := by
  intro paths build
  have hdistinct : paths.Pairwise fun p q => q.same p = false :=
    List.pairwise_map.2 (Path.pairwise_firstOfEach SourceFile.path [] _)
  have hnodup : paths.Nodup := by
    refine hdistinct.imp fun {p q} hpq heq => ?_
    rw [heq, Path.same_iff.2 rfl] at hpq
    cases hpq
  have hyields : ∀ path text syntaxOf, Reads grammar config.resolution path text s paths →
      Source.fileSyntax grammar path text = .ok syntaxOf →
        syntaxOf.InOrder ∧ (s.Backed → syntaxOf.Fits) := by
    intro path text syntaxOf hreads hsyntaxOf
    refine ⟨?_, fun hbacked => hfits hbacked path text syntaxOf hreads hsyntaxOf⟩
    obtain ⟨found, hfound, rfl⟩ := List.mem_map.1 (mem_of_reads hreads)
    obtain ⟨language, parsed, hl, hparsed, rfl⟩ := Source.fileSyntax_eq_ok.1 hsyntaxOf
    obtain rfl := Option.some.inj ((Scan.language_of_mem_roots hfound).symm.trans hl)
    exact FileSyntax.inOrder_ofTree (hnested found hfound text parsed hreads hparsed) text
  obtain ⟨horder, hkeeping⟩ := fileList_inFileOrder ⟨rfl, hcache⟩ config.resolution hyields
  refine ⟨hdistinct, fun bucket hbucket => ?_, hkeeping.holds⟩
  have hbuckets : InFileOrder paths bucket.edges := by
    have hedges := DependencyIndex.edgesIn_of_mem
      (DependencyIndex.sorted_extend .empty _ .nil) hbucket
    change DependencyIndex.edgesOf _ bucket.target = _ at hedges
    rw [DependencyIndex.edgesOf_extend] at hedges
    rw [← hedges]
    exact horder.sublist (List.filter_sublist.map _)
  exact ⟨fun e he => hbuckets.dependent_mem he, hbuckets.sorted hnodup,
    hbuckets.flatMap_filter hnodup⟩

/-- A cache with that directory, which remembers the syntax of both files. -/
def twoCallersCache : SyntaxCache :=
  ((blank (some ⟨"/c"⟩)).remember ⟨"/a.ts"⟩ callsEntry).remember ⟨"/b.ts"⟩ callsEntry

theorem holds_twoCallers : twoCallersCache.Holds FileSyntax.InOrder twoCallers := by
  have hempty : (blank (some ⟨"/c"⟩)).Holds FileSyntax.InOrder twoCallers := by
    refine ⟨fun path entry hmem => ?_, fun path entry hload => ?_⟩
    · rw [blank, Std.HashMap.getElem?_empty] at hmem
      cases hmem
    · have hdir : twoCallers.enter? ⟨"/c"⟩ = some (["c"], []) := enter?_withEntries _ _
      rw [load?_of_enter?_nil rfl (unlinked_of_enter?_nil hdir) hdir] at hload
      cases hload
  have horder : callsSyntax.InOrder := by
    unfold FileSyntax.InOrder callsSyntax
    decide
  exact (hempty.remember horder _).remember horder _

theorem file_twoCallers {path : Path} (hpath : path = ⟨"/b.ts"⟩ ∨ path = ⟨"/a.ts"⟩) :
    file callsGrammar Config.standard.resolution ⟨twoCallers, some twoCallersCache⟩ path =
      (callsEdges path, ⟨twoCallers, some twoCallersCache⟩) := by
  have hmem : twoCallersCache.memory[path.components]? = some callsEntry := by
    rw [twoCallersCache, getElem?_remember, getElem?_remember]
    rcases hpath with rfl | rfl
    · exact if_pos rfl
    · rw [if_neg (by decide), if_pos rfl]
  rw [file_of_remembered (read_twoCallers hpath) rfl hmem,
    edgesOfSyntax_calls isFile_twoCallers (base?_twoCallers hpath)]

/-- One root is given twice; the files still come once each, in the order of the roots. -/
theorem buckets_sorted_twoCallers :
    let roots : List Path := [⟨"/b.ts"⟩, ⟨"/a.ts"⟩, ⟨"/b.ts"⟩]
    let edges : List Edge := [⟨⟨"/b.ts"⟩, ⟨0, 19⟩, "f", none⟩, ⟨⟨"/b.ts"⟩, ⟨0, 23⟩, "f", none⟩,
      ⟨⟨"/a.ts"⟩, ⟨0, 19⟩, "f", none⟩, ⟨⟨"/a.ts"⟩, ⟨0, 23⟩, "f", none⟩]
    (analyze callsGrammar Config.standard ⟨twoCallers, some twoCallersCache⟩ roots).1.buckets =
        [⟨⟨"/m.ts"⟩, edges⟩] ∧
      edges.Pairwise fun a b =>
        toLex ([⟨"/b.ts"⟩, ⟨"/a.ts"⟩].idxOf a.dependent, a.position) ≤
          toLex ([⟨"/b.ts"⟩, ⟨"/a.ts"⟩].idxOf b.dependent, b.position) := by
  intro roots edges
  have hscan : Scan.roots twoCallers Config.standard roots =
      [⟨⟨"/b.ts"⟩, .typescript⟩, ⟨⟨"/a.ts"⟩, .typescript⟩] := by
    simp only [Scan.roots, roots, List.flatMap_cons, List.flatMap_nil, root_twoCallers (.inl rfl),
      root_twoCallers (.inr rfl)]
    decide
  have hbuckets : (analyze callsGrammar Config.standard ⟨twoCallers, some twoCallersCache⟩
      roots).1.buckets = [⟨⟨"/m.ts"⟩, edges⟩] := by
    simp only [analyze, hscan, List.map_cons, List.map_nil, fileList,
      file_twoCallers (.inl rfl), file_twoCallers (.inr rfl)]
    decide +kernel
  have hreads : ∀ path text, Reads callsGrammar Config.standard.resolution path text
      ⟨twoCallers, some twoCallersCache⟩ [⟨"/b.ts"⟩, ⟨"/a.ts"⟩] →
        (path = ⟨"/b.ts"⟩ ∨ path = ⟨"/a.ts"⟩) ∧ text = callsText := by
    intro path text hreads
    simp only [Reads, file_twoCallers (.inl rfl), or_false] at hreads
    rcases hreads with ⟨rfl, hread⟩ | ⟨rfl, hread⟩
    · rw [read_twoCallers (.inl rfl)] at hread
      cases hread
      exact ⟨.inl rfl, rfl⟩
    · rw [read_twoCallers (.inr rfl)] at hread
      cases hread
      exact ⟨.inr rfl, rfl⟩
  obtain ⟨_, hsorted, _⟩ := buckets_sorted callsGrammar Config.standard
    ⟨twoCallers, some twoCallersCache⟩ roots
    (fun _ _ _ _ hread hparsed => by
      simp only [hscan, List.map_cons, List.map_nil] at hread
      obtain ⟨_, rfl⟩ := hreads _ _ hread
      cases hparsed
      decide)
    (fun cache hcache => by cases hcache; exact holds_twoCallers)
    (fun _ path text syntaxOf hread hparse => by
      simp only [hscan, List.map_cons, List.map_nil] at hread
      obtain ⟨hpath, rfl⟩ := hreads _ _ hread
      have hlanguage : Language.ofPath? path = some .typescript := by
        rcases hpath with rfl | rfl <;> decide
      cases (fileSyntax_calls hlanguage).symm.trans hparse
      decide +kernel)
  have hbucket := (hsorted ⟨⟨"/m.ts"⟩, edges⟩ (by rw [hbuckets]; exact List.mem_singleton.2 rfl)).2.1
  rw [hscan] at hbucket
  exact ⟨hbuckets, hbucket⟩

end Analysis

end Dependents
