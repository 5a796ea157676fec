import Dependents.CommandLine.Run
import Dependents.Proofs.CanonicalPaths
import Dependents.Proofs.IndexKeys

/-! Asking for a key of the index. The index names files by the paths that imports spell, and a target
is named by where it leads, so a key that passes through a link is looked up under another name. -/
namespace Dependents

open Dependents.Path

/-- What follows the dot in a name that goes on before it is the extension. -/
theorem Path.extensionOfName_append {stem extension : String} (hstem : stem.toList ≠ [])
    (hdot : '.' ∉ extension.toList) :
    extensionOfName (stem ++ "." ++ extension) = some extension := by
  have hname : (stem ++ "." ++ extension).toList.reverse =
      extension.toList.reverse ++ '.' :: stem.toList.reverse := by simp
  have hplain : ∀ c ∈ extension.toList.reverse, (c != '.') = true := by
    intro c hc
    rw [bne_iff_ne]
    rintro rfl
    exact hdot (List.mem_reverse.1 hc)
  obtain ⟨c, cs, hc⟩ := List.exists_cons_of_ne_nil (List.reverse_ne_nil_iff.2 hstem)
  simp only [extensionOfName, hname, List.dropWhile_append_of_pos hplain,
    List.takeWhile_append_of_pos hplain, hc]
  simp

namespace Resolution

variable {target : Path} {name : String} {names : List String}

theorem language_ofNames (h : AreNames (names ++ [name])) :
    Language.ofPath? (ofNames (names ++ [name])) =
      (extensionOfName name).bind Language.ofExtension? := by
  have hlast : (ofNames (names ++ [name])).fileName? = some name := by
    rw [fileName?_eq_some, last?, components_ofNames h, List.map_append, List.map_singleton,
      ← List.cons_append, List.getLast?_concat]
  rw [Language.ofPath?, extension?, hlast, Option.bind_some]

/-- A candidate has a language, unless it is a bare suffix at the root. -/
theorem language_of_mem_candidates (h : AreNames names) (ht : target ∈ candidates (ofNames names)) :
    (Language.ofPath? target).isSome = true ∨ target = ⟨"/.ts"⟩ ∨ target = ⟨"/.js"⟩ := by
  rcases List.mem_append.1 ht with ht | ht
  · obtain ⟨suffix, hsuffix, rfl⟩ := List.mem_map.1 ht
    obtain ⟨hslash, hlong⟩ := long_of_mem_suffixes hsuffix
    obtain ⟨most, last, hspelled, hnames, hcases⟩ := names_withSuffix h hslash hlong
    rw [hspelled]
    rcases hcases with ⟨rfl, rfl, rfl⟩ | rfl
    · rcases List.mem_pair.1 hsuffix with rfl | rfl
      · exact .inr (.inl (by decide +kernel))
      · exact .inr (.inr (by decide +kernel))
    · obtain ⟨extension, hdotted, hdot, hlanguage⟩ : ∃ extension, suffix = "." ++ extension ∧
          '.' ∉ extension.toList ∧ (Language.ofExtension? extension).isSome = true := by
        rcases List.mem_pair.1 hsuffix with rfl | rfl
        · exact ⟨"ts", by decide, by decide, rfl⟩
        · exact ⟨"js", by decide, by decide, rfl⟩
      have hlast : last.toList ≠ [] := (h last (by simp)).ne_nil
      rw [language_ofNames hnames, hdotted, ← String.append_assoc,
        extensionOfName_append hlast hdot]
      exact .inl hlanguage
  · obtain ⟨file, hfile, rfl⟩ := List.mem_map.1 ht
    have hname := isName_of_mem_indexFiles hfile
    rw [join_ofNames h hname, language_ofNames (h.concat hname)]
    rcases List.mem_pair.1 hfile with rfl | rfl
    · exact .inl (by decide +kernel)
    · exact .inl (by decide +kernel)

/-- What an absolute file imports has a language, unless it is a bare suffix at the root. -/
theorem language_of_resolve {fs : FileSystem} {policy : ResolutionPolicy} {specifier : String}
    {importer : Path} (himporter : importer.isAbsolute = true)
    (h : resolve fs policy specifier importer = some target) :
    (Language.ofPath? target).isSome = true ∨ target = ⟨"/.ts"⟩ ∨ target = ⟨"/.js"⟩ := by
  obtain ⟨base, hbase, htarget⟩ := mem_candidates_of_resolve h
  obtain ⟨names, hnames, rfl⟩ := names_of_base? himporter hbase
  exact language_of_mem_candidates hnames htarget

end Resolution

/-- A key has a language, unless it is a bare suffix at the root. -/
theorem Analysis.language_of_mem_targets {grammar : Grammar} {config : Config} {s : Session}
    {roots : List Path} {key : Path} (h : key ∈ (analyze grammar config s roots).1.targets) :
    (Language.ofPath? key).isSome = true ∨ key = ⟨"/.ts"⟩ ∨ key = ⟨"/.js"⟩ := by
  obtain ⟨found, hfound, files, specifier, hresolve⟩ := resolve_of_mem_targets h
  exact Resolution.language_of_resolve (Scan.isAbsolute_of_mem_roots hfound) hresolve

/-- Where there is an edge there is an impact. -/
theorem Impact.level_ofEdges_ne_none {edges : List Edge} (h : edges ≠ []) :
    (Impact.ofEdges edges).level ≠ .none := by
  obtain ⟨edge, edges, rfl⟩ := List.exists_cons_of_ne_nil h
  simp only [level, ofEdges, List.map_cons, List.eraseDups_cons, List.length_cons]
  unfold ImpactLevel.ofCount
  split
  · omega
  · simp
  all_goals simp

namespace CommandLine

variable {grammar : Grammar} {files : FileSystem} {args : Arguments} {config : Config}
  {given target : Path} {names : List String}

/-- A report in one of the formats. -/
def printed (base : Option Path) (r : Report) : OutputFormat → String
  | .text => r.text base
  | .json => r.toJson.render .indented ++ "\n"

/-- A path in normal form is looked up under its own name exactly if nothing stands there or no link
is on the way. -/
theorem resolveTarget_ofNames (h : AreNames names) (hne : names ≠ []) :
    ∃ m, resolveTarget files (ofNames names) = ofNames m ∧ AreNames m ∧
      (m = names ↔ files.holds (ofNames names) = false ∨ ¬ files.LinkOn (ofNames names)) := by
  unfold resolveTarget FileSystem.canonicalize FileSystem.holds
  cases hfind : files.find (ofNames names) with
  | error e =>
    -- The fallback normalizes a path that is in normal form already.
    refine ⟨names, ?_, h, by simp [Except.isOk, Except.toBool]⟩
    simp only [Except.map]
    rw [FileSystem.absolute, if_pos (isAbsolute_ofNames names), normalize_ofNames h]
  | ok place =>
    obtain ⟨m, node⟩ := place
    obtain ⟨hm, hiff⟩ := FileSystem.find_ofNames h hne hfind
    exact ⟨m, rfl, hm, by simp [Except.isOk, Except.toBool, hiff]⟩

/-- A run that asks about a whole file prints the bucket of the resolved target, or refuses a target
in no language. -/
theorem run_of_target (hconfig : CommandLine.config files args = .ok config)
    (hfunction : args.function = none) (hoffset : args.offset = none) (hcursor : args.cursor = none)
    (hgiven : args.target = some given) (htarget : resolveTarget files given = target) :
    let build := Analysis.analyze grammar config (Session.start files config) args.inputs
    let base := args.inputs.head?.bind fun root => (build.2.files.canonicalize root).toOption
    (run grammar files args).1 =
      if (Language.ofPath? target).isNone then
        .error ["codescope only supports JavaScript and TypeScript files: " ++ target.text]
      else
        (deliver build.2.files args (printed base ⟨target, none, build.1.edgesOf target⟩
          (args.format.getD .text))).map (·.1) := by
  intro build base
  have hrender : render grammar build.2.files args build.1 (some target) =
      .ok (printed base ⟨target, none, build.1.edgesOf target⟩ (args.format.getD .text)) := by
    have hreport : report grammar build.2.files args build.1 target =
        .ok ⟨target, none, build.1.edgesOf target⟩ := by
      rw [report, if_pos (by simp [hoffset, hcursor]), hfunction, Report.ofIndex]
    unfold render
    cases args.format.getD .text <;> simp only [hreport] <;> rfl
  simp only [run, hconfig, hgiven, Option.map_some, htarget, checkTarget]
  by_cases hlanguage : (Language.ofPath? target).isNone = true
  · simp only [if_pos hlanguage]
  · simp only [if_neg hlanguage]
    rw [hrender]
    dsimp only
    cases deliver build.2.files args _ <;> rfl

/-- Asking for a key of the index. It is looked up under its own name exactly if nothing stands there
or no link is on the way, and then its bucket, which is never empty, is printed. Only a bare suffix at
the root, which has no language, is refused. -/
theorem run_of_key (grammar : Grammar) (files : FileSystem) (args : Arguments) (config : Config)
    (key : Path) (hconfig : CommandLine.config files args = .ok config)
    (htarget : args.target = some key) (hfunction : args.function = none)
    (hoffset : args.offset = none) (hcursor : args.cursor = none)
    (hkey : key ∈ (Analysis.analyze grammar config (Session.start files config) args.inputs).1.targets) :
    let build := Analysis.analyze grammar config (Session.start files config) args.inputs
    let base := args.inputs.head?.bind fun root => (build.2.files.canonicalize root).toOption
    let shown : Report := ⟨key, none, build.1.edgesOf key⟩
    ((resolveTarget files key).same key = true ↔ files.holds key = false ∨ ¬ files.LinkOn key) ∧
      shown.edges ≠ [] ∧ shown.impact.level ≠ .none ∧
      (files.holds key = false ∨ ¬ files.LinkOn key → (run grammar files args).1 =
        if key = ⟨"/.ts"⟩ ∨ key = ⟨"/.js"⟩ then
          .error ["codescope only supports JavaScript and TypeScript files: " ++ key.text]
        else
          (deliver build.2.files args (printed base shown (args.format.getD .text))).map (·.1)) := by
  intro build base shown
  have hedges : shown.edges ≠ [] := DependencyIndex.edgesOf_ne_nil hkey
  -- The run refuses by language; among keys that means the two bare suffixes alone.
  have hlanguage : (Language.ofPath? key).isNone = true ↔ key = ⟨"/.ts"⟩ ∨ key = ⟨"/.js"⟩ := by
    constructor
    · intro hnone
      rcases Analysis.language_of_mem_targets hkey with hsome | hbare
      · simp [Option.isNone_iff_eq_none.1 hnone] at hsome
      · exact hbare
    · rintro (rfl | rfl) <;> decide +kernel
  obtain ⟨names, hne, hnames, rfl⟩ := Analysis.straight_of_mem_targets hkey
  obtain ⟨m, hm, hmnames, hiff⟩ := resolveTarget_ofNames hnames hne
  refine ⟨?_, hedges, Impact.level_ofEdges_ne_none hedges, fun hown => ?_⟩
  · rw [hm, same_iff, ← hiff]
    exact ⟨ofNames_inj hmnames hnames, fun heq => heq ▸ rfl⟩
  · have hsame : resolveTarget files (ofNames names) = ofNames names := by rw [hm, hiff.2 hown]
    rw [run_of_target hconfig hfunction hoffset hcursor htarget hsame]
    simp only [hlanguage]
    rfl

/-- A file that calls what `/m.ts` exports, something in its place, and an empty file. -/
def pointing (node : FileNode) : FileSystem :=
  ⟨[("a.ts", .file (Text.bytesOf Analysis.callsText.toList)), ("m.ts", node), ("r.ts", .file [])], []⟩

/-- The question about `/m.ts`. -/
def aboutM : Arguments :=
  { Arguments.empty with inputs := [⟨"/a.ts"⟩], target := some ⟨"/m.ts"⟩ }

theorem config_aboutM (node : FileNode) :
    CommandLine.config (pointing node) aboutM = .ok Config.standard :=
  rfl

theorem find_pointing (node : FileNode) : (pointing node).find ⟨"/a.ts"⟩ =
    .ok (["a.ts"], .file (Text.bytesOf Analysis.callsText.toList)) :=
  FileSystem.find_top "a.ts" rfl (by decide +kernel) rfl

theorem base_pointing (node : FileNode) :
    (aboutM.inputs.head?.bind fun root => ((pointing node).canonicalize root).toOption) =
      some ⟨"/a.ts"⟩ := by
  rw [aboutM, List.head?_cons, Option.bind_some, FileSystem.canonicalize, find_pointing]
  rfl

theorem analyze_pointing (node : FileNode) (hm : (pointing node).isFile ⟨"/m.ts"⟩ = true) :
    Analysis.analyze (fun _ _ => some Analysis.callsTree) Config.standard
        (Session.start (pointing node) Config.standard) aboutM.inputs =
      (⟨[⟨⟨"/m.ts"⟩, [⟨⟨"/a.ts"⟩, ⟨0, 19⟩, "f", none⟩, ⟨⟨"/a.ts"⟩, ⟨0, 23⟩, "f", none⟩]⟩]⟩,
        ⟨pointing node, none⟩) := by
  have hscan : Scan.roots (pointing node) Config.standard aboutM.inputs =
      [⟨⟨"/a.ts"⟩, .typescript⟩] := by
    rw [aboutM, Scan.roots, List.flatMap_cons, List.flatMap_nil,
      Scan.root_of_find (find_pointing node)]
    decide +kernel
  have hread : Source.read (pointing node) ⟨"/a.ts"⟩ = .ok Analysis.callsText := by
    rw [Source.read, FileSystem.read, find_pointing]
    decide +kernel
  have hparsed : Source.fileSyntax (fun _ _ => some Analysis.callsTree) ⟨"/a.ts"⟩ Analysis.callsText =
      .ok Analysis.callsSyntax :=
    Source.fileSyntax_eq_ok.2 ⟨.typescript, _, by decide +kernel, rfl, by decide +kernel⟩
  have hedges : Analysis.freshEdges (fun _ _ => some Analysis.callsTree) Config.standard.resolution
      (pointing node) ⟨"/a.ts"⟩ = Analysis.callsEdges ⟨"/a.ts"⟩ := by
    simp only [Analysis.freshEdges, hread, Except.bind, hparsed]
    exact Analysis.edgesOfSyntax_calls hm (by decide +kernel)
  change Analysis.analyze _ _ ⟨pointing node, none⟩ _ = _
  rw [Analysis.analyze, hscan, Analysis.fileList_uncached, List.map_singleton,
    List.flatMap_singleton, hedges]
  rfl

/-- A file in its own place is found under its name. -/
theorem run_of_key_plain :
    let files := pointing (.file [])
    (Analysis.analyze (fun _ _ => some Analysis.callsTree) Config.standard
        (Session.start files Config.standard) aboutM.inputs).1.targets = [⟨"/m.ts"⟩] ∧
      (resolveTarget files ⟨"/m.ts"⟩).same ⟨"/m.ts"⟩ = true ∧
      (run (fun _ _ => some Analysis.callsTree) files aboutM).1 =
        .ok (printed (some ⟨"/a.ts"⟩) ⟨⟨"/m.ts"⟩, none,
          [⟨⟨"/a.ts"⟩, ⟨0, 19⟩, "f", none⟩, ⟨⟨"/a.ts"⟩, ⟨0, 23⟩, "f", none⟩]⟩ .text) := by
  intro files
  have hfind : files.find ⟨"/m.ts"⟩ = .ok (["m.ts"], .file []) :=
    FileSystem.find_top "m.ts" rfl (by decide +kernel) rfl
  have hbuild := analyze_pointing (.file []) (by rw [FileSystem.isFile, hfind])
  have hsame : (resolveTarget files ⟨"/m.ts"⟩).same ⟨"/m.ts"⟩ = true := by
    rw [resolveTarget, FileSystem.canonicalize, hfind]
    decide +kernel
  obtain ⟨hiff, _, _, hrun⟩ := run_of_key (fun _ _ => some Analysis.callsTree) files aboutM
    Config.standard ⟨"/m.ts"⟩ (config_aboutM _) rfl rfl rfl rfl
    (by rw [hbuild]; exact List.mem_cons_self)
  refine ⟨by rw [hbuild]; rfl, hsame, (hrun (hiff.1 hsame)).trans ?_⟩
  rw [if_neg (by decide), hbuild, base_pointing]
  have hedges : DependencyIndex.edgesOf ⟨[⟨⟨"/m.ts"⟩, [⟨⟨"/a.ts"⟩, ⟨0, 19⟩, "f", none⟩,
      ⟨⟨"/a.ts"⟩, ⟨0, 23⟩, "f", none⟩]⟩]⟩ ⟨"/m.ts"⟩ =
        [⟨⟨"/a.ts"⟩, ⟨0, 19⟩, "f", none⟩, ⟨⟨"/a.ts"⟩, ⟨0, 23⟩, "f", none⟩] := by decide +kernel
  rw [hedges]
  rfl

/-- A key that is a link is looked up under the name of the file it leads to, where the index has
nothing. -/
theorem run_of_linked_key :
    let files := pointing (.link ⟨"r.ts"⟩)
    (Analysis.analyze (fun _ _ => some Analysis.callsTree) Config.standard
        (Session.start files Config.standard) aboutM.inputs).1.targets = [⟨"/m.ts"⟩] ∧
      resolveTarget files ⟨"/m.ts"⟩ = ⟨"/r.ts"⟩ ∧
      (run (fun _ _ => some Analysis.callsTree) files aboutM).1 =
        .ok ("Dependents of /r.ts\nImpact: none (0 files). This file appears to have no direct "
          ++ "dependents in the workspace. Changes may be low-risk.\n\nNo dependents found.\n") := by
  intro files
  have hfind : files.find ⟨"/m.ts"⟩ = .ok (["r.ts"], .file []) := by
    have hlocate : files.locate ⟨"/m.ts"⟩ = .ok (["r.ts"], some (.file [])) := by
      have hsteps : (⟨"/m.ts"⟩ : Path).steps = [.root, .name "m.ts"] ∧
          (⟨"r.ts"⟩ : Path).steps = [.name "r.ts"] := by decide +kernel
      rw [FileSystem.locate, if_neg (by decide), hsteps.1, FileSystem.walk, maxLinks,
        FileSystem.walk_name_link rfl, hsteps.2, List.append_nil]
      exact FileSystem.walk_name_file rfl
    rw [FileSystem.find, hlocate]
  have hbuild := analyze_pointing (.link ⟨"r.ts"⟩) (by rw [FileSystem.isFile, hfind])
  have htarget : resolveTarget files ⟨"/m.ts"⟩ = ⟨"/r.ts"⟩ := by
    rw [resolveTarget, FileSystem.canonicalize, hfind]
    rfl
  refine ⟨by rw [hbuild]; rfl, htarget, ?_⟩
  have hedges : DependencyIndex.edgesOf ⟨[⟨⟨"/m.ts"⟩, [⟨⟨"/a.ts"⟩, ⟨0, 19⟩, "f", none⟩,
      ⟨⟨"/a.ts"⟩, ⟨0, 23⟩, "f", none⟩]⟩]⟩ ⟨"/r.ts"⟩ = [] := by decide +kernel
  have htext : printed (some ⟨"/a.ts"⟩) ⟨⟨"/r.ts"⟩, none, []⟩ .text =
      "Dependents of /r.ts\nImpact: none (0 files). This file appears to have no direct "
        ++ "dependents in the workspace. Changes may be low-risk.\n\nNo dependents found.\n" := by
    decide +kernel
  rw [run_of_target (config_aboutM _) rfl rfl rfl rfl htarget, if_neg (by decide +kernel), hbuild,
    base_pointing, hedges, ← htext]
  rfl

end CommandLine

end Dependents
