import Dependents.Proofs.IndexBuckets
import Dependents.Proofs.JsonRoundTrip
import Dependents.Report.Json
import Mathlib.Data.List.Forall2

/-! Reports and indexes in JSON lose nothing: the text is read back in either layout, each record is
decoded from its object, and filing the edges of sorted buckets in order makes the same buckets. -/
namespace Dependents

open Json

/-- A position whose line and column are words. -/
structure Position.Fits (p : Position) : Prop where
  line : p.line < Text.wordBound
  character : p.character < Text.wordBound

instance : DecidablePred Position.Fits := fun p =>
  decidable_of_iff (p.line < Text.wordBound ∧ p.character < Text.wordBound)
    ⟨fun ⟨hl, hc⟩ => ⟨hl, hc⟩, fun ⟨hl, hc⟩ => ⟨hl, hc⟩⟩

variable {p : Position} {e : Edge} {b : Bucket} {edges : List Edge} {depth : Nat}

/-! Records and their objects. -/

theorem Json.asWord?_natural {n : Nat} (h : n < Text.wordBound) : (natural n).asWord? = some n :=
  if_pos h

theorem Json.listOf?_map {α β : Type} {decode : Json → Option β} {encode : α → Json} {result : α → β}
    {items : List α} (h : ∀ a ∈ items, decode (encode a) = some (result a)) :
    listOf? decode (.array (items.map encode)) = some (items.map result) := by
  change (items.map encode).mapM decode = _
  induction items with
  | nil => rfl
  | cons a items ih =>
    obtain ⟨ha, hitems⟩ := List.forall_mem_cons.1 h
    simp [ha, ih hitems]

theorem Position.ofJson?_toJson (h : p.Fits) : Position.ofJson? p.toJson = some p := by
  have hslots : slots? ["line", "character"] p.toJson =
      some [.given (.natural p.line), .given (.natural p.character)] := rfl
  simp [Position.ofJson?, hslots, Slot.required, asWord?_natural h.line, asWord?_natural h.character]

/-- An edge is decoded as it was, with or without a caller. -/
theorem Edge.ofJson?_toJson (h : e.position.Fits) : Edge.ofJson? e.toJson = some e := by
  obtain ⟨dependent, position, targetFunction, caller⟩ := e
  have hposition : Position.ofJson? position.toJson = some position := Position.ofJson?_toJson h
  cases caller with
  | none =>
    have hslots : slots? ["dependentFilePath", "position", "targetFunction", "callerFunction"]
        (Edge.toJson ⟨dependent, position, targetFunction, none⟩) =
          some [.given (.string dependent.text), .given position.toJson,
            .given (.string targetFunction), .absent] := rfl
    simp [Edge.ofJson?, hslots, Slot.required, Slot.orElse, Path.ofJson?, asString?, hposition]
  | some caller =>
    have hslots : slots? ["dependentFilePath", "position", "targetFunction", "callerFunction"]
        (Edge.toJson ⟨dependent, position, targetFunction, some caller⟩) =
          some [.given (.string dependent.text), .given position.toJson,
            .given (.string targetFunction), .given (.string caller)] := rfl
    simp [Edge.ofJson?, hslots, Slot.required, Slot.orElse, nullable, Path.ofJson?, asString?, hposition]

theorem Edge.field?_callerFunction (e : Edge) :
    e.toJson.field? "callerFunction" = e.caller.map .string := by
  obtain ⟨dependent, position, targetFunction, caller⟩ := e
  cases caller <;> rfl

theorem listOf?_edges (h : ∀ e ∈ edges, e.position.Fits) :
    listOf? Edge.ofJson? (.array (edges.map Edge.toJson)) = some edges := by
  rw [listOf?_map fun e he => Edge.ofJson?_toJson (h e he), List.map_id']

theorem Bucket.pairsOfJson?_toJson (h : ∀ e ∈ b.edges, e.position.Fits) :
    Bucket.pairsOfJson? b.toJson = some (b.edges.map fun e => (b.target, e)) := by
  have hfile : b.toJson.field? "file" = some (.string b.target.text) := rfl
  have hdependencies : b.toJson.field? "dependencies" = some (.array (b.edges.map Edge.toJson)) := rfl
  simp [Bucket.pairsOfJson?, hfile, hdependencies, listOf?_edges h, asString?]

theorem Report.field?_dependencies (r : Report) :
    r.toJson.field? "dependencies" = some (.array (r.edges.map Edge.toJson)) := by
  obtain ⟨target, function, edges⟩ := r
  cases function <;> rfl

/-- The items under `dependencies` show the callers of some edges: each has the field where its edge
has a caller, and no such field where it has none. -/
def ShowsCallers (edges : List Edge) (value : Json) : Prop :=
  ∃ items, value.field? "dependencies" = some (.array items) ∧
    List.Forall₂ (fun e item => item.field? "callerFunction" = e.caller.map .string) edges items

theorem showsCallers_of_field? {value : Json}
    (h : value.field? "dependencies" = some (.array (edges.map Edge.toJson))) :
    ShowsCallers edges value := by
  refine ⟨_, h, ?_⟩
  rw [List.forall₂_map_right_iff, List.forall₂_same]
  exact fun e _ => e.field?_callerFunction

/-! How deep the objects nest. -/

theorem Position.shallow_toJson (h : p.Fits) : Shallow (depth + 1) p.toJson := by
  apply Shallow.object
  simp [Shallow.natural h.line, Shallow.natural h.character]

theorem Edge.shallow_toJson (h : e.position.Fits) : Shallow (depth + 2) e.toJson := by
  apply Shallow.object
  intro entry hentry
  rcases List.mem_append.1 hentry with hentry | hentry
  · simp only [List.mem_cons, List.not_mem_nil, or_false] at hentry
    rcases hentry with rfl | rfl | rfl
    · exact .string _
    · exact Position.shallow_toJson h
    · exact .string _
  · obtain ⟨caller, _, rfl⟩ := List.mem_map.1 hentry
    exact .string caller

theorem shallow_edges (h : ∀ e ∈ edges, e.position.Fits) :
    Shallow (depth + 3) (.array (edges.map Edge.toJson)) := by
  apply Shallow.array
  rw [List.forall_mem_map]
  exact fun e he => Edge.shallow_toJson (h e he)

theorem DependencyIndex.shallow_toJson {index : DependencyIndex}
    (h : ∀ b ∈ index.buckets, ∀ e ∈ b.edges, e.position.Fits) : Shallow (depth + 6) index.toJson := by
  have hbucket : ∀ b ∈ index.buckets, Shallow (depth + 4) b.toJson := by
    intro b hb
    apply Shallow.object
    simp [Shallow.string, shallow_edges (h b hb)]
  apply Shallow.object
  rw [List.forall_mem_singleton]
  apply Shallow.array
  rwa [List.forall_mem_map]

theorem length_eraseDups_le {α : Type} [BEq α] (items : List α) :
    items.eraseDups.length ≤ items.length := by
  induction hlength : items.length using Nat.strongRecOn generalizing items with
  | ind n ih =>
    cases items with
    | nil => simp
    | cons a items =>
      have hfilter := List.length_filter_le (fun b => !b == a) items
      rw [List.length_cons] at hlength
      have hrest := ih _ (by omega) (items.filter fun b => !b == a) rfl
      rw [List.eraseDups_cons, List.length_cons]
      omega

theorem Report.shallow_toJson {r : Report} (h : ∀ e ∈ r.edges, e.position.Fits)
    (hcount : r.edges.length < Text.wordBound) : Shallow (depth + 4) r.toJson := by
  have himpact : Shallow (depth + 3) r.impact.toJson := by
    have hfiles : r.impact.dependentFiles < Text.wordBound := by
      apply Nat.lt_of_le_of_lt (length_eraseDups_le _)
      rwa [List.length_map]
    apply Shallow.object
    simp [Shallow.string, Shallow.natural hfiles]
  apply Shallow.object
  intro entry hentry
  simp only [List.mem_append, List.mem_map, List.mem_cons, List.not_mem_nil, or_false] at hentry
  rcases hentry with (rfl | ⟨function, _, rfl⟩) | rfl | rfl
  · exact .string _
  · exact .string function
  · exact himpact
  · exact shallow_edges h

/-! Filing again. -/

namespace DependencyIndex

variable {target : Path} {edge : Edge} {bs done : List Bucket}

theorem insertEdge_append (h : ∀ b ∈ bs, b.target.order target = .lt) (edge : Edge)
    (more : List Bucket) : insertEdge target edge (bs ++ more) = bs ++ insertEdge target edge more := by
  induction bs with
  | nil => rfl
  | cons b bs ih =>
    obtain ⟨hb, hbs⟩ := List.forall_mem_cons.1 h
    rw [List.cons_append, insertEdge, Path.order_gt_iff.2 hb]
    exact congrArg (b :: ·) (ih hbs)

/-- Edges of the last target all go to the last bucket. -/
theorem extend_last (h : ∀ b ∈ bs, b.target.order target = .lt) (filed edges : List Edge) :
    (⟨bs ++ [⟨target, filed⟩]⟩ : DependencyIndex).extend (edges.map fun e => (target, e)) =
      ⟨bs ++ [⟨target, filed ++ edges⟩]⟩ := by
  induction edges generalizing filed with
  | nil => rw [List.append_nil]; rfl
  | cons e edges ih =>
    have hsame : target.order target = .eq := Path.order_eq_iff.2 (Path.same_iff.2 rfl)
    have hadd : (⟨bs ++ [⟨target, filed⟩]⟩ : DependencyIndex).add target e =
        ⟨bs ++ [⟨target, filed ++ [e]⟩]⟩ := by
      rw [add, insertEdge_append h, insertEdge, hsame]
    have hrest := ih (filed ++ [e])
    rw [List.append_assoc, ← hadd] at hrest
    exact hrest

/-- Filing the edges of a bucket after all smaller ones puts the bucket at the end. -/
theorem extend_bucket (h : ∀ c ∈ bs, c.target.order b.target = .lt) (hb : b.edges ≠ []) :
    (⟨bs⟩ : DependencyIndex).extend (b.edges.map fun e => (b.target, e)) = ⟨bs ++ [b]⟩ := by
  obtain ⟨target, edges⟩ := b
  obtain ⟨e, edges, rfl⟩ := List.exists_cons_of_ne_nil hb
  have hadd : (⟨bs⟩ : DependencyIndex).add target e = ⟨bs ++ [⟨target, [e]⟩]⟩ := by
    have hnew := insertEdge_append h e []
    rw [List.append_nil] at hnew
    rw [add, hnew]
    rfl
  have hrest := extend_last h [e] edges
  rw [← hadd] at hrest
  exact hrest

/-- Filing the edges of sorted buckets one bucket after another makes the buckets again. -/
theorem extend_buckets (h : Sorted (done ++ bs)) (hbs : ∀ b ∈ bs, b.edges ≠ []) :
    (⟨done⟩ : DependencyIndex).extend (bs.map fun b => b.edges.map fun e => (b.target, e)).flatten =
      ⟨done ++ bs⟩ := by
  induction bs generalizing done with
  | nil => rw [List.append_nil]; rfl
  | cons b bs ih =>
    obtain ⟨hb, hmore⟩ := List.forall_mem_cons.1 hbs
    have hless : ∀ c ∈ done, c.target.order b.target = .lt := by
      intro c hc
      exact (List.pairwise_append.1 h).2.2 c hc b List.mem_cons_self
    rw [List.append_cons] at h ⊢
    rw [List.map_cons, List.flatten_cons, extend_append, extend_bucket hless hb]
    exact ih h hmore

theorem ofJson?_toJson {index : DependencyIndex} (hbuilt : Built index)
    (h : ∀ b ∈ index.buckets, ∀ e ∈ b.edges, e.position.Fits) :
    DependencyIndex.ofJson? index.toJson = some index := by
  have hpairs := listOf?_map fun b hb => Bucket.pairsOfJson?_toJson (h b hb)
  have htargets : index.toJson.field? "targets" = some (.array (index.buckets.map Bucket.toJson)) := rfl
  have hextend : DependencyIndex.empty.extend
      (index.buckets.map fun b => b.edges.map fun e => (b.target, e)).flatten = index :=
    extend_buckets hbuilt.sorted hbuilt.edges_ne_nil
  simp [DependencyIndex.ofJson?, htargets, hpairs, hextend]

/-- The JSON of an index and of a report is lossless. Both layouts are read as one value. Decoding the
files and edges of an index in order and filing them in an empty one gives the index, and the
dependencies of a report are its edges. A caller is shown exactly where an edge has one. -/
theorem json_lossless (index : DependencyIndex) (report : Report) (hbuilt : Built index)
    (hindex : ∀ bucket ∈ index.buckets, ∀ e ∈ bucket.edges, e.position.Fits)
    (hreport : ∀ e ∈ report.edges, e.position.Fits) (hcount : report.edges.length < Text.wordBound) :
    (∃ value, (∀ layout, Json.read? (index.toJson.render layout) = some value) ∧
      DependencyIndex.ofJson? value = some index ∧
      ∃ targets, value.field? "targets" = some (.array targets) ∧
        List.Forall₂ (fun bucket item => ShowsCallers bucket.edges item) index.buckets targets) ∧
    ∃ value, (∀ layout, Json.read? (report.toJson.render layout) = some value) ∧
      Report.edgesOfJson? value = some report.edges ∧ ShowsCallers report.edges value := by
  constructor
  · have hshallow : Shallow (121 + 6) index.toJson := shallow_toJson hindex
    refine ⟨index.toJson, read?_render hshallow, ofJson?_toJson hbuilt hindex, _, rfl, ?_⟩
    rw [List.forall₂_map_right_iff, List.forall₂_same]
    exact fun bucket _ => showsCallers_of_field? rfl
  · have hshallow : Shallow (123 + 4) report.toJson := Report.shallow_toJson hreport hcount
    have hfield := report.field?_dependencies
    refine ⟨report.toJson, read?_render hshallow, ?_, showsCallers_of_field? hfield⟩
    rw [Report.edgesOfJson?, hfield, Option.bind_some, listOf?_edges hreport]

/-- Edges with texts that need escapes: quotes, backslashes, control characters, and characters
beyond the first plane. -/
def awkwardEdges : List Edge :=
  [⟨⟨"/a \x22b\x22.ts"⟩, ⟨0, 18446744073709551615⟩, "f\\g", some "\x01\n\x1f"⟩,
    ⟨⟨"/é😀.ts"⟩, ⟨7, 2⟩, "", none⟩]

/-- They are read back from an index with two buckets and from a report. -/
theorem json_lossless_awkward :
    let index := (DependencyIndex.empty.extend (awkwardEdges.map fun e => (⟨"/n.ts"⟩, e))).add
      ⟨"/m.ts"⟩ ⟨⟨"/a.ts"⟩, ⟨1, 0⟩, "f", none⟩
    let report : Report := ⟨⟨"/n.ts"⟩, some "f\\g", awkwardEdges⟩
    (Json.read? (index.toJson.render .compact)).bind DependencyIndex.ofJson? = some index ∧
      (Json.read? (index.toJson.render .indented)).bind DependencyIndex.ofJson? = some index ∧
      (Json.read? (report.toJson.render .indented)).bind Report.edgesOfJson? = some awkwardEdges := by
  intro index report
  have hedges : ∀ e ∈ awkwardEdges, e.position.Fits := by decide
  have hbuckets : index.buckets = [⟨⟨"/m.ts"⟩, [⟨⟨"/a.ts"⟩, ⟨1, 0⟩, "f", none⟩]⟩,
      ⟨⟨"/n.ts"⟩, awkwardEdges⟩] := by decide +kernel
  have hindex : ∀ bucket ∈ index.buckets, ∀ e ∈ bucket.edges, e.position.Fits := by
    rw [hbuckets]
    decide
  obtain ⟨⟨value, hread, hvalue, _⟩, value', hread', hvalue', _⟩ :=
    json_lossless index report ((Built.empty.extend _).add _ _) hindex hedges (by decide)
  rw [hread, hread, hread']
  exact ⟨hvalue, hvalue, hvalue'⟩

end DependencyIndex

end Dependents
