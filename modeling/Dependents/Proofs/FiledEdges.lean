import Dependents.Proofs.FirstOccurrences
import Mathlib.Data.Finset.Card
import Mathlib.Data.List.Forall2
import Mathlib.Data.List.Sort

/-! What an index holds once edges are filed in it: for each target its edges, in the order in which
they were filed, and how the target was first spelled. -/
namespace Dependents

/-- Edges that differ at most in how their dependent file is spelled. -/
structure Edge.Same (a b : Edge) : Prop where
  dependent : a.dependent.same b.dependent = true
  position : a.position = b.position
  targetFunction : a.targetFunction = b.targetFunction
  caller : a.caller = b.caller

/-- Buckets that differ at most in how files are spelled. -/
structure Bucket.Same (a b : Bucket) : Prop where
  target : a.target.same b.target = true
  edges : List.Forall₂ Edge.Same a.edges b.edges

/-- Lists in ascending order with the same members are equal. -/
theorem eq_of_ascending {α : Type} {cmp : α → α → Ordering} [Std.TransCmp cmp] {l l' : List α}
    (h : l.Pairwise fun a b => cmp a b = .lt) (h' : l'.Pairwise fun a b => cmp a b = .lt)
    (hmem : ∀ a, a ∈ l ↔ a ∈ l') : l = l' := by
  have hself : ∀ a, cmp a a ≠ .lt := by
    intro a hlt
    have heq : cmp a a = .eq := Std.ReflCmp.compare_self
    rw [heq] at hlt
    cases hlt
  have : Std.Irrefl fun a b => cmp a b = .lt := ⟨hself⟩
  have : Std.Antisymm fun a b => cmp a b = .lt :=
    ⟨fun a _ hab hba => absurd (Std.TransCmp.lt_trans hab hba) (hself a)⟩
  exact h.eq_of_mem_iff h' hmem

instance : Std.TransCmp Path.order :=
  inferInstanceAs (Std.TransCmp (compareOn Path.components))

namespace DependencyIndex

variable {index other : DependencyIndex} {pairs more : List (Path × Edge)} {p q t : Path}

/-- Indexes that differ at most in how files are spelled. -/
def Same (index other : DependencyIndex) : Prop :=
  List.Forall₂ Bucket.Same index.buckets other.buckets

/-- The edges of the pairs with one target, in order. -/
def edgesTo (t : Path) (pairs : List (Path × Edge)) : List Edge :=
  (pairs.filter fun pair => pair.1.same t).map (·.2)

/-- How a target is first spelled. -/
def firstSpelling? (t : Path) (pairs : List (Path × Edge)) : Option Path :=
  (pairs.map (·.1)).find? (·.same t)

/-- How an index spells a target. -/
def spelling? (index : DependencyIndex) (t : Path) : Option Path :=
  (index.buckets.find? fun b => b.target.same t).map (·.target)

theorem edgesOf_congr (index : DependencyIndex) (h : p.components = q.components) :
    index.edgesOf p = index.edgesOf q := by
  simp only [edgesOf, Path.same, h]

/-! An index and its look-ups. -/

theorem mem_targets_iff (h : Sorted index.buckets) : p ∈ index.targets ↔ index.spelling? p = some p := by
  constructor
  · intro hp
    obtain ⟨b, hb, rfl⟩ := List.mem_map.1 hp
    rw [spelling?, find?_of_mem h hb]
    rfl
  · intro hp
    obtain ⟨b, hb, rfl⟩ := Option.map_eq_some_iff.1 hp
    exact List.mem_map_of_mem (List.mem_of_find?_eq_some hb)

/-- The places of the targets are those with edges. -/
theorem mem_places_iff (h : ∀ b ∈ index.buckets, b.edges ≠ []) :
    p.components ∈ index.targets.map Path.components ↔ index.edgesOf p ≠ [] := by
  unfold edgesOf
  cases hfind : index.buckets.find? fun b => b.target.same p with
  | none =>
    rw [List.find?_eq_none] at hfind
    refine iff_of_false (fun hp => ?_) (fun hne => hne rfl)
    obtain ⟨target, htarget, heq⟩ := List.mem_map.1 hp
    obtain ⟨b, hb, rfl⟩ := List.mem_map.1 htarget
    exact hfind b hb (Path.same_iff.2 heq)
  | some b =>
    have hb := List.mem_of_find?_eq_some hfind
    have hsame : b.target.same p = true := by simpa using List.find?_some hfind
    refine iff_of_true ?_ (h b hb)
    rw [← Path.same_iff.1 hsame]
    exact List.mem_map_of_mem (List.mem_map_of_mem hb)

theorem pairwise_targets (h : Sorted index.buckets) :
    index.targets.Pairwise fun p q => p.order q = .lt :=
  List.pairwise_map.2 h

theorem pairwise_places (h : Sorted index.buckets) :
    (index.targets.map Path.components).Pairwise fun a b => compare a b = .lt :=
  List.pairwise_map.2 (pairwise_targets h)

/-- Sorted buckets are made of what their targets find. -/
theorem buckets_eq (h : Sorted index.buckets) :
    index.buckets = index.targets.map fun target => ⟨target, index.edgesOf target⟩ := by
  have hbucket : ∀ b ∈ index.buckets, (⟨b.target, index.edgesOf b.target⟩ : Bucket) = b := by
    intro b hb
    have hedges : index.edgesOf b.target = b.edges := edgesIn_of_mem h hb
    rw [hedges]
  rw [targets, List.map_map]
  exact (List.map_id' _).symm.trans (List.map_congr_left fun b hb => (hbucket b hb).symm)

/-- What is spelled alike and finds the same edges everywhere is the same index. -/
theorem eq_iff_edgesOf (h : Sorted index.buckets) (h' : Sorted other.buckets) :
    index = other ↔ ∀ t, index.edgesOf t = other.edgesOf t ∧ index.spelling? t = other.spelling? t := by
  constructor
  · rintro rfl t
    exact ⟨rfl, rfl⟩
  · intro hreads
    have htargets : index.targets = other.targets := by
      apply eq_of_ascending (pairwise_targets h) (pairwise_targets h')
      intro p
      rw [mem_targets_iff h, mem_targets_iff h', (hreads p).2]
    have hedges : index.edgesOf = other.edgesOf := funext fun t => (hreads t).1
    have hbuckets : index.buckets = other.buckets := by
      rw [buckets_eq h, buckets_eq h', htargets, hedges]
    cases index
    cases other
    exact congrArg _ hbuckets

theorem edgesIn_same {bs bs' : List Bucket} (h : List.Forall₂ Bucket.Same bs bs') (t : Path) :
    List.Forall₂ Edge.Same (edgesIn bs t) (edgesIn bs' t) := by
  induction h with
  | nil => exact .nil
  | cons hb _ ih =>
    rw [edgesIn_cons, edgesIn_cons, Path.same_trans_left hb.target]
    split
    · exact hb.edges
    · exact ih

/-- Where all targets find the same edges, spellings apart, the indexes are the same, spellings apart. -/
theorem same_iff_edgesOf (h : Built index) (h' : Built other) :
    index.Same other ↔ ∀ t, List.Forall₂ Edge.Same (index.edgesOf t) (other.edgesOf t) := by
  refine ⟨edgesIn_same, fun hedges => ?_⟩
  have hplaces : index.targets.map Path.components = other.targets.map Path.components := by
    have hnil : ∀ p, index.edgesOf p ≠ [] ↔ other.edgesOf p ≠ [] := by
      intro p
      rw [← List.length_pos_iff, (hedges p).length_eq, List.length_pos_iff]
    apply eq_of_ascending (pairwise_places h.sorted) (pairwise_places h'.sorted)
    intro place
    constructor <;> intro hplace
    · obtain ⟨p, _, rfl⟩ := List.mem_map.1 hplace
      rwa [mem_places_iff h'.edges_ne_nil, ← hnil, ← mem_places_iff h.edges_ne_nil]
    · obtain ⟨p, _, rfl⟩ := List.mem_map.1 hplace
      rwa [mem_places_iff h.edges_ne_nil, hnil, ← mem_places_iff h'.edges_ne_nil]
  have htargets : List.Forall₂ (fun p q => p.components = q.components) index.targets other.targets := by
    rwa [← List.forall₂_eq_eq_eq, List.forall₂_map_left_iff, List.forall₂_map_right_iff] at hplaces
  rw [Same, buckets_eq h.sorted, buckets_eq h'.sorted, List.forall₂_map_left_iff,
    List.forall₂_map_right_iff]
  refine htargets.imp fun p q heq => ⟨Path.same_iff.2 heq, ?_⟩
  rw [← other.edgesOf_congr heq]
  exact hedges p

/-! Filing edges. -/

/-- The first edge of a target settles how it is spelled. -/
theorem spelling?_add (h : Sorted index.buckets) (target : Path) (edge : Edge) (t : Path) :
    (index.add target edge).spelling? t =
      (index.spelling? t).or (if target.same t then some target else none) := by
  rw [spelling?, add, find?_insertEdge target edge h, spelling?]
  cases target.same t with
  | false => exact (Option.or_none).symm
  | true => cases index.buckets.find? fun b => b.target.same t <;> rfl

theorem spelling?_extend (h : Sorted index.buckets) (pairs : List (Path × Edge)) (t : Path) :
    (index.extend pairs).spelling? t = (index.spelling? t).or (firstSpelling? t pairs) := by
  induction pairs generalizing index with
  | nil => exact (Option.or_none).symm
  | cons pair pairs ih =>
    have hrest := ih (sorted_insertEdge pair.1 pair.2 h)
    rw [firstSpelling?, List.map_cons, List.find?_cons]
    refine hrest.trans ?_
    change ((index.add pair.1 pair.2).spelling? t).or _ = _
    rw [spelling?_add h, Option.or_assoc]
    cases pair.1.same t <;> rfl

theorem edgeCount_add (index : DependencyIndex) (target : Path) (edge : Edge) :
    (index.add target edge).edgeCount = index.edgeCount + 1 := by
  obtain ⟨bs⟩ := index
  unfold add edgeCount
  induction bs with
  | nil => rfl
  | cons b bs ih =>
    simp only [insertEdge] at ih ⊢
    split
    · simp only [List.foldr_cons, List.length_singleton]
      omega
    · simp only [List.foldr_cons, List.length_append, List.length_singleton]
      omega
    · simp only [List.foldr_cons, ih]
      omega

theorem edgeCount_extend (index : DependencyIndex) (pairs : List (Path × Edge)) :
    (index.extend pairs).edgeCount = index.edgeCount + pairs.length := by
  induction pairs generalizing index with
  | nil => rfl
  | cons pair pairs ih =>
    have hrest := ih (index.add pair.1 pair.2)
    rw [edgeCount_add] at hrest
    rw [List.length_cons]
    exact hrest.trans (by omega)

/-- The indexes that come from the empty one by filing pairs, one or several at a time. -/
inductive Filed : List (Path × Edge) → DependencyIndex → Prop
  | empty : Filed [] empty
  | add {pairs : List (Path × Edge)} {index : DependencyIndex} (h : Filed pairs index) (target : Path)
      (edge : Edge) : Filed (pairs ++ [(target, edge)]) (index.add target edge)
  | extend {pairs : List (Path × Edge)} {index : DependencyIndex} (h : Filed pairs index)
      (more : List (Path × Edge)) : Filed (pairs ++ more) (index.extend more)

theorem Filed.built (h : Filed pairs index) : Built index := by
  induction h with
  | empty => exact .empty
  | add _ target edge ih => exact ih.add target edge
  | extend _ more ih => exact ih.extend more

/-- How many are filed at a time makes no difference. -/
theorem Filed.eq_extend (h : Filed pairs index) : index = DependencyIndex.empty.extend pairs := by
  induction h with
  | empty => rfl
  | add _ target edge ih =>
    rw [extend_append, ← ih]
    rfl
  | extend _ more ih => rw [extend_append, ← ih]

theorem Filed.edgesOf_eq (h : Filed pairs index) (t : Path) : index.edgesOf t = edgesTo t pairs := by
  rw [h.eq_extend, edgesOf_extend, edgesTo]

theorem Filed.spelling?_eq (h : Filed pairs index) (t : Path) :
    index.spelling? t = firstSpelling? t pairs := by
  have hempty : Sorted DependencyIndex.empty.buckets := .nil
  rw [h.eq_extend, spelling?_extend hempty]
  rfl

theorem Filed.edgeCount_eq (h : Filed pairs index) : index.edgeCount = pairs.length := by
  rw [h.eq_extend, edgeCount_extend]
  exact Nat.zero_add _

theorem edgesTo_ne_nil {pair : Path × Edge} (h : pair ∈ pairs) : edgesTo pair.1 pairs ≠ [] := by
  have hmem : pair ∈ pairs.filter fun other => other.1.same pair.1 :=
    List.mem_filter.2 ⟨h, Path.same_iff.2 rfl⟩
  exact List.ne_nil_of_mem (List.mem_map_of_mem hmem)

/-- There are as many targets as the pairs have distinct ones. -/
theorem Filed.targetCount_eq (h : Filed pairs index) :
    index.targetCount = (pairs.map fun pair => pair.1.components).toFinset.card := by
  have hplaces : (pairs.map fun pair => pair.1.components).toFinset =
      (index.targets.map Path.components).toFinset := by
    ext place
    rw [List.mem_toFinset, List.mem_toFinset]
    constructor <;> intro hplace
    · obtain ⟨pair, hpair, rfl⟩ := List.mem_map.1 hplace
      rw [mem_places_iff h.built.edges_ne_nil, h.edgesOf_eq]
      exact edgesTo_ne_nil hpair
    · obtain ⟨p, hp, rfl⟩ := List.mem_map.1 hplace
      rw [mem_targets_iff h.built.sorted, h.spelling?_eq] at hp
      obtain ⟨pair, hpair, rfl⟩ := List.mem_map.1 (List.mem_of_find?_eq_some hp)
      exact List.mem_map_of_mem hpair
  have hnodup : (index.targets.map Path.components).Nodup := by
    refine (pairwise_places h.built.sorted).imp fun hlt heq => ?_
    rw [Std.LawfulEqOrd.compare_eq_iff_eq.2 heq] at hlt
    cases hlt
  rw [hplaces, List.toFinset_card_of_nodup hnodup, List.length_map, targets, List.length_map]
  rfl

/-- Filing loses, repeats and reorders nothing. A target finds the edges that were filed under it, however
it is spelled, in order. The targets ascend, each as it was first spelled, and none has an empty bucket.
The counts are those of distinct targets and of pairs, and the reports on a target go by its edges. Two
indexes are the same, spellings apart, if and only if each target was given the same edges in the same
order, and equal if and only if it was also first spelled alike. -/
theorem filed_exactly {pairs pairs' : List (Path × Edge)} {index index' : DependencyIndex}
    (h : Filed pairs index) (h' : Filed pairs' index') :
    (∀ t, index.edgesOf t = edgesTo t pairs) ∧
    index.targets.Pairwise (fun p q => p.order q = .lt) ∧
    (∀ p, p ∈ index.targets ↔ firstSpelling? p pairs = some p) ∧
    (∀ b ∈ index.buckets, b.edges ≠ []) ∧
    index.targetCount = (pairs.map fun pair => pair.1.components).toFinset.card ∧
    index.edgeCount = pairs.length ∧
    (∀ t function, index.edgesOn t function =
      (edgesTo t pairs).filter fun e => e.targetFunction = function) ∧
    (∀ t, index.dependentFiles t = Path.firsts ((edgesTo t pairs).map (·.dependent))) ∧
    (index.Same index' ↔ ∀ t, List.Forall₂ Edge.Same (edgesTo t pairs) (edgesTo t pairs')) ∧
    (index = index' ↔ ∀ t, edgesTo t pairs = edgesTo t pairs' ∧
      firstSpelling? t pairs = firstSpelling? t pairs') := by
  have hsorted := h.built.sorted
  refine ⟨h.edgesOf_eq, pairwise_targets hsorted, fun p => ?_, h.built.edges_ne_nil, h.targetCount_eq,
    h.edgeCount_eq, fun t function => ?_, fun t => ?_, ?_, ?_⟩
  · rw [mem_targets_iff hsorted, h.spelling?_eq]
  · rw [edgesOn, h.edgesOf_eq]
    rfl
  · rw [dependentFiles, Path.firstOfEach_eq_firsts, h.edgesOf_eq]
  · simp only [same_iff_edgesOf h.built h'.built, h.edgesOf_eq, h'.edgesOf_eq]
  · simp only [eq_iff_edgesOf hsorted h'.built.sorted, h.edgesOf_eq, h'.edgesOf_eq, h.spelling?_eq,
      h'.spelling?_eq]

/-- A target in two spellings, filed in two orders. -/
theorem filed_exactly_respelled :
    let f : Edge := ⟨⟨"/w/b.ts"⟩, ⟨3, 4⟩, "f", none⟩
    let g : Edge := ⟨⟨"/w/a.ts"⟩, ⟨1, 4⟩, "g", some "h"⟩
    let mixed := (empty.add ⟨"/w//u.ts"⟩ f).extend [(⟨"/w/api.ts"⟩, g), (⟨"/w/./u.ts"⟩, g)]
    let inOrder := (empty.extend [(⟨"/w/api.ts"⟩, g), (⟨"/w/u.ts"⟩, f)]).add ⟨"/w/u.ts"⟩ g
    mixed.edgesOf ⟨"/w/u.ts/"⟩ = [f, g] ∧ ⟨"/w//u.ts"⟩ ∈ mixed.targets ∧ mixed.targetCount = 2 ∧
      mixed.edgeCount = 3 ∧ mixed.Same inOrder ∧ mixed ≠ inOrder := by
  intro f g mixed inOrder
  have hmixed : Filed [(⟨"/w//u.ts"⟩, f), (⟨"/w/api.ts"⟩, g), (⟨"/w/./u.ts"⟩, g)] mixed :=
    (Filed.empty.add _ _).extend _
  have hinOrder : Filed [(⟨"/w/api.ts"⟩, g), (⟨"/w/u.ts"⟩, f), (⟨"/w/u.ts"⟩, g)] inOrder :=
    (Filed.empty.extend [(⟨"/w/api.ts"⟩, g), (⟨"/w/u.ts"⟩, f)]).add ⟨"/w/u.ts"⟩ g
  obtain ⟨hedges, _, htargets, _, htargetCount, hedgeCount, _, _, hsame, heq⟩ :=
    filed_exactly hmixed hinOrder
  refine ⟨(hedges _).trans (by decide), (htargets _).2 (by decide), htargetCount.trans (by decide),
    hedgeCount, hsame.2 fun t => ?_, fun hequal => ?_⟩
  · have hdouble := Path.same_trans_left (by decide : Path.same ⟨"/w//u.ts"⟩ ⟨"/w/u.ts"⟩ = true) t
    have hdot := Path.same_trans_left (by decide : Path.same ⟨"/w/./u.ts"⟩ ⟨"/w/u.ts"⟩ = true) t
    have hapart : Path.same ⟨"/w/u.ts"⟩ ⟨"/w/api.ts"⟩ = false := by decide
    have hself : ∀ e : Edge, e.Same e := fun e => ⟨Path.same_iff.2 rfl, rfl, rfl, rfl⟩
    simp only [edgesTo, List.filter_cons, List.filter_nil, hdouble, hdot]
    cases hu : Path.same ⟨"/w/u.ts"⟩ t with
    | false => cases Path.same ⟨"/w/api.ts"⟩ t <;> simp [hself]
    | true =>
      rw [Path.same_comm, ← Path.same_trans_left hu, hapart]
      simp [hself]
  · have hspelling := (heq.1 hequal ⟨"/w/u.ts"⟩).2
    revert hspelling
    decide

end DependencyIndex

end Dependents
