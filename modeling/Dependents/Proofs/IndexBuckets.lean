import Dependents.DependencyIndex
import Mathlib.Data.List.Basic

/-! Paths are totally ordered by their steps, so sorted buckets hold each target once and filing an
edge touches one bucket. -/
namespace Dependents

theorem Component.compare_name (a b : String) :
    compare (Component.name a) (Component.name b) = compare a b := by
  change (compare a b).then .eq = _
  cases compare a b <;> rfl

instance : Std.LawfulEqOrd Component where
  eq_of_compare {a b} h := by
    cases a <;> cases b <;> try solve | rfl | cases h
    rw [Component.compare_name] at h
    exact congrArg _ (Std.LawfulEqOrd.eq_of_compare h)
  compare_self {a} := by
    cases a <;> try rfl
    rw [Component.compare_name]
    exact Std.ReflCmp.compare_self

instance : Std.TransOrd Component where
  eq_swap {a b} := by
    cases a <;> cases b <;> try rfl
    simp only [Component.compare_name]
    exact Std.OrientedCmp.eq_swap
  isLE_trans {a b c} hab hbc := by
    cases a <;> cases b <;> cases c <;> try solve | rfl | cases hab | cases hbc
    rw [Component.compare_name] at hab hbc ⊢
    exact Std.TransCmp.isLE_trans hab hbc

namespace Path

theorem same_iff {p q : Path} : p.same q = true ↔ p.components = q.components := by
  simp [same]

theorem order_eq_iff {p q : Path} : p.order q = .eq ↔ p.same q = true := by
  rw [same_iff]
  exact Std.LawfulEqOrd.compare_eq_iff_eq

theorem not_same_of_lt {p q : Path} (h : p.order q = .lt) : p.same q = false := by
  rw [← Bool.not_eq_true, ← order_eq_iff, h]
  simp

theorem order_trans {p q r : Path} (hpq : p.order q = .lt) (hqr : q.order r = .lt) :
    p.order r = .lt := by
  unfold order at *
  exact Std.TransCmp.lt_trans hpq hqr

theorem order_gt_iff {p q : Path} : p.order q = .gt ↔ q.order p = .lt := by
  unfold order
  exact Std.OrientedCmp.gt_iff_lt

theorem same_comm (p q : Path) : p.same q = q.same p := by
  rw [Bool.eq_iff_iff, same_iff, same_iff]
  exact eq_comm

theorem same_trans_left {p q : Path} (h : p.same q = true) (r : Path) : p.same r = q.same r := by
  rw [Bool.eq_iff_iff, same_iff, same_iff, same_iff.1 h]

end Path

namespace DependencyIndex

variable {target t : Path} {edge : Edge} {bs : List Bucket}

/-- Each bucket's target comes before those of all later buckets. -/
def Sorted (bs : List Bucket) : Prop :=
  bs.Pairwise fun a b => a.target.order b.target = .lt

/-- The edges filed under a target in some buckets. -/
def edgesIn (bs : List Bucket) (t : Path) : List Edge :=
  match bs.find? fun b => b.target.same t with
  | some b => b.edges
  | none => []

theorem edgesIn_cons (b : Bucket) (bs : List Bucket) (t : Path) :
    edgesIn (b :: bs) t = if b.target.same t then b.edges else edgesIn bs t := by
  simp only [edgesIn, List.find?_cons]
  cases b.target.same t <;> rfl

theorem find?_of_lt (h : ∀ b ∈ bs, target.order b.target = .lt) (ht : target.same t = true) :
    bs.find? (fun b => b.target.same t) = none := by
  rw [List.find?_eq_none]
  intro b hb
  rw [Path.same_comm, ← Path.same_trans_left ht, Path.not_same_of_lt (h b hb)]
  exact Bool.false_ne_true

/-- A bucket of sorted buckets is the one that its target finds. -/
theorem find?_of_mem {b : Bucket} (h : Sorted bs) (hb : b ∈ bs) :
    bs.find? (fun c => c.target.same b.target) = some b := by
  induction bs with
  | nil => cases hb
  | cons c bs ih =>
    obtain ⟨hc, hbs⟩ := List.pairwise_cons.1 h
    rw [List.find?_cons]
    rcases List.mem_cons.1 hb with rfl | hb
    · rw [Path.same_iff.2 rfl]
    · rw [Path.not_same_of_lt (hc b hb)]
      exact ih hbs hb

theorem edgesIn_of_mem {b : Bucket} (h : Sorted bs) (hb : b ∈ bs) : edgesIn bs b.target = b.edges := by
  rw [edgesIn, find?_of_mem h hb]

theorem target_insertEdge {b : Bucket} (h : b ∈ insertEdge target edge bs) :
    b.target = target ∨ ∃ b' ∈ bs, b.target = b'.target := by
  induction bs with
  | nil => simp_all [insertEdge]
  | cons c bs ih =>
    simp only [insertEdge] at h
    split at h
    · rcases List.mem_cons.1 h with rfl | h
      · exact Or.inl rfl
      · exact Or.inr ⟨b, h, rfl⟩
    · rcases List.mem_cons.1 h with rfl | h
      · exact Or.inr ⟨c, List.mem_cons_self, rfl⟩
      · exact Or.inr ⟨b, List.mem_cons_of_mem _ h, rfl⟩
    · rcases List.mem_cons.1 h with rfl | h
      · exact Or.inr ⟨b, List.mem_cons_self, rfl⟩
      · rcases ih h with h | ⟨b', hb', h⟩
        · exact Or.inl h
        · exact Or.inr ⟨b', List.mem_cons_of_mem _ hb', h⟩

theorem sorted_insertEdge (target : Path) (edge : Edge) (h : Sorted bs) :
    Sorted (insertEdge target edge bs) := by
  induction bs with
  | nil => simp [insertEdge, Sorted]
  | cons b bs ih =>
    obtain ⟨hb, hbs⟩ := List.pairwise_cons.1 h
    simp only [insertEdge]
    split
    · rename_i hlt
      refine List.pairwise_cons.2 ⟨?_, h⟩
      intro b' hb'
      rcases List.mem_cons.1 hb' with rfl | hb'
      · exact hlt
      · exact Path.order_trans hlt (hb b' hb')
    · exact List.pairwise_cons.2 ⟨hb, hbs⟩
    · rename_i hgt
      refine List.pairwise_cons.2 ⟨?_, ih hbs⟩
      intro b' hb'
      rcases target_insertEdge hb' with he | ⟨c, hc, he⟩
      · rw [he]
        exact Path.order_gt_iff.1 hgt
      · rw [he]
        exact hb c hc

/-- The bucket of a target with one more edge in it, or a new one if there was none. -/
def filedIn (target : Path) (edge : Edge) : Option Bucket → Bucket
  | some b => ⟨b.target, b.edges ++ [edge]⟩
  | none => ⟨target, [edge]⟩

/-- Filing an edge touches the bucket of its target, which stays spelled as it was, and no other. -/
theorem find?_insertEdge (target : Path) (edge : Edge) (h : Sorted bs) (t : Path) :
    (insertEdge target edge bs).find? (fun b => b.target.same t) =
      if target.same t then some (filedIn target edge (bs.find? fun b => b.target.same t))
      else bs.find? fun b => b.target.same t := by
  induction bs with
  | nil =>
    rw [insertEdge, List.find?_cons]
    cases target.same t <;> rfl
  | cons b bs ih =>
    obtain ⟨hb, hbs⟩ := List.pairwise_cons.1 h
    cases horder : target.order b.target with
    | lt =>
      have hlt : ∀ c ∈ b :: bs, target.order c.target = .lt :=
        List.forall_mem_cons.2 ⟨horder, fun c hc => Path.order_trans horder (hb c hc)⟩
      simp only [insertEdge, horder]
      rw [List.find?_cons]
      cases ht : target.same t with
      | false => rfl
      | true =>
        rw [find?_of_lt hlt ht]
        rfl
    | eq =>
      have hsame := Path.same_trans_left (Path.order_eq_iff.1 horder) t
      simp only [insertEdge, horder]
      rw [List.find?_cons, List.find?_cons, hsame]
      cases b.target.same t <;> rfl
    | gt =>
      simp only [insertEdge, horder]
      rw [List.find?_cons, List.find?_cons, ih hbs]
      cases hbt : b.target.same t with
      | false => rfl
      | true =>
        have hne : target.same t = false := by
          rw [Path.same_comm, ← Path.same_trans_left hbt]
          exact Path.not_same_of_lt (Path.order_gt_iff.1 horder)
        simp only [hne, Bool.false_eq_true, if_false]

/-- Filing an edge appends it to the bucket of its target and leaves every other bucket alone. -/
theorem edgesIn_insertEdge (target : Path) (edge : Edge) (h : Sorted bs) (t : Path) :
    edgesIn (insertEdge target edge bs) t =
      edgesIn bs t ++ if target.same t then [edge] else [] := by
  rw [edgesIn, edgesIn, find?_insertEdge target edge h]
  cases target.same t with
  | false => exact (List.append_nil _).symm
  | true => cases bs.find? fun b => b.target.same t <;> rfl

/-- Filing an edge leaves no bucket empty. -/
theorem edges_ne_nil_insertEdge {b : Bucket} (h : ∀ b ∈ bs, b.edges ≠ [])
    (hb : b ∈ insertEdge target edge bs) : b.edges ≠ [] := by
  induction bs with
  | nil => simp_all [insertEdge]
  | cons c bs ih =>
    obtain ⟨hc, hbs⟩ := List.forall_mem_cons.1 h
    simp only [insertEdge] at hb
    split at hb
    · rcases List.mem_cons.1 hb with rfl | hb
      · simp
      · exact h b hb
    · rcases List.mem_cons.1 hb with rfl | hb
      · simp
      · exact hbs b hb
    · rcases List.mem_cons.1 hb with rfl | hb
      · exact hc
      · exact ih hbs hb

theorem extend_append (index : DependencyIndex) (pairs more : List (Path × Edge)) :
    index.extend (pairs ++ more) = (index.extend pairs).extend more :=
  List.foldl_append

theorem sorted_extend (index : DependencyIndex) (pairs : List (Path × Edge))
    (h : Sorted index.buckets) : Sorted (index.extend pairs).buckets := by
  induction pairs generalizing index with
  | nil => exact h
  | cons pair pairs ih => exact ih (index.add pair.1 pair.2) (sorted_insertEdge _ _ h)

theorem edgesOf_extend_of_sorted (index : DependencyIndex) (pairs : List (Path × Edge))
    (h : Sorted index.buckets) (t : Path) :
    (index.extend pairs).edgesOf t =
      index.edgesOf t ++ (pairs.filter fun pair => pair.1.same t).map (·.2) := by
  induction pairs generalizing index with
  | nil => simp [extend]
  | cons pair pairs ih =>
    have hstep : (index.add pair.1 pair.2).edgesOf t =
        index.edgesOf t ++ if pair.1.same t then [pair.2] else [] :=
      edgesIn_insertEdge pair.1 pair.2 h t
    have hrest := ih (index.add pair.1 pair.2) (sorted_insertEdge _ _ h)
    change ((index.add pair.1 pair.2).extend pairs).edgesOf t = _
    rw [hrest, hstep, List.filter_cons]
    cases pair.1.same t <;> simp

/-- Filing pairs in an empty index puts under each target its own edges, in the order given. -/
theorem edgesOf_extend (pairs : List (Path × Edge)) (t : Path) :
    (empty.extend pairs).edgesOf t = (pairs.filter fun pair => pair.1.same t).map (·.2) := by
  rw [edgesOf_extend_of_sorted empty pairs List.Pairwise.nil t]
  rfl

/-- The indexes that come from the empty one by filing edges, one or several at a time. -/
inductive Built : DependencyIndex → Prop
  | empty : Built empty
  | add {index : DependencyIndex} (h : Built index) (target : Path) (edge : Edge) :
    Built (index.add target edge)
  | extend {index : DependencyIndex} (h : Built index) (pairs : List (Path × Edge)) :
    Built (index.extend pairs)

/-- What filing one edge preserves holds of everything that is built. -/
theorem Built.preserves {P : DependencyIndex → Prop} {index : DependencyIndex} (h : Built index)
    (hempty : P .empty) (hadd : ∀ index target edge, P index → P (index.add target edge)) : P index := by
  induction h with
  | empty => exact hempty
  | add _ target edge ih => exact hadd _ target edge ih
  | @extend index hbuilt pairs ih =>
    induction pairs generalizing index with
    | nil => exact ih
    | cons pair pairs ihpairs => exact ihpairs (hbuilt.add pair.1 pair.2) (hadd index pair.1 pair.2 ih)

theorem Built.sorted {index : DependencyIndex} (h : Built index) : Sorted index.buckets :=
  h.preserves List.Pairwise.nil fun _ target edge ih => sorted_insertEdge target edge ih

theorem Built.edges_ne_nil {index : DependencyIndex} (h : Built index) :
    ∀ b ∈ index.buckets, b.edges ≠ [] :=
  h.preserves (fun _ hb => by cases hb) fun _ _ _ ih _ hb => edges_ne_nil_insertEdge ih hb

end DependencyIndex

end Dependents
