import Dependents.Path.Distinct
import Dependents.Proofs.IndexBuckets
import Mathlib.Data.List.Induction

/-! Keeping the first of all things at one place. What has been seen only takes items away, so a choice
that depends on the place alone may be made before or after. -/
namespace Dependents.Path

variable {α : Type} {pathOf : α → Path} {seen seen' : List Path} {items : List α} {path : Path}

theorem mem_of_mem_firstOfEach {a : α} (h : a ∈ firstOfEach pathOf seen items) : a ∈ items := by
  induction items generalizing seen with
  | nil => simp [firstOfEach] at h
  | cons b items ih =>
    unfold firstOfEach at h
    split at h
    · exact List.mem_cons_of_mem b (ih h)
    · rcases List.mem_cons.1 h with rfl | h
      · exact List.mem_cons_self
      · exact List.mem_cons_of_mem b (ih h)

theorem not_same_of_mem_firstOfEach {a : α} (h : a ∈ firstOfEach pathOf seen items)
    (hseen : path ∈ seen) : (pathOf a).same path = false := by
  induction items generalizing seen with
  | nil => simp [firstOfEach] at h
  | cons b items ih =>
    unfold firstOfEach at h
    split at h
    · exact ih h hseen
    · rename_i hnew
      rcases List.mem_cons.1 h with rfl | h
      · simp only [List.any_eq_true, not_exists, not_and, Bool.not_eq_true] at hnew
        exact hnew path hseen
      · exact ih h (List.mem_cons_of_mem _ hseen)

theorem pairwise_firstOfEach (pathOf : α → Path) (seen : List Path) (items : List α) :
    (firstOfEach pathOf seen items).Pairwise fun a b => (pathOf b).same (pathOf a) = false := by
  induction items generalizing seen with
  | nil => exact .nil
  | cons a items ih =>
    unfold firstOfEach
    split
    · exact ih seen
    · exact .cons (fun b hb => not_same_of_mem_firstOfEach hb List.mem_cons_self) (ih _)

/-- Only whether an item has been seen counts. -/
theorem firstOfEach_congr (h : ∀ a ∈ items, seen.any (pathOf a).same = seen'.any (pathOf a).same) :
    firstOfEach pathOf seen items = firstOfEach pathOf seen' items := by
  induction items generalizing seen seen' with
  | nil => rfl
  | cons a items ih =>
    have hrest : ∀ b ∈ items, seen.any (pathOf b).same = seen'.any (pathOf b).same :=
      fun b hb => h b (List.mem_cons_of_mem a hb)
    rw [firstOfEach, firstOfEach, h a List.mem_cons_self, ih hrest]
    split
    · rfl
    · refine congrArg (a :: ·) (ih fun b hb => ?_)
      rw [List.any_cons, List.any_cons, hrest b hb]

/-- To have seen a place comes to leaving out what lies there. -/
theorem firstOfEach_cons_seen (pathOf : α → Path) (path : Path) (seen : List Path) (items : List α) :
    firstOfEach pathOf (path :: seen) items =
      firstOfEach pathOf seen (items.filter fun a => !(pathOf a).same path) := by
  induction items generalizing seen with
  | nil => rfl
  | cons a items ih =>
    cases hsame : (pathOf a).same path with
    | true =>
      rw [firstOfEach, if_pos (by simp [hsame]), ih, List.filter_cons_of_neg (by simp [hsame])]
    | false =>
      -- The new place and the old one may be seen in either order.
      have hswap : firstOfEach pathOf (pathOf a :: path :: seen) items =
          firstOfEach pathOf (path :: pathOf a :: seen) items := by
        apply firstOfEach_congr
        intro b _
        simp only [List.any_cons]
        exact Bool.or_left_comm _ _ _
      rw [firstOfEach, List.filter_cons_of_pos (by simp [hsame]), firstOfEach, hswap, ih, ih]
      simp only [List.any_cons, hsame, Bool.false_or]

/-- A choice by place may be made before the first items are kept. -/
theorem firstOfEach_filter (keep : α → Bool) (seen : List Path)
    (h : ∀ a ∈ items, ∀ b ∈ items, (pathOf b).same (pathOf a) = true → keep b = keep a) :
    firstOfEach pathOf seen (items.filter keep) = (firstOfEach pathOf seen items).filter keep := by
  induction items generalizing seen with
  | nil => rfl
  | cons a items ih =>
    have hrest := fun seen => ih seen fun b hb c hc =>
      h b (List.mem_cons_of_mem a hb) c (List.mem_cons_of_mem a hc)
    rw [firstOfEach]
    cases hkeep : keep a with
    | true =>
      rw [List.filter_cons_of_pos hkeep, firstOfEach]
      split
      · exact hrest seen
      · rw [List.filter_cons_of_pos hkeep, hrest]
    | false =>
      rw [List.filter_cons_of_neg (by simp [hkeep])]
      split
      · exact hrest seen
      · -- Nothing that is kept lies where the item lies that is not.
        have hapart : (items.filter keep).filter (fun b => !(pathOf b).same (pathOf a)) =
            items.filter keep := by
          apply List.filter_eq_self.2
          intro b hb
          obtain ⟨hb, hkept⟩ := List.mem_filter.1 hb
          rw [Bool.not_eq_true', ← Bool.not_eq_true]
          intro hsame
          rw [h a List.mem_cons_self b (List.mem_cons_of_mem a hb) hsame, hkeep] at hkept
          cases hkept
        rw [List.filter_cons_of_neg (by simp [hkeep]), ← hrest, firstOfEach_cons_seen, hapart]

/-- Where different items lie at different places, the first of each place are the first of each item. -/
theorem firstOfEach_eq_eraseDups [BEq α] [LawfulBEq α]
    (h : ∀ a ∈ items, ∀ b ∈ items, (pathOf b).same (pathOf a) = true → b = a) :
    firstOfEach pathOf [] items = items.eraseDups := by
  induction hlength : items.length using Nat.strongRecOn generalizing items with
  | ind n ih =>
    cases items with
    | nil => rfl
    | cons a items =>
      have hothers : items.filter (fun b => !(pathOf b).same (pathOf a)) =
          items.filter fun b => !b == a := by
        apply List.filter_congr
        intro b hb
        congr 1
        rw [Bool.eq_iff_iff, beq_iff_eq]
        refine ⟨h a List.mem_cons_self b (List.mem_cons_of_mem a hb), ?_⟩
        rintro rfl
        exact same_iff.2 rfl
      have hless : (items.filter fun b => !b == a).length < n := by
        rw [← hlength]
        exact Nat.lt_succ_of_le (List.length_filter_le _ _)
      have hsub : ∀ b ∈ items.filter (fun b => !b == a), b ∈ a :: items :=
        fun b hb => List.mem_cons_of_mem a (List.mem_of_mem_filter hb)
      rw [firstOfEach, if_neg (by simp), firstOfEach_cons_seen, hothers, List.eraseDups_cons,
        ih _ hless (fun b hb c hc => h b (hsub b hb) c (hsub c hc)) rfl]

/-- The paths that are the same as none before them. -/
def firsts (paths : List Path) : List Path :=
  (paths.zipIdx.filter fun item => !(paths.take item.2).any (·.same item.1)).map (·.1)

theorem firsts_concat (paths : List Path) (path : Path) :
    firsts (paths ++ [path]) = firsts paths ++ if paths.any (·.same path) then [] else [path] := by
  have hbefore : paths.zipIdx.filter (fun item =>
      !((paths ++ [path]).take item.2).any (·.same item.1)) =
        paths.zipIdx.filter fun item => !(paths.take item.2).any (·.same item.1) := by
    apply List.filter_congr
    intro item hitem
    have hlt := List.snd_lt_of_mem_zipIdx hitem
    rw [List.take_append_of_le_length (by omega)]
  rw [firsts, List.zipIdx_append, List.filter_append, List.map_append, hbefore, ← firsts]
  congr 1
  cases hany : paths.any (·.same path) <;> simp [hany]

/-- Every path lies where one of the first ones does. -/
theorem any_same_firsts (paths : List Path) (path : Path) :
    (firsts paths).any (·.same path) = paths.any (·.same path) := by
  induction paths using List.reverseRecOn with
  | nil => rfl
  | append_singleton paths last ih =>
    rw [firsts_concat, List.any_append, List.any_append, ih]
    split
    · rename_i hseen
      rw [List.any_nil, Bool.or_false, List.any_cons, List.any_nil, Bool.or_false, eq_comm,
        Bool.or_eq_left_iff_imp]
      intro hsame
      rw [List.any_eq_true] at hseen ⊢
      obtain ⟨other, hother, hlast⟩ := hseen
      exact ⟨other, hother, by rw [same_trans_left hlast, hsame]⟩
    · rfl

theorem pairwise_firsts (paths : List Path) : (firsts paths).Pairwise fun p q => p.same q = false := by
  induction paths using List.reverseRecOn with
  | nil => exact .nil
  | append_singleton paths last ih =>
    rw [firsts_concat]
    split
    · rwa [List.append_nil]
    · rename_i hnew
      refine List.pairwise_append.2 ⟨ih, List.pairwise_singleton _ _, ?_⟩
      intro path hpath other hother
      rw [List.mem_singleton.1 hother, ← Bool.not_eq_true]
      intro hsame
      rw [← any_same_firsts] at hnew
      exact hnew (List.any_eq_true.2 ⟨path, hpath, hsame⟩)

/-- The last item is kept unless it lies at a place that was seen or that one before it lies at. -/
theorem firstOfEach_concat (pathOf : α → Path) (seen : List Path) (items : List α) (a : α) :
    firstOfEach pathOf seen (items ++ [a]) = firstOfEach pathOf seen items ++
      if seen.any (pathOf a).same || (items.map pathOf).any (pathOf a).same then [] else [a] := by
  induction items generalizing seen with
  | nil =>
    rw [List.nil_append, firstOfEach, List.map_nil, List.any_nil, Bool.or_false]
    rfl
  | cons b items ih =>
    rw [List.cons_append, firstOfEach, firstOfEach, List.map_cons, List.any_cons, Bool.or_left_comm,
      ← Bool.or_assoc]
    split
    · rename_i hseen
      -- Where the first item lies something was seen, so it makes no difference to the last one.
      have hfirst : (pathOf a).same (pathOf b) = true → seen.any (pathOf a).same = true := by
        intro hsame
        rw [List.any_eq_true] at hseen ⊢
        obtain ⟨path, hpath, hb⟩ := hseen
        exact ⟨path, hpath, by rw [same_trans_left hsame, hb]⟩
      have hor : ((pathOf a).same (pathOf b) || seen.any (pathOf a).same) =
          seen.any (pathOf a).same := by
        rw [Bool.or_eq_right_iff_imp]
        exact hfirst
      rw [ih, hor]
    · rw [ih, List.any_cons, List.cons_append]

theorem firstOfEach_eq_firsts (paths : List Path) : firstOfEach id [] paths = firsts paths := by
  induction paths using List.reverseRecOn with
  | nil => rfl
  | append_singleton paths path ih =>
    have hflip : path.same = fun other => other.same path := funext fun other => same_comm path other
    rw [firstOfEach_concat, firsts_concat, ih, List.map_id, List.any_nil, Bool.false_or, id, hflip]

/-- The places of the first paths are the first places. -/
theorem map_components_firsts (paths : List Path) :
    (firsts paths).map components = (paths.map components).eraseDups := by
  induction paths using List.reverseRecOn with
  | nil => rfl
  | append_singleton paths path ih =>
    have hseen : (paths.map components).contains path.components = paths.any (·.same path) := by
      rw [Bool.eq_iff_iff, List.contains_iff_mem, List.mem_map, List.any_eq_true]
      simp only [same_iff]
    rw [firsts_concat, List.map_append, List.map_append, ih, List.eraseDups_append]
    congr 1
    rw [List.map_singleton, List.removeAll, List.filter_singleton, List.elem_eq_contains, hseen]
    cases paths.any (·.same path) <;> rfl

end Dependents.Path
