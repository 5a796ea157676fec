import Dependents.Text.Position
import Mathlib.Data.List.DropRight
import Mathlib.Data.List.Induction
import Mathlib.Order.Basic

/-! Positions counted straight from the characters before an offset: the newlines among them, and the
units after the last newline. Counted that way, positions grow with offsets and lead back to them. -/
namespace Dependents

/-- Positions go by line, then by character. -/
instance : PartialOrder Position where
  le p q := p.line < q.line ∨ p.line = q.line ∧ p.character ≤ q.character
  lt p q := p.line < q.line ∨ p.line = q.line ∧ p.character < q.character
  le_refl p := Or.inr ⟨rfl, Nat.le_refl _⟩
  le_trans p q r hpq hqr := by omega
  lt_iff_le_not_ge p q := by omega
  le_antisymm p q hpq hqr := by
    cases p
    cases q
    simp only [Position.mk.injEq] at hpq hqr ⊢
    omega

instance : DecidableLE Position := fun p q =>
  inferInstanceAs (Decidable (p.line < q.line ∨ p.line = q.line ∧ p.character ≤ q.character))

namespace Text

variable {cs as bs before after : List Char} {c : Char} {offset a b : Nat}

theorem units_pos (c : Char) : 0 < units c := by
  unfold units
  split <;> omega

@[simp] theorem byteLength_append (as bs : List Char) :
    byteLength (as ++ bs) = byteLength as + byteLength bs := by
  induction as with
  | nil => simp [byteLength]
  | cons c as ih =>
    simp only [List.cons_append, byteLength, ih]
    omega

@[simp] theorem unitLength_append (as bs : List Char) :
    unitLength (as ++ bs) = unitLength as + unitLength bs := by
  induction as with
  | nil => simp [unitLength]
  | cons c as ih =>
    simp only [List.cons_append, unitLength, ih]
    omega

/-! Cutting a text at the byte lengths of its parts. -/

theorem dropBytes?_cons (c : Char) (n : Nat) (cs : List Char) :
    dropBytes? (c.utf8Size + n) (c :: cs) = dropBytes? n cs := by
  obtain ⟨m, hm⟩ := Nat.exists_eq_succ_of_ne_zero (Nat.ne_of_gt c.utf8Size_pos)
  have hsize : c.utf8Size + n = m + n + 1 := by omega
  have hrest : m + n + 1 - c.utf8Size = n := by omega
  rw [hsize, dropBytes?, if_pos (by omega), hrest]

theorem takeBytes?_cons (c : Char) (n : Nat) (cs : List Char) :
    takeBytes? (c.utf8Size + n) (c :: cs) = (takeBytes? n cs).map (c :: ·) := by
  obtain ⟨m, hm⟩ := Nat.exists_eq_succ_of_ne_zero (Nat.ne_of_gt c.utf8Size_pos)
  have hsize : c.utf8Size + n = m + n + 1 := by omega
  have hrest : m + n + 1 - c.utf8Size = n := by omega
  rw [hsize, takeBytes?, if_pos (by omega), hrest]

theorem dropBytes?_append (as bs : List Char) : dropBytes? (byteLength as) (as ++ bs) = some bs := by
  induction as with
  | nil => simp [byteLength, dropBytes?]
  | cons c as ih => rw [byteLength, List.cons_append, dropBytes?_cons, ih]

theorem takeBytes?_append (as bs : List Char) : takeBytes? (byteLength as) (as ++ bs) = some as := by
  induction as with
  | nil => simp [byteLength, takeBytes?]
  | cons c as ih => rw [byteLength, List.cons_append, takeBytes?_cons, ih, Option.map_some]

theorem sliceBytes?_append (as bs cs : List Char) :
    sliceBytes? (byteLength as) (byteLength (as ++ bs)) (as ++ (bs ++ cs)) = some bs := by
  simp [sliceBytes?, dropBytes?_append, takeBytes?_append]

/-- An offset between two characters, or at an end of the text. -/
def IsBoundary (cs : List Char) (offset : Nat) : Prop :=
  (dropBytes? offset cs).isSome

instance (cs : List Char) (offset : Nat) : Decidable (IsBoundary cs offset) :=
  inferInstanceAs (Decidable ((dropBytes? offset cs).isSome = true))

/-- At a boundary a text falls into what is before and what is after. -/
theorem IsBoundary.split (h : IsBoundary cs offset) :
    ∃ before after, cs = before ++ after ∧ byteLength before = offset := by
  unfold IsBoundary at h
  fun_induction dropBytes? offset cs with
  | case1 cs => exact ⟨[], cs, rfl, rfl⟩
  | case2 => cases h
  | case3 n c cs hle ih =>
    obtain ⟨before, after, rfl, hlen⟩ := ih h
    refine ⟨c :: before, after, rfl, ?_⟩
    rw [byteLength, hlen]
    omega
  | case4 => cases h

/-! The characters before an offset. -/

theorem charsBefore_isPrefix (offset : Nat) (cs : List Char) : charsBefore offset cs <+: cs := by
  fun_induction charsBefore offset cs with
  | case1 => exact List.prefix_rfl
  | case2 offset c cs hle ih => exact (List.prefix_cons_inj c).2 ih
  | case3 => exact List.nil_prefix

theorem charsBefore_mono (h : a ≤ b) (cs : List Char) : charsBefore a cs <+: charsBefore b cs := by
  induction cs generalizing a b with
  | nil => exact List.prefix_rfl
  | cons c cs ih =>
    simp only [charsBefore]
    by_cases ha : c.utf8Size ≤ a
    · rw [if_pos ha, if_pos (by omega)]
      exact (List.prefix_cons_inj c).2 (ih (by omega))
    · rw [if_neg ha]
      exact List.nil_prefix

theorem charsBefore_append (before after : List Char) :
    charsBefore (byteLength before) (before ++ after) = before := by
  induction before with
  | nil =>
    cases after with
    | nil => rfl
    | cons c after =>
      have hc := c.utf8Size_pos
      simp [charsBefore, byteLength]
      omega
  | cons c before ih => simp [byteLength, charsBefore, ih]

/-! Lines. -/

/-- The characters after the last newline. -/
def lastLine (cs : List Char) : List Char :=
  cs.rtakeWhile (· ≠ '\n')

/-- The characters up to and with the last newline. -/
def earlierLines (cs : List Char) : List Char :=
  cs.rdropWhile (· ≠ '\n')

theorem earlierLines_append_lastLine (cs : List Char) : earlierLines cs ++ lastLine cs = cs :=
  List.rdropWhile_append_rtakeWhile

@[simp] theorem lastLine_concat (cs : List Char) (c : Char) :
    lastLine (cs ++ [c]) = if c = '\n' then [] else lastLine cs ++ [c] := by
  by_cases h : c = '\n' <;> simp [lastLine, h]

@[simp] theorem earlierLines_concat (cs : List Char) (c : Char) :
    earlierLines (cs ++ [c]) = if c = '\n' then cs ++ [c] else earlierLines cs := by
  by_cases h : c = '\n' <;> simp [earlierLines, h]

/-- Where a text that starts a file ends: the newlines in it, and the units after the last one. -/
def endPosition (before : List Char) : Position :=
  ⟨before.count '\n', unitLength (lastLine before)⟩

theorem endPosition_lt_concat (before : List Char) (c : Char) :
    endPosition before < endPosition (before ++ [c]) := by
  by_cases hc : c = '\n'
  · refine Or.inl ?_
    simp [endPosition, hc]
  · have hunits := units_pos c
    refine Or.inr ⟨?_, ?_⟩
    · simp [endPosition, hc]
    · simp [endPosition, hc, unitLength, hunits]

theorem endPosition_le_append (before more : List Char) :
    endPosition before ≤ endPosition (before ++ more) := by
  induction more using List.reverseRecOn with
  | nil => simp
  | append_singleton more c ih =>
    rw [← List.append_assoc]
    exact le_trans ih (le_of_lt (endPosition_lt_concat _ c))

theorem laterLineStarts_append (offset : Nat) (as bs : List Char) :
    laterLineStarts offset (as ++ bs) =
      laterLineStarts offset as ++ laterLineStarts (offset + byteLength as) bs := by
  induction as generalizing offset with
  | nil => simp [laterLineStarts, byteLength]
  | cons c as ih =>
    simp only [List.cons_append, laterLineStarts, byteLength]
    split
    · rename_i hc
      have hsize : c.utf8Size = 1 := by subst hc; decide
      rw [ih, List.cons_append, hsize, Nat.add_assoc]
    · rw [ih, Nat.add_assoc]

theorem mem_laterLineStarts {start : Nat} (h : start ∈ laterLineStarts offset cs) :
    offset < start ∧ start ≤ offset + byteLength cs := by
  induction cs generalizing offset with
  | nil => simp [laterLineStarts] at h
  | cons c cs ih =>
    have hpos := c.utf8Size_pos
    simp only [laterLineStarts] at h
    simp only [byteLength]
    split at h
    · rcases List.mem_cons.1 h with rfl | h
      · omega
      · have := ih h
        omega
    · have := ih h
      omega

theorem length_laterLineStarts (offset : Nat) (cs : List Char) :
    (laterLineStarts offset cs).length = cs.count '\n' := by
  induction cs generalizing offset with
  | nil => rfl
  | cons c cs ih =>
    simp only [laterLineStarts]
    split <;> simp_all

theorem lineStarts_append (before after : List Char) :
    lineStarts (before ++ after) = lineStarts before ++ laterLineStarts (byteLength before) after := by
  simp [lineStarts, laterLineStarts_append]

theorem length_lineStarts (cs : List Char) : (lineStarts cs).length = cs.count '\n' + 1 := by
  simp [lineStarts, length_laterLineStarts]

/-- The last line of a text starts after all earlier ones. -/
theorem getLast?_lineStarts (cs : List Char) :
    (lineStarts cs).getLast? = some (byteLength (earlierLines cs)) := by
  induction cs using List.reverseRecOn with
  | nil => rfl
  | append_singleton cs c ih =>
    rw [lineStarts_append, List.getLast?_append, ih, earlierLines_concat]
    by_cases hc : c = '\n'
    · subst hc
      have hsize : Char.utf8Size '\n' = 1 := by decide
      simp [laterLineStarts, byteLength, hsize]
    · simp [laterLineStarts, hc]

/-- The line on which a text ends starts there, whatever follows. -/
theorem getElem?_lineStarts (before after : List Char) :
    (lineStarts (before ++ after))[before.count '\n']? = some (byteLength (earlierLines before)) := by
  have hlast := getLast?_lineStarts before
  rw [List.getLast?_eq_getElem?, length_lineStarts, Nat.add_sub_cancel] at hlast
  rw [lineStarts_append, List.getElem?_append_left (by rw [length_lineStarts]; omega), hlast]

/-- The lines that start at or before a boundary are those of the text before it. -/
theorem takeWhile_lineStarts (before after : List Char) :
    (lineStarts (before ++ after)).takeWhile (· ≤ byteLength before) = lineStarts before := by
  rw [lineStarts_append, List.takeWhile_append_of_pos]
  · have hnone : (laterLineStarts (byteLength before) after).takeWhile (· ≤ byteLength before) = [] := by
      rw [List.takeWhile_eq_nil_iff]
      intro hlen
      have := (mem_laterLineStarts (List.getElem_mem hlen)).1
      simp
      omega
    rw [hnone, List.append_nil]
  · intro start hstart
    rcases List.mem_cons.1 hstart with rfl | hstart
    · simp
    · have := (mem_laterLineStarts hstart).2
      simp
      omega

theorem sliceBytes?_lastLine (before after : List Char) :
    sliceBytes? (byteLength (earlierLines before)) (byteLength before) (before ++ after) =
      some (lastLine before) := by
  have hwhole := earlierLines_append_lastLine before
  have hcut := sliceBytes?_append (earlierLines before) (lastLine before) after
  rwa [← List.append_assoc, hwhole] at hcut

/-- A position counts the lines and the units of what stands before its offset. -/
theorem positionOf_eq_endPosition (cs : List Char) (offset : Nat) :
    positionOf cs offset = endPosition (charsBefore offset cs) := by
  obtain ⟨after, hsplit⟩ := charsBefore_isPrefix offset cs
  unfold positionOf
  generalize charsBefore offset cs = before at hsplit
  subst hsplit
  have hline : (lineStarts before).getLastD 0 = byteLength (earlierLines before) := by
    rw [List.getLastD_eq_getLast?, getLast?_lineStarts]
    rfl
  simp only [takeWhile_lineStarts, hline, sliceBytes?_lastLine, length_lineStarts, Option.getD_some]
  rfl

/-- Positions grow with offsets. -/
theorem positionOf_mono (cs : List Char) (h : a ≤ b) : positionOf cs a ≤ positionOf cs b := by
  rw [positionOf_eq_endPosition, positionOf_eq_endPosition]
  obtain ⟨more, hmore⟩ := charsBefore_mono h cs
  rw [← hmore]
  exact endPosition_le_append _ more

/-- What is left of a line, with the newline that ends it. -/
def lineTail : List Char → List Char
  | [] => []
  | c :: cs => if c = '\n' then [c] else c :: lineTail cs

theorem lineTail_isPrefix (cs : List Char) : lineTail cs <+: cs := by
  induction cs with
  | nil => exact List.prefix_rfl
  | cons c cs ih =>
    unfold lineTail
    split
    · exact (List.prefix_cons_inj c).2 List.nil_prefix
    · exact (List.prefix_cons_inj c).2 ih

/-- The next line starts where this one ends; the last line ends with the text. -/
theorem head?_laterLineStarts (offset : Nat) (cs : List Char) :
    (laterLineStarts offset cs).head?.getD (offset + byteLength cs) =
      offset + byteLength (lineTail cs) := by
  induction cs generalizing offset with
  | nil => rfl
  | cons c cs ih =>
    simp only [laterLineStarts, lineTail]
    split
    · rename_i hc
      have hsize : c.utf8Size = 1 := by subst hc; decide
      simp [byteLength, hsize]
    · simp only [byteLength, ← Nat.add_assoc, ih]

/-- Passing as many units as some characters have leads to the end of them. -/
theorem columnOffset_append (passed offset : Nat) (as bs : List Char) :
    columnOffset (passed + unitLength as) passed offset (as ++ bs) =
      some (offset + byteLength as) := by
  induction as generalizing passed offset with
  | nil => cases bs <;> simp [columnOffset, unitLength, byteLength]
  | cons c as ih =>
    have hunits := units_pos c
    have hnot : ¬ passed + (units c + unitLength as) ≤ passed := by omega
    rw [List.cons_append, columnOffset, unitLength, if_neg hnot, ← Nat.add_assoc, ih, byteLength,
      Nat.add_assoc]

/-- The line on which a text ends stops where what follows starts the next one. -/
theorem lineStop_append (before after : List Char) :
    (lineStarts (before ++ after))[before.count '\n' + 1]?.getD (byteLength (before ++ after)) =
      byteLength (before ++ lineTail after) := by
  rw [lineStarts_append, List.getElem?_append_right (by rw [length_lineStarts]), length_lineStarts,
    Nat.sub_self, ← List.head?_eq_getElem?, byteLength_append, head?_laterLineStarts,
    byteLength_append]

theorem sliceBytes?_line (before after : List Char) :
    sliceBytes? (byteLength (earlierLines before)) (byteLength (before ++ lineTail after))
      (before ++ after) = some (lastLine before ++ lineTail after) := by
  have hwhole := earlierLines_append_lastLine before
  obtain ⟨later, hlater⟩ := lineTail_isPrefix after
  have hcut := sliceBytes?_append (earlierLines before) (lastLine before ++ lineTail after) later
  rwa [← List.append_assoc, hwhole, List.append_assoc, ← List.append_assoc, hwhole, hlater] at hcut

/-- A column is looked for on the line on which a text ends: what the text has of it, and then what
follows. -/
theorem offsetOf_append (before after : List Char) (character : Nat) :
    offsetOf (before ++ after) ⟨before.count '\n', character⟩ =
      columnOffset character 0 (byteLength (earlierLines before)) (lastLine before ++ lineTail after) := by
  simp only [offsetOf, getElem?_lineStarts, lineStop_append, sliceBytes?_line, Option.bind_some,
    Option.getD_some]

/-- The position where a text ends leads back to its end, whatever follows. -/
theorem offsetOf_endPosition (before after : List Char) :
    offsetOf (before ++ after) (endPosition before) = some (byteLength before) := by
  have hcolumn := columnOffset_append 0 (byteLength (earlierLines before)) (lastLine before)
    (lineTail after)
  rw [Nat.zero_add, ← byteLength_append, earlierLines_append_lastLine] at hcolumn
  rw [endPosition, offsetOf_append, hcolumn]

/-- A position leads back to the boundary it was taken at. -/
theorem offsetOf_positionOf (cs : List Char) (offset : Nat) :
    offsetOf cs (positionOf cs offset) = some (byteLength (charsBefore offset cs)) := by
  obtain ⟨after, hsplit⟩ := charsBefore_isPrefix offset cs
  have hback := offsetOf_endPosition (charsBefore offset cs) after
  rwa [hsplit, ← positionOf_eq_endPosition] at hback

theorem IsBoundary.offsetOf_positionOf (h : IsBoundary cs offset) :
    offsetOf cs (positionOf cs offset) = some offset := by
  obtain ⟨before, after, rfl, rfl⟩ := h.split
  rw [Text.offsetOf_positionOf, charsBefore_append]

end Text

end Dependents
