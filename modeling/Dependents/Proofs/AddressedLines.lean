import Dependents.CommandLine.Run
import Dependents.Proofs.CountedPositions

/-! Which offsets positions lead to. A position leads to the line it names, with one exception: the
column after the newline that ends a line leads to the start of the next line. -/
namespace Dependents.Text

variable {cs as bs before line after init rest most more : List Char} {c : Char}
  {n character passed offset : Nat} {p : Position}

/-! Lines. -/

/-- The lines of a text, without the newlines that end them. -/
def lineTexts (cs : List Char) : List (List Char) :=
  cs.splitOn '\n'

theorem lineTexts_cons (c : Char) (cs : List Char) :
    lineTexts (c :: cs) =
      if c = '\n' then [] :: lineTexts cs else (lineTexts cs).modifyHead (c :: ·) := by
  simp [lineTexts, List.splitOn, List.splitOnP_cons_eq_if_modifyHead]

theorem length_lineTexts (cs : List Char) : (lineTexts cs).length = cs.count '\n' + 1 := by
  induction cs with
  | nil => rfl
  | cons c cs ih =>
    rw [lineTexts_cons]
    split <;> simp_all

/-- A text around its line of number `n`. -/
structure LineAt (cs : List Char) (n : Nat) (before line after : List Char) : Prop where
  text : cs = before ++ (line ++ after)
  number : before.count '\n' = n
  starts : ∀ c ∈ before.getLast?, c = '\n'
  whole : '\n' ∉ line
  stops : ∀ c ∈ after.head?, c = '\n'

theorem exists_lineAt (h : (lineTexts cs)[n]? = some line) :
    ∃ before after, LineAt cs n before line after := by
  induction cs generalizing n line with
  | nil =>
    obtain ⟨rfl, rfl⟩ : n = 0 ∧ line = [] := by
      cases n <;> simp_all [lineTexts]
    exact ⟨[], [], by constructor <;> simp⟩
  | cons c cs ih =>
    rw [lineTexts_cons] at h
    by_cases hc : c = '\n'
    · subst hc
      rw [if_pos rfl] at h
      cases n with
      | zero =>
        obtain rfl : [] = line := by simpa using h
        exact ⟨[], '\n' :: cs, by constructor <;> simp⟩
      | succ n =>
        obtain ⟨before, after, hat⟩ := ih (by simpa using h)
        refine ⟨'\n' :: before, after, ?_, ?_, ?_, hat.whole, hat.stops⟩
        · simp [← hat.text]
        · simp [hat.number]
        · have hstarts := hat.starts
          cases hlast : before.getLast? <;> simp_all [List.getLast?_cons]
    · rw [if_neg hc] at h
      cases n with
      | zero =>
        -- The character goes to the front of the first line, which has nothing before it.
        obtain ⟨first, hfirst, rfl⟩ : ∃ first, (lineTexts cs)[0]? = some first ∧ c :: first = line := by
          cases htexts : lineTexts cs <;> simp_all
        obtain ⟨before, after, hat⟩ := ih hfirst
        have hnil : before = [] := by
          by_contra hne
          obtain ⟨init, last, rfl⟩ := (List.eq_nil_or_concat' before).resolve_left hne
          have hlast := hat.starts last (by simp)
          have hnumber := hat.number
          simp [hlast] at hnumber
        subst hnil
        refine ⟨[], after, ?_, rfl, by simp, ?_, hat.stops⟩
        · simpa using hat.text
        · simp [hat.whole, Ne.symm hc]
      | succ n =>
        have hline : (lineTexts cs)[n + 1]? = some line := by
          cases htexts : lineTexts cs <;> simp_all
        obtain ⟨before, after, hat⟩ := ih hline
        refine ⟨c :: before, after, ?_, ?_, ?_, hat.whole, hat.stops⟩
        · simp [← hat.text]
        · simp [hat.number, hc]
        · have hstarts := hat.starts
          have hnumber := hat.number
          cases hlast : before.getLast? with
          | none => simp_all
          | some last => simp_all [List.getLast?_cons]

theorem exists_lineAt_of_le (h : n ≤ cs.count '\n') :
    ∃ before line after, LineAt cs n before line after ∧ (lineTexts cs)[n]? = some line := by
  have hlength := length_lineTexts cs
  have hline := List.getElem?_eq_getElem (l := lineTexts cs) (i := n) (by omega)
  obtain ⟨before, after, hat⟩ := exists_lineAt hline
  exact ⟨before, _, after, hat, hline⟩

theorem lastLine_append (as : List Char) (h : '\n' ∉ bs) : lastLine (as ++ bs) = lastLine as ++ bs := by
  induction bs using List.reverseRecOn with
  | nil => simp
  | append_singleton bs c ih =>
    rw [List.mem_append, not_or, List.mem_singleton] at h
    rw [← List.append_assoc, lastLine_concat, if_neg (Ne.symm h.2), ih h.1, List.append_assoc]

namespace LineAt

theorem lastLine (h : LineAt cs n before line after) : lastLine before = [] := by
  rcases List.eq_nil_or_concat' before with rfl | ⟨init, last, rfl⟩
  · rfl
  · rw [lastLine_concat, if_pos (h.starts last (by simp))]

theorem earlierLines (h : LineAt cs n before line after) : earlierLines before = before := by
  have hwhole := earlierLines_append_lastLine before
  rwa [h.lastLine, List.append_nil] at hwhole

/-- Only the last line has no newline after it. -/
theorem lt_count_iff (h : LineAt cs n before line after) : n < cs.count '\n' ↔ after ≠ [] := by
  have hline : line.count '\n' = 0 := List.count_eq_zero.2 h.whole
  have hcount : cs.count '\n' = n + after.count '\n' := by
    rw [h.text, List.count_append, List.count_append, h.number, hline, Nat.zero_add]
  cases after with
  | nil => simp [hcount]
  | cons c after =>
    have hc := h.stops c rfl
    simp [hcount, hc]

/-- The places of a line have its number, and the units up to them for their column. -/
theorem positionOf (h : LineAt cs n before (init ++ rest) after) :
    positionOf cs (byteLength (before ++ init)) = ⟨n, unitLength init⟩ := by
  have hinit : '\n' ∉ init := fun hmem => h.whole (List.mem_append_left rest hmem)
  have htext : cs = (before ++ init) ++ (rest ++ after) := by
    rw [h.text]
    simp
  rw [positionOf_eq_endPosition, htext, charsBefore_append, endPosition, lastLine_append before hinit,
    h.lastLine, List.count_append, h.number, List.count_eq_zero.2 hinit]
  rfl

/-- After the newline of a line, the next one starts. -/
theorem positionOf_next (h : LineAt cs n before line ('\n' :: after)) :
    Text.positionOf cs (byteLength (before ++ line ++ ['\n'])) = ⟨n + 1, 0⟩ := by
  have htext : cs = (before ++ line ++ ['\n']) ++ after := by
    rw [h.text]
    simp
  rw [positionOf_eq_endPosition, htext, charsBefore_append, endPosition, lastLine_concat, if_pos rfl,
    List.count_append, List.count_append, h.number, List.count_eq_zero.2 h.whole]
  rfl

end LineAt

/-! Columns. -/

theorem columnOffset_of_passed (h : character ≤ passed) (offset : Nat) (cs : List Char) :
    columnOffset character passed offset cs = some offset := by
  cases cs <;> simp [columnOffset, h]

/-- A column that is not reached yet is looked for in what follows. -/
theorem columnOffset_of_lt (h : passed + unitLength as < character) (offset : Nat) (bs : List Char) :
    columnOffset character passed offset (as ++ bs) =
      columnOffset character (passed + unitLength as) (offset + byteLength as) bs := by
  induction as generalizing passed offset with
  | nil => rfl
  | cons c as ih =>
    rw [unitLength, ← Nat.add_assoc] at h
    have hnot : ¬ character ≤ passed := by omega
    rw [List.cons_append, columnOffset, if_neg hnot, ih h, unitLength, byteLength, Nat.add_assoc,
      Nat.add_assoc]

theorem units_le (c : Char) : units c ≤ 2 := by
  unfold units
  split <;> omega

/-- A column within some characters leads to the end of one of them: the one it ends at, or the one
whose two units it divides. -/
theorem columnOffset_of_le (hpassed : passed ≤ character) (h : character ≤ passed + unitLength as)
    (offset : Nat) (bs : List Char) :
    ∃ init rest, as = init ++ rest ∧
      columnOffset character passed offset (as ++ bs) = some (offset + byteLength init) ∧
      (character = passed + unitLength init ∨
        ∃ most c, init = most ++ [c] ∧ units c = 2 ∧ character = passed + unitLength most + 1) := by
  induction as generalizing passed offset with
  | nil =>
    have heq : character = passed := Nat.le_antisymm h hpassed
    exact ⟨[], [], rfl, columnOffset_of_passed (Nat.le_of_eq heq) offset bs, Or.inl heq⟩
  | cons c as ih =>
    by_cases hhere : character ≤ passed
    · have heq : character = passed := Nat.le_antisymm hhere hpassed
      exact ⟨[], c :: as, rfl, columnOffset_of_passed hhere offset _, Or.inl heq⟩
    · rw [List.cons_append, columnOffset, if_neg hhere]
      by_cases hnext : passed + units c ≤ character
      · rw [unitLength, ← Nat.add_assoc] at h
        obtain ⟨init, rest, rfl, hcolumn, hends⟩ := ih hnext h (offset + c.utf8Size)
        refine ⟨c :: init, rest, rfl, ?_, ?_⟩
        · rw [hcolumn, byteLength, Nat.add_assoc]
        · rcases hends with hends | ⟨most, d, rfl, hd, hends⟩
          · left
            rw [hends, unitLength, Nat.add_assoc]
          · right
            refine ⟨c :: most, d, rfl, hd, ?_⟩
            rw [hends, unitLength, Nat.add_assoc passed]
      · have hle := units_le c
        refine ⟨[c], as, rfl, ?_, Or.inr ⟨[], c, rfl, ?_, ?_⟩⟩
        · rw [columnOffset_of_passed (by omega)]
          simp [byteLength]
        · omega
        · simp only [unitLength]
          omega

/-- No place between two characters has the column between the units of one of them. -/
theorem unitLength_ne_of_pair (h : init ++ rest = most ++ c :: more) (hc : units c = 2) :
    unitLength init ≠ unitLength most + 1 := by
  intro heq
  rcases List.append_eq_append_iff.1 h with ⟨between, rfl, _⟩ | ⟨between, rfl, hbetween⟩
  · rw [unitLength_append] at heq
    omega
  · cases between with
    | nil => simp at heq
    | cons d between =>
      obtain ⟨rfl, _⟩ := List.cons.inj hbetween
      rw [unitLength_append, unitLength] at heq
      omega

theorem lineTail_append (hwhole : '\n' ∉ line) (hstops : ∀ c ∈ after.head?, c = '\n') :
    lineTail (line ++ after) = line ++ after.take 1 := by
  induction line with
  | nil =>
    cases after with
    | nil => rfl
    | cons c after => simp [lineTail, hstops c rfl]
  | cons c line ih =>
    rw [List.mem_cons, not_or] at hwhole
    rw [List.cons_append, lineTail, if_neg (Ne.symm hwhole.1), ih hwhole.2, List.cons_append]

namespace LineAt

/-- A column is looked for on its line and on the newline after it. -/
theorem offsetOf (h : LineAt cs n before line after) (character : Nat) :
    offsetOf cs ⟨n, character⟩ = columnOffset character 0 (byteLength before) (line ++ after.take 1) := by
  rw [h.text, ← h.number, offsetOf_append, h.lastLine, h.earlierLines,
    lineTail_append h.whole h.stops, List.nil_append]

theorem offsetOf_of_le (h : LineAt cs n before line after) (hle : character ≤ unitLength line) :
    ∃ init rest, line = init ++ rest ∧
      Text.offsetOf cs ⟨n, character⟩ = some (byteLength (before ++ init)) ∧
      (character = unitLength init ∨
        ∃ most c, init = most ++ [c] ∧ units c = 2 ∧ character = unitLength most + 1) := by
  have hreach : character ≤ 0 + unitLength line := by omega
  obtain ⟨init, rest, hsplit, hcolumn, hends⟩ :=
    columnOffset_of_le (Nat.zero_le character) hreach (byteLength before) (after.take 1)
  simp only [Nat.zero_add] at hends
  refine ⟨init, rest, hsplit, ?_, hends⟩
  rw [h.offsetOf, hcolumn, byteLength_append]

/-- Past the end of the last line there is nothing. -/
theorem offsetOf_last (h : LineAt cs n before line []) (hlt : unitLength line < character) :
    Text.offsetOf cs ⟨n, character⟩ = none := by
  have hreach : 0 + unitLength line < character := by omega
  rw [h.offsetOf, columnOffset_of_lt hreach, List.take_nil, columnOffset, if_neg (by omega)]

/-- Past the end of another line there is one column more, after the newline. -/
theorem offsetOf_newline (h : LineAt cs n before line ('\n' :: after))
    (hlt : unitLength line < character) :
    Text.offsetOf cs ⟨n, character⟩ =
      if character = unitLength line + 1 then some (byteLength (before ++ line ++ ['\n'])) else none := by
  have hreach : 0 + unitLength line < character := by omega
  have hnot : ¬ character ≤ 0 + unitLength line := by omega
  have hsize : Char.utf8Size '\n' = 1 := by decide
  have hunits : units '\n' = 1 := by decide
  have hcolumn : character ≤ unitLength line + 1 ↔ character = unitLength line + 1 := by omega
  rw [h.offsetOf, columnOffset_of_lt hreach, List.take_succ_cons, List.take_zero, columnOffset,
    if_neg hnot, hunits, columnOffset]
  simp [hcolumn, byteLength, hsize, Nat.add_assoc]

end LineAt

/-- The search for the offset of a position, in which cutting out the line can fail. -/
def offsetOf? (cs : List Char) (p : Position) : Option (Option Nat) :=
  match (lineStarts cs)[p.line]? with
  | none => some none
  | some lineStart =>
    let lineStop := (lineStarts cs)[p.line + 1]?.getD (byteLength cs)
    (sliceBytes? lineStart lineStop cs).map (columnOffset p.character 0 lineStart)

theorem getElem?_lineStarts_of_lt (h : cs.count '\n' < n) : (lineStarts cs)[n]? = none := by
  apply List.getElem?_eq_none
  rw [length_lineStarts]
  exact h

theorem offsetOf_of_lt (h : cs.count '\n' < p.line) : offsetOf cs p = none := by
  rw [offsetOf, getElem?_lineStarts_of_lt h]
  rfl

/-- The search never cuts a character. -/
theorem offsetOf?_eq (cs : List Char) (p : Position) : offsetOf? cs p = some (offsetOf cs p) := by
  by_cases hline : p.line ≤ cs.count '\n'
  · obtain ⟨before, line, after, hat, _⟩ := exists_lineAt_of_le hline
    have hstart := getElem?_lineStarts before (line ++ after)
    have hstop := lineStop_append before (line ++ after)
    have hslice := sliceBytes?_line before (line ++ after)
    rw [← hat.text, hat.number] at hstart hstop
    rw [← hat.text] at hslice
    simp only [offsetOf?, offsetOf, hstart, hstop, hslice, Option.map_some, Option.bind_some,
      Option.getD_some]
  · have hlt : cs.count '\n' < p.line := by omega
    rw [offsetOf?, getElem?_lineStarts_of_lt hlt, offsetOf_of_lt hlt]

/-! Back from positions to offsets. -/

theorem isBoundary_byteLength (cs : List Char) : IsBoundary cs (byteLength cs) := by
  have hend := isBoundary_append cs []
  rwa [List.append_nil] at hend

theorem isBoundary_of_mem_lineStarts (h : offset ∈ lineStarts cs) : IsBoundary cs offset := by
  obtain ⟨n, hn⟩ := List.mem_iff_getElem?.1 h
  have hline : n ≤ cs.count '\n' := by
    by_contra hlt
    rw [getElem?_lineStarts_of_lt (by omega)] at hn
    cases hn
  obtain ⟨before, line, after, hat, _⟩ := exists_lineAt_of_le hline
  have hstart := getElem?_lineStarts before (line ++ after)
  rw [← hat.text, hat.number, hn, hat.earlierLines] at hstart
  rw [Option.some.inj hstart, hat.text]
  exact isBoundary_append before (line ++ after)

/-- A newline byte is a character of its own. -/
theorem isBoundary_of_newline (h : (bytesOf cs)[offset]? = some newline) : IsBoundary cs offset := by
  induction cs generalizing offset with
  | nil => simp [bytesOf] at h
  | cons c cs ih =>
    rw [Path.bytesOf_cons] at h
    by_cases hin : offset < c.utf8Size
    · rw [List.getElem?_append_left (by rwa [length_charBytes])] at h
      have hc := newline_mem_charBytes.1 (List.mem_of_getElem? h)
      subst hc
      have hsize : Char.utf8Size '\n' = 1 := by decide
      obtain rfl : offset = 0 := by omega
      exact isBoundary_append [] ('\n' :: cs)
    · rw [List.getElem?_append_right (by rw [length_charBytes]; omega), length_charBytes] at h
      have hrest := ih h
      have hoffset : offset = c.utf8Size + (offset - c.utf8Size) := by omega
      unfold IsBoundary at hrest ⊢
      rwa [hoffset, dropBytes?_cons]

/-- The position of an offset leads back to the largest boundary that is not above it, without a cut
character on the way, and so to the offset itself at every boundary. Line starts, newlines and the end
of the text are boundaries. -/
theorem offsetOf_positionOf_greatest (cs : List Char) :
    (∀ offset, ∃ o, IsGreatest (boundariesUpTo cs offset) o ∧
      offsetOf cs (positionOf cs offset) = some o ∧
      offsetOf? cs (positionOf cs offset) = some (some o)) ∧
    (∀ offset, IsBoundary cs offset → offsetOf cs (positionOf cs offset) = some offset) ∧
    ∀ offset, offset ∈ lineStarts cs ∨ (bytesOf cs)[offset]? = some newline ∨ offset = byteLength cs →
      IsBoundary cs offset := by
  refine ⟨?_, ?_, ?_⟩
  · intro offset
    refine ⟨_, isGreatest_charsBefore cs offset, offsetOf_positionOf cs offset, ?_⟩
    rw [offsetOf?_eq, offsetOf_positionOf]
  · intro offset hboundary
    exact hboundary.offsetOf_positionOf
  · rintro offset (hstart | hnewline | rfl)
    · exact isBoundary_of_mem_lineStarts hstart
    · exact isBoundary_of_newline hnewline
    · exact isBoundary_byteLength cs

/-- The newline of the empty second line, at offset 5, is a boundary and leads back to itself; offset 2 is
inside the emoji and leads back to its start. -/
theorem offsetOf_positionOf_greatest_emptyLine :
    let cs := "😀\n\né".toList
    IsBoundary cs 5 ∧ offsetOf cs (positionOf cs 5) = some 5 ∧ positionOf cs 5 = ⟨1, 0⟩ ∧
      IsGreatest (boundariesUpTo cs 2) 0 ∧ offsetOf cs (positionOf cs 2) = some 0 := by
  intro cs
  obtain ⟨hback, hself, hboundaries⟩ := offsetOf_positionOf_greatest cs
  have hnewline : IsBoundary cs 5 := hboundaries 5 (Or.inr (Or.inl (by decide)))
  have hinside : IsGreatest (boundariesUpTo cs 2) 0 := isGreatest_charsBefore cs 2
  refine ⟨hnewline, hself 5 hnewline, by decide, hinside, ?_⟩
  obtain ⟨o, ho, hoffset, _⟩ := hback 2
  rw [hoffset, ho.unique hinside]

/-! What positions in general lead to. -/

/-- A position on its line, the end of the line included. -/
def OnLine (cs : List Char) (p : Position) : Prop :=
  ∃ line, (lineTexts cs)[p.line]? = some line ∧ p.character ≤ unitLength line

/-- A position right after the newline that ends its line. -/
def PastNewline (cs : List Char) (p : Position) : Prop :=
  p.line < cs.count '\n' ∧
    ∃ line, (lineTexts cs)[p.line]? = some line ∧ p.character = unitLength line + 1

/-- A position between the two units of a character of its line. -/
def DividesPair (cs : List Char) (p : Position) : Prop :=
  ∃ most c more, (lineTexts cs)[p.line]? = some (most ++ c :: more) ∧ units c = 2 ∧
    p.character = unitLength most + 1

/-- An offset on the line of a position: at its column, or after the character that the column
divides. -/
def StandsOnLine (cs : List Char) (p : Position) (o : Nat) : Prop :=
  (positionOf cs o).line = p.line ∧
    (¬ DividesPair cs p ∧ (positionOf cs o).character = p.character ∨
      DividesPair cs p ∧ (positionOf cs o).character = p.character + 1)

/-- A position on its line leads to that line. -/
theorem OnLine.standsOnLine (h : OnLine cs p) :
    ∃ o, offsetOf cs p = some o ∧ StandsOnLine cs p o := by
  obtain ⟨line, hline, hle⟩ := h
  obtain ⟨before, after, hat⟩ := exists_lineAt hline
  obtain ⟨init, rest, rfl, hoffset, hends⟩ := hat.offsetOf_of_le hle
  refine ⟨_, hoffset, ?_⟩
  rw [StandsOnLine, hat.positionOf]
  refine ⟨rfl, ?_⟩
  rcases hends with hends | ⟨most, c, rfl, hc, hends⟩
  · left
    refine ⟨?_, hends.symm⟩
    rintro ⟨most, c, more, hother, hc, hcolumn⟩
    have hsame := Option.some.inj (hline.symm.trans hother)
    exact unitLength_ne_of_pair hsame hc (hends.symm.trans hcolumn)
  · right
    refine ⟨⟨most, c, rest, ?_, hc, hends⟩, ?_⟩
    · rw [hline, List.append_assoc, List.singleton_append]
    · rw [hends, unitLength_append]
      simp [unitLength, hc]

/-- A position after a newline leads to the start of the next line. -/
theorem PastNewline.next (h : PastNewline cs p) :
    ∃ o, offsetOf cs p = some o ∧ positionOf cs o = ⟨p.line + 1, 0⟩ := by
  obtain ⟨hlt, line, hline, hcolumn⟩ := h
  obtain ⟨before, after, hat⟩ := exists_lineAt hline
  have hafter := hat.lt_count_iff.1 hlt
  obtain ⟨c, after, rfl⟩ := List.exists_cons_of_ne_nil hafter
  obtain rfl := hat.stops c rfl
  refine ⟨_, ?_, hat.positionOf_next⟩
  have hoffset := hat.offsetOf_newline (Nat.lt_of_lt_of_eq (Nat.lt_succ_self _) hcolumn.symm)
  rw [if_pos hcolumn] at hoffset
  exact hoffset

/-- No other position leads anywhere. -/
theorem offsetOf_eq_none (hon : ¬ OnLine cs p) (hpast : ¬ PastNewline cs p) : offsetOf cs p = none := by
  by_cases hline : p.line ≤ cs.count '\n'
  · obtain ⟨before, line, after, hat, htext⟩ := exists_lineAt_of_le hline
    have hlt : unitLength line < p.character := by
      by_contra hle
      exact hon ⟨line, htext, by omega⟩
    cases after with
    | nil => exact hat.offsetOf_last hlt
    | cons c after =>
      obtain rfl := hat.stops c rfl
      have hne : p.character ≠ unitLength line + 1 := by
        intro hcolumn
        exact hpast ⟨hat.lt_count_iff.2 (List.cons_ne_nil _ _), line, htext, hcolumn⟩
      have hoffset := hat.offsetOf_newline hlt
      rwa [if_neg hne] at hoffset
  · exact offsetOf_of_lt (by omega)

/-- A position that leads somewhere leads to its line, or from the newline of it to the next. -/
theorem offsetOf_cases {o : Nat} (h : offsetOf cs p = some o) :
    OnLine cs p ∧ StandsOnLine cs p o ∨ PastNewline cs p ∧ positionOf cs o = ⟨p.line + 1, 0⟩ := by
  by_cases hon : OnLine cs p
  · left
    obtain ⟨o', ho', hstands⟩ := hon.standsOnLine
    obtain rfl := Option.some.inj (h.symm.trans ho')
    exact ⟨hon, hstands⟩
  · right
    by_cases hpast : PastNewline cs p
    · obtain ⟨o', ho', hnext⟩ := hpast.next
      obtain rfl := Option.some.inj (h.symm.trans ho')
      exact ⟨hpast, hnext⟩
    · rw [offsetOf_eq_none hon hpast] at h
      cases h

theorem isSome_offsetOf_iff : (offsetOf cs p).isSome ↔ OnLine cs p ∨ PastNewline cs p := by
  constructor
  · intro hsome
    obtain ⟨o, ho⟩ := Option.isSome_iff_exists.1 hsome
    exact (offsetOf_cases ho).imp And.left And.left
  · rintro (hon | hpast)
    · obtain ⟨o, ho, _⟩ := hon.standsOnLine
      exact Option.isSome_of_eq_some ho
    · obtain ⟨o, ho, _⟩ := hpast.next
      exact Option.isSome_of_eq_some ho

theorem OnLine.not_pastNewline (h : OnLine cs p) : ¬ PastNewline cs p := by
  obtain ⟨line, hline, hle⟩ := h
  rintro ⟨_, other, hother, hcolumn⟩
  obtain rfl := Option.some.inj (hline.symm.trans hother)
  omega

/-- The line that a position leads to is the one it names, unless it lies past a newline. -/
theorem line_eq_iff {o : Nat} (h : offsetOf cs p = some o) :
    (positionOf cs o).line = p.line ↔ ¬ PastNewline cs p := by
  rcases offsetOf_cases h with ⟨hon, hstands⟩ | ⟨hpast, hnext⟩
  · exact iff_of_true hstands.1 hon.not_pastNewline
  · refine iff_of_false ?_ (not_not_intro hpast)
    rw [hnext]
    exact Nat.succ_ne_self p.line

theorem standsOnLine_iff {o : Nat} (h : offsetOf cs p = some o) :
    StandsOnLine cs p o ↔ ¬ PastNewline cs p := by
  constructor
  · intro hstands
    exact (line_eq_iff h).1 hstands.1
  · intro hnot
    rcases offsetOf_cases h with ⟨_, hstands⟩ | ⟨hpast, _⟩
    · exact hstands
    · exact absurd hpast hnot

end Dependents.Text

namespace Dependents.CommandLine

open Text

variable {tree : SyntaxTree} {args : Arguments} {p : Position}

theorem cursorOffset_of_some {o : Nat} (hoffset : args.offset = none) (hcursor : args.cursor = some p)
    (h : tree.offsetOf p = some o) (target : Path) :
    cursorOffset tree target args = .ok (some o) := by
  simp only [cursorOffset, hoffset, hcursor, h]

theorem cursorOffset_of_none (hoffset : args.offset = none) (hcursor : args.cursor = some p)
    (h : tree.offsetOf p = none) (target : Path) :
    cursorOffset tree target args = .error [p.location ++ " is outside " ++ target.text] := by
  simp only [cursorOffset, hoffset, hcursor, h]

/-- A position leads somewhere if it is on its line or right after the newline of it. It leads to that
line, at its column or after the character that the column divides, exactly if it does not lie past the
newline; from there it leads to the start of the next line. So does a cursor of the command line, which
refuses all other positions. -/
theorem offsetOf_standsOnLine_iff (tree : SyntaxTree) (p : Position) :
    ((tree.offsetOf p).isSome ↔ OnLine tree.source p ∨ PastNewline tree.source p) ∧
    (∀ o, tree.offsetOf p = some o →
      (StandsOnLine tree.source p o ↔ ¬ PastNewline tree.source p) ∧
      (PastNewline tree.source p → tree.positionOf o = ⟨p.line + 1, 0⟩)) ∧
    ∀ target args, args.offset = none → args.cursor = some p →
      (¬ OnLine tree.source p → ¬ PastNewline tree.source p →
        cursorOffset tree target args = .error [p.location ++ " is outside " ++ target.text]) ∧
      ∀ o, cursorOffset tree target args = .ok (some o) →
        ((tree.positionOf o).line = p.line ↔ ¬ PastNewline tree.source p) := by
  refine ⟨isSome_offsetOf_iff, ?_, ?_⟩
  · intro o ho
    refine ⟨standsOnLine_iff ho, ?_⟩
    intro hpast
    obtain ⟨o', ho', hnext⟩ := hpast.next
    obtain rfl := Option.some.inj (ho.symm.trans ho')
    exact hnext
  · intro target args hoffset hcursor
    refine ⟨?_, ?_⟩
    · intro hon hpast
      exact cursorOffset_of_none hoffset hcursor (offsetOf_eq_none hon hpast) target
    · intro o ho
      cases hfound : tree.offsetOf p with
      | none =>
        rw [cursorOffset_of_none hoffset hcursor hfound] at ho
        cases ho
      | some o' =>
        rw [cursorOffset_of_some hoffset hcursor hfound] at ho
        cases ho
        exact line_eq_iff hfound

/-- Column 2 of the first line lies between the units of the emoji, and leads to the place after it. -/
theorem offsetOf_standsOnLine_iff_pair :
    let tree : SyntaxTree := ⟨"a😀\nb".toList, #[], false⟩
    let args := { Arguments.empty with cursor := some ⟨0, 2⟩ }
    tree.offsetOf ⟨0, 2⟩ = some 5 ∧ DividesPair tree.source ⟨0, 2⟩ ∧
      StandsOnLine tree.source ⟨0, 2⟩ 5 ∧ cursorOffset tree ⟨"/m.ts"⟩ args = .ok (some 5) ∧
      (tree.positionOf 5).line = 0 := by
  intro tree args
  have hon : OnLine tree.source ⟨0, 2⟩ := ⟨['a', '😀'], by decide, by decide⟩
  have hfound : tree.offsetOf ⟨0, 2⟩ = some 5 := by decide
  have hcursor : cursorOffset tree ⟨"/m.ts"⟩ args = .ok (some 5) :=
    cursorOffset_of_some rfl rfl hfound ⟨"/m.ts"⟩
  obtain ⟨_, hstands, hcommand⟩ := offsetOf_standsOnLine_iff tree ⟨0, 2⟩
  refine ⟨hfound, ⟨['a'], '😀', [], by decide, by decide, by decide⟩, ?_, hcursor, ?_⟩
  · exact (hstands 5 hfound).1.2 hon.not_pastNewline
  · exact ((hcommand ⟨"/m.ts"⟩ args rfl rfl).2 5 hcursor).2 hon.not_pastNewline

/-- The column after the newline of the first line is accepted and leads to the second line, for a
cursor too. -/
theorem offsetOf_pastNewline :
    let tree : SyntaxTree := ⟨"a\nb".toList, #[], false⟩
    let args := { Arguments.empty with cursor := some ⟨0, 2⟩ }
    (lineTexts tree.source)[0]? = some ['a'] ∧ tree.offsetOf ⟨0, 2⟩ = some 2 ∧
      cursorOffset tree ⟨"/m.ts"⟩ args = .ok (some 2) ∧ tree.positionOf 2 = ⟨1, 0⟩ ∧
      ¬ StandsOnLine tree.source ⟨0, 2⟩ 2 := by
  intro tree args
  have hfound : tree.offsetOf ⟨0, 2⟩ = some 2 := by decide
  have hposition : tree.positionOf 2 = ⟨1, 0⟩ := by decide
  refine ⟨by decide, hfound, cursorOffset_of_some rfl rfl hfound ⟨"/m.ts"⟩, hposition, ?_⟩
  rintro ⟨hline, _⟩
  have hother : (tree.positionOf 2).line = 1 := congrArg Position.line hposition
  exact absurd (hother.symm.trans hline) (by decide)

end Dependents.CommandLine
