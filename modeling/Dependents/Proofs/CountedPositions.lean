import Dependents.Proofs.PathDigest
import Dependents.Proofs.Positions
import Mathlib.Order.Bounds.Basic

/-! Positions counted on the bytes of a text: newline bytes, and the UTF-16 units of the bytes after
the last of them. The search for a position finds what counting finds. -/
namespace Dependents.Text

variable {cs as bs more : List Char} {c : Char} {offset o n a b : Nat}

/-- The boundaries that are not above an offset. -/
def boundariesUpTo (cs : List Char) (offset : Nat) : Set Nat :=
  { o | IsBoundary cs o ∧ o ≤ min offset (byteLength cs) }

/-- Goes back from an offset, byte by byte, to a boundary. -/
def goBack? (cs : List Char) : Nat → Option Nat
  | 0 => if IsBoundary cs 0 then some 0 else none
  | n + 1 => if IsBoundary cs (n + 1) then some (n + 1) else goBack? cs n

/-- The line of an offset among sorted line starts: the place of the offset if it is one of them, else
one before the place where it would go. -/
def lineOf? (starts : List Nat) (offset : Nat) : Option Nat :=
  let place := starts.findIdx fun start => decide (offset ≤ start)
  if starts[place]? = some offset then some place
  else if place = 0 then none
  else some (place - 1)

/-- The search for a position, in which each step can fail: there may be no boundary to go back to, no
line before the place found, no start of that line, and no text between start and boundary. -/
def positionOf? (cs : List Char) (offset : Nat) : Option Position := do
  let boundary ← goBack? cs (min offset (byteLength cs))
  let line ← lineOf? (lineStarts cs) boundary
  let lineStart ← (lineStarts cs)[line]?
  let text ← sliceBytes? lineStart boundary cs
  return ⟨line, unitLength text⟩

/-- The byte that ends a line. -/
def newline : UInt8 := 0x0a

/-- The UTF-16 code units of a character. -/
def codeUnits (c : Char) : List UInt16 :=
  let n := c.toNat
  if n < 0x10000 then [n.toUInt16]
  else [(0xd800 + (n - 0x10000) / 0x400).toUInt16, (0xdc00 + (n - 0x10000) % 0x400).toUInt16]

/-- The position that counting gives for the first `o` bytes: the newlines among them, and the code
units of what they end in after the last newline, if that is text. -/
def countedPosition (bytes : List UInt8) (o : Nat) : Option Position :=
  let before := bytes.take o
  (decodeChars? (before.rtakeWhile (· ≠ newline))).map fun line =>
    ⟨before.count newline, (line.flatMap codeUnits).length⟩

/-! Going back to a boundary. -/

theorem isBoundary_append (before after : List Char) :
    IsBoundary (before ++ after) (byteLength before) := by
  unfold IsBoundary
  rw [dropBytes?_append]
  rfl

theorem byteLength_le_of_isPrefix (h : as <+: bs) : byteLength as ≤ byteLength bs := by
  obtain ⟨more, rfl⟩ := h
  rw [byteLength_append]
  omega

theorem byteLength_charsBefore_le (offset : Nat) (cs : List Char) :
    byteLength (charsBefore offset cs) ≤ offset := by
  fun_induction charsBefore offset cs with
  | case1 => exact Nat.zero_le _
  | case2 offset c cs hle ih =>
    rw [byteLength]
    omega
  | case3 => exact Nat.zero_le _

/-- The characters before an offset end at the largest boundary that is not above it. -/
theorem isGreatest_charsBefore (cs : List Char) (offset : Nat) :
    IsGreatest (boundariesUpTo cs offset) (byteLength (charsBefore offset cs)) := by
  have hprefix := charsBefore_isPrefix offset cs
  refine ⟨⟨?_, ?_⟩, ?_⟩
  · obtain ⟨after, hsplit⟩ := hprefix
    have hboundary := isBoundary_append (charsBefore offset cs) after
    rwa [hsplit] at hboundary
  · apply Nat.le_min.2
    exact ⟨byteLength_charsBefore_le offset cs, byteLength_le_of_isPrefix hprefix⟩
  · rintro o ⟨hboundary, hle⟩
    obtain ⟨before, after, rfl, rfl⟩ := hboundary.split
    have hmono := charsBefore_mono (Nat.le_trans hle (Nat.min_le_left _ _)) (before ++ after)
    rw [charsBefore_append] at hmono
    exact byteLength_le_of_isPrefix hmono

theorem goBack?_of_isGreatest (h : IsGreatest { o | IsBoundary cs o ∧ o ≤ n } o) :
    goBack? cs n = some o := by
  obtain ⟨⟨hboundary, hle⟩, hgreatest⟩ := h
  induction n with
  | zero =>
    obtain rfl : o = 0 := by omega
    rw [goBack?, if_pos hboundary]
  | succ n ih =>
    by_cases hn : IsBoundary cs (n + 1)
    · have := hgreatest ⟨hn, Nat.le_refl _⟩
      obtain rfl : o = n + 1 := by omega
      rw [goBack?, if_pos hn]
    · have hne : o ≠ n + 1 := by
        intro heq
        exact hn (heq ▸ hboundary)
      rw [goBack?, if_neg hn]
      apply ih
      · intro m hm
        exact hgreatest ⟨hm.1, Nat.le_succ_of_le hm.2⟩
      · omega

/-! Looking up the line. -/

theorem laterLineStarts_increasing (offset : Nat) (cs : List Char) :
    (laterLineStarts offset cs).Pairwise (· < ·) := by
  induction cs generalizing offset with
  | nil => exact List.Pairwise.nil
  | cons c cs ih =>
    rw [laterLineStarts]
    split
    · apply List.pairwise_cons.2
      refine ⟨?_, ih (offset + 1)⟩
      intro start hstart
      exact (mem_laterLineStarts hstart).1
    · exact ih _

theorem lineStarts_increasing (cs : List Char) : (lineStarts cs).Pairwise (· < ·) := by
  apply List.pairwise_cons.2
  refine ⟨?_, laterLineStarts_increasing 0 cs⟩
  intro start hstart
  exact (mem_laterLineStarts hstart).1

/-- Of sorted line starts, the last one that is not above the offset counts, whether or not it is the
offset itself. -/
theorem lineOf?_append {starts later : List Nat} {last : Nat}
    (hsorted : (starts ++ [last]).Pairwise (· < ·)) (hlast : last ≤ offset)
    (hlater : ∀ start ∈ later, offset < start) :
    lineOf? (starts ++ last :: later) offset = some starts.length := by
  have hbefore : ∀ start ∈ starts, ¬ offset ≤ start := by
    intro start hstart
    have := (List.pairwise_append.1 hsorted).2.2 start hstart last List.mem_cons_self
    omega
  have hskip : starts.findIdx (fun start => decide (offset ≤ start)) = starts.length := by
    apply List.findIdx_eq_length.2
    intro start hstart
    simpa using hbefore start hstart
  have hplace : (starts ++ last :: later).findIdx (fun start => decide (offset ≤ start)) =
      if last = offset then starts.length else starts.length + 1 := by
    rw [List.findIdx_append, hskip, if_neg (Nat.lt_irrefl _), List.findIdx_cons]
    by_cases heq : last = offset
    · simp [heq]
    · have hnot : ¬ offset ≤ last := by omega
      have hnext : later.findIdx (fun start => decide (offset ≤ start)) = 0 := by
        cases later with
        | nil => rfl
        | cons start later =>
          have := hlater start List.mem_cons_self
          rw [List.findIdx_cons, decide_eq_true (by omega)]
          rfl
      simp [heq, hnot, hnext, Nat.add_comm]
  unfold lineOf?
  rw [hplace]
  by_cases heq : last = offset
  · simp [heq]
  · have hnext : later[0]? ≠ some offset := by
      intro hget
      have := hlater offset (List.mem_of_getElem? hget)
      omega
    simp [heq, List.getElem?_append_right, hnext]

theorem lineOf?_lineStarts (before after : List Char) :
    lineOf? (lineStarts (before ++ after)) (byteLength before) = some (before.count '\n') := by
  obtain ⟨starts, hstarts⟩ := List.getLast?_eq_some_iff.1 (getLast?_lineStarts before)
  have hlength := length_lineStarts before
  have hsorted := lineStarts_increasing before
  have hlast : byteLength (earlierLines before) ≤ byteLength before := by
    apply byteLength_le_of_isPrefix
    exact ⟨_, earlierLines_append_lastLine before⟩
  rw [hstarts] at hlength hsorted
  rw [lineStarts_append, hstarts, List.append_assoc, List.singleton_append,
    lineOf?_append hsorted hlast]
  · rw [List.length_append, List.length_singleton] at hlength
    congr 1
    omega
  · intro start hstart
    exact (mem_laterLineStarts hstart).1

/-- The search never fails. -/
theorem positionOf?_eq (cs : List Char) (offset : Nat) :
    positionOf? cs offset = some (positionOf cs offset) := by
  have hback : goBack? cs (min offset (byteLength cs)) =
      some (byteLength (charsBefore offset cs)) :=
    goBack?_of_isGreatest (isGreatest_charsBefore cs offset)
  obtain ⟨after, hsplit⟩ := charsBefore_isPrefix offset cs
  have hline := lineOf?_lineStarts (charsBefore offset cs) after
  have hstart := getElem?_lineStarts (charsBefore offset cs) after
  have hslice := sliceBytes?_lastLine (charsBefore offset cs) after
  rw [hsplit] at hline hstart hslice
  simp [positionOf?, hback, hline, hstart, hslice, positionOf_eq_endPosition, endPosition]

/-! Counting on bytes. -/

theorem length_charBytes (c : Char) : (charBytes c).length = c.utf8Size := by
  have hval : c.val.toNat = c.toNat := rfl
  simp only [charBytes, Char.utf8Size, UInt32.le_iff_toNat_le, hval, UInt32.toNat_ofNatLT]
  split_ifs <;> first | rfl | omega

theorem bytesOf_append (as bs : List Char) : bytesOf (as ++ bs) = bytesOf as ++ bytesOf bs := by
  simp [bytesOf]

theorem length_bytesOf (cs : List Char) : (bytesOf cs).length = byteLength cs := by
  induction cs with
  | nil => rfl
  | cons c cs ih => rw [Path.bytesOf_cons, List.length_append, length_charBytes, ih, byteLength]

theorem take_bytesOf (before after : List Char) :
    (bytesOf (before ++ after)).take (byteLength before) = bytesOf before := by
  rw [bytesOf_append, ← length_bytesOf, List.take_left]

theorem newline_mem_charBytes : newline ∈ charBytes c ↔ c = '\n' := by
  constructor
  · intro hmem
    exact Char.toNat_inj.1 (Path.toNat_of_mem_charBytes hmem (by decide)).symm
  · rintro rfl
    decide

theorem count_newline_charBytes (c : Char) :
    (charBytes c).count newline = if c = '\n' then 1 else 0 := by
  split
  · rename_i hc
    subst hc
    decide
  · rename_i hc
    apply List.count_eq_zero.2
    intro hmem
    exact hc (newline_mem_charBytes.1 hmem)

/-- A newline is one byte, and no other character has that byte. -/
theorem count_newline_bytesOf (cs : List Char) : (bytesOf cs).count newline = cs.count '\n' := by
  induction cs with
  | nil => rfl
  | cons c cs ih =>
    rw [Path.bytesOf_cons, List.count_append, count_newline_charBytes, ih, List.count_cons, Nat.add_comm]
    simp

theorem rtakeWhile_bytesOf (cs : List Char) :
    (bytesOf cs).rtakeWhile (· ≠ newline) = bytesOf (lastLine cs) := by
  induction cs using List.reverseRecOn with
  | nil => rfl
  | append_singleton cs c ih =>
    have hsingle : bytesOf [c] = charBytes c := by simp [bytesOf]
    rw [bytesOf_append, hsingle, lastLine_concat]
    by_cases hc : c = '\n'
    · subst hc
      have hbyte : charBytes '\n' = [newline] := by decide
      rw [hbyte, if_pos rfl, List.rtakeWhile_concat]
      simp [bytesOf]
    · have hall : ∀ b ∈ charBytes c, decide (b ≠ newline) = true := by
        intro b hb
        apply decide_eq_true
        rintro rfl
        exact hc (newline_mem_charBytes.1 hb)
      rw [if_neg hc, bytesOf_append, hsingle, ← ih, List.rtakeWhile, List.reverse_append,
        List.takeWhile_append_of_pos (by simpa using hall), List.reverse_append, List.reverse_reverse,
        List.rtakeWhile]

theorem length_codeUnits (cs : List Char) : (cs.flatMap codeUnits).length = unitLength cs := by
  induction cs with
  | nil => rfl
  | cons c cs ih =>
    have hunits : (codeUnits c).length = units c := by
      simp only [codeUnits, units]
      split <;> rfl
    rw [List.flatMap_cons, List.length_append, hunits, ih, unitLength]

theorem countedPosition_append (before after : List Char) :
    countedPosition (bytesOf (before ++ after)) (byteLength before) = some (endPosition before) := by
  simp only [countedPosition, take_bytesOf, rtakeWhile_bytesOf, decodeChars?_bytesOf, Option.map_some,
    count_newline_bytesOf, length_codeUnits, endPosition]

/-! Order. -/

theorem endPosition_lt_append (h : more ≠ []) (before : List Char) :
    endPosition before < endPosition (before ++ more) := by
  obtain ⟨c, rest, rfl⟩ := List.exists_cons_of_ne_nil h
  have hstep := endPosition_lt_concat before c
  have hrest := endPosition_le_append (before ++ [c]) rest
  rw [List.append_assoc, List.singleton_append] at hrest
  exact lt_of_lt_of_le hstep hrest

theorem positionOf_lt (h : a ≤ b)
    (hne : byteLength (charsBefore a cs) ≠ byteLength (charsBefore b cs)) :
    positionOf cs a < positionOf cs b := by
  rw [positionOf_eq_endPosition, positionOf_eq_endPosition]
  obtain ⟨more, hmore⟩ := charsBefore_mono h cs
  rw [← hmore] at hne ⊢
  apply endPosition_lt_append
  rintro rfl
  simp at hne

/-- Searching for the position of an offset, among line starts that are sorted, succeeds, and finds what
counting on the bytes before the largest boundary up to the offset finds. Positions grow with offsets,
and strictly so between offsets that go back to different boundaries. -/
theorem positionOf_counted (cs : List Char) :
    (lineStarts cs).Pairwise (· < ·) ∧
    (∀ offset, ∃ o, IsGreatest (boundariesUpTo cs offset) o ∧
      positionOf? cs offset = some (positionOf cs offset) ∧
      countedPosition (bytesOf cs) o = some (positionOf cs offset)) ∧
    ∀ a b o o', a ≤ b → IsGreatest (boundariesUpTo cs a) o → IsGreatest (boundariesUpTo cs b) o' →
      positionOf cs a ≤ positionOf cs b ∧ (o ≠ o' → positionOf cs a < positionOf cs b) := by
  refine ⟨lineStarts_increasing cs, ?_, ?_⟩
  · intro offset
    refine ⟨_, isGreatest_charsBefore cs offset, positionOf?_eq cs offset, ?_⟩
    obtain ⟨after, hsplit⟩ := charsBefore_isPrefix offset cs
    have hcounted := countedPosition_append (charsBefore offset cs) after
    rwa [hsplit, ← positionOf_eq_endPosition] at hcounted
  · intro a b o o' hab ha hb
    obtain rfl := ha.unique (isGreatest_charsBefore cs a)
    obtain rfl := hb.unique (isGreatest_charsBefore cs b)
    exact ⟨positionOf_mono cs hab, positionOf_lt hab⟩

/-- Offset 1 is inside the first character and goes back to the start. Offset 10 is inside the second
emoji of the next line and goes back to it, three units into the line. -/
theorem positionOf_counted_emoji :
    let cs := "é\n😀x😀y".toList
    IsGreatest (boundariesUpTo cs 1) 0 ∧ IsGreatest (boundariesUpTo cs 10) 8 ∧
      positionOf cs 1 = ⟨0, 0⟩ ∧ positionOf cs 10 = ⟨1, 3⟩ ∧ positionOf cs 1 < positionOf cs 10 := by
  intro cs
  have ha : IsGreatest (boundariesUpTo cs 1) 0 := isGreatest_charsBefore cs 1
  have hb : IsGreatest (boundariesUpTo cs 10) 8 := isGreatest_charsBefore cs 10
  refine ⟨ha, hb, by decide, by decide, ?_⟩
  exact ((positionOf_counted cs).2.2 1 10 0 8 (by decide) ha hb).2 (by decide)

end Dependents.Text
