import Dependents.Proofs.Numerals
import Dependents.Report.Text

/-! Locations as people write them, counted from one: two parts around the first colon that spell
positive numbers of one word. What a report writes in its column is such a text. -/
namespace Dependents.Position

variable {raw : String} {p : Position} {linePart columnPart : List Char}

/-- A text that names a position: its first colon divides it into two parts that spell the line and the
character, both counted from one and small enough for a word. -/
structure Divides (raw : String) (p : Position) (linePart columnPart : List Char) : Prop where
  text : raw.toList = linePart ++ ':' :: columnPart
  first : ':' ∉ linePart
  line : Text.Spells linePart (p.line + 1)
  lineFits : p.line + 1 < Text.wordBound
  character : Text.Spells columnPart (p.character + 1)
  characterFits : p.character + 1 < Text.wordBound

theorem ne_colon (h : ':' ∉ linePart) : ∀ c ∈ linePart, (c != ':') = true := by
  intro c hc
  have hne : c ≠ ':' := fun heq => h (heq ▸ hc)
  simpa using hne

theorem ofLocation_of_not_mem (h : ':' ∉ raw.toList) : ofLocation raw = .error (.noColon raw) := by
  have hnone : raw.toList.dropWhile (· != ':') = [] := by
    rw [List.dropWhile_eq_nil_iff]
    exact ne_colon h
  simp only [ofLocation, hnone]

/-- Of a text that is divided, both parts are read. Zero is no line and no column, so one can be taken
off. -/
theorem ofLocation_of_divided (htext : raw.toList = linePart ++ ':' :: columnPart)
    (hfirst : ':' ∉ linePart) : ofLocation raw = .ok p ↔
      Text.readWord? (Text.trimBlank linePart) = some (p.line + 1) ∧
        Text.readWord? (Text.trimBlank columnPart) = some (p.character + 1) := by
  have htake : (linePart ++ ':' :: columnPart).takeWhile (· != ':') = linePart := by
    rw [List.takeWhile_append_of_pos (ne_colon hfirst)]
    simp
  have hdrop : (linePart ++ ':' :: columnPart).dropWhile (· != ':') = ':' :: columnPart := by
    rw [List.dropWhile_append_of_pos (ne_colon hfirst)]
    simp
  simp only [ofLocation, htext, htake, hdrop]
  cases Text.readWord? (Text.trimBlank linePart) with
  | none => simp
  | some line =>
    cases Text.readWord? (Text.trimBlank columnPart) with
    | none => simp
    | some column =>
      obtain ⟨l, c⟩ := p
      simp only [Option.some.injEq]
      split
      · rename_i hzero
        refine iff_of_false (fun h => by cases h) ?_
        omega
      · rename_i hpositive
        simp only [Except.ok.injEq, Position.mk.injEq]
        omega

theorem ofLocation_eq_ok :
    ofLocation raw = .ok p ↔ ∃ linePart columnPart, Divides raw p linePart columnPart := by
  constructor
  · intro h
    have hcolon : ':' ∈ raw.toList := by
      by_contra hnone
      rw [ofLocation_of_not_mem hnone] at h
      cases h
    obtain ⟨linePart, columnPart, htext, hfirst⟩ := List.eq_append_cons_of_mem hcolon
    obtain ⟨hline, hcharacter⟩ := (ofLocation_of_divided htext hfirst).1 h
    obtain ⟨hline, hlineFits⟩ := Text.readWord?_trimBlank.1 hline
    obtain ⟨hcharacter, hcharacterFits⟩ := Text.readWord?_trimBlank.1 hcharacter
    exact ⟨linePart, columnPart, htext, hfirst, hline, hlineFits, hcharacter, hcharacterFits⟩
  · rintro ⟨linePart, columnPart, h⟩
    rw [ofLocation_of_divided h.text h.first]
    exact ⟨Text.readWord?_trimBlank.2 ⟨h.line, h.lineFits⟩,
      Text.readWord?_trimBlank.2 ⟨h.character, h.characterFits⟩⟩

/-! What is written. -/

theorem toList_location (p : Position) : p.location.toList =
    Nat.toDigits 10 (p.line + 1) ++ ':' :: Nat.toDigits 10 (p.character + 1) := by
  simp [location, Text.decimal]

theorem toList_padRight (width : Nat) (s : String) :
    (Report.padRight width s).toList = s.toList ++ List.replicate (width - s.length) ' ' := by
  simp [Report.padRight]

theorem colon_not_mem_toDigits (n : Nat) : ':' ∉ Nat.toDigits 10 n := by
  intro h
  exact absurd (Text.isDigit_of_mem_toDigits h) (by decide)

/-- A location names its position, however far it is padded. -/
theorem divides_padRight (hline : p.line + 1 < Text.wordBound)
    (hcharacter : p.character + 1 < Text.wordBound) (width : Nat) :
    ∃ linePart columnPart, Divides (Report.padRight width p.location) p linePart columnPart := by
  have hblank : ∀ c ∈ List.replicate (width - p.location.length) ' ', Text.isBlank c = true := by
    intro c hc
    rw [List.eq_of_mem_replicate hc]
    decide
  refine ⟨Nat.toDigits 10 (p.line + 1),
    Nat.toDigits 10 (p.character + 1) ++ List.replicate (width - p.location.length) ' ',
    ?_, colon_not_mem_toDigits _, ?_, hline, ?_, hcharacter⟩
  · rw [toList_padRight, toList_location, List.append_assoc, List.cons_append]
  · have hspells := (Text.isNumeral_toDigits (p.line + 1)).spells fun c hc => absurd hc List.not_mem_nil
    rwa [List.append_nil] at hspells
  · exact (Text.isNumeral_toDigits (p.character + 1)).spells hblank

theorem edgeLine_column (edge : Edge) : ∃ rest,
    Report.edgeLine edge = Report.padRight Report.locationWidth edge.position.location ++ " " ++ rest := by
  obtain ⟨dependent, position, function, caller⟩ := edge
  cases caller with
  | none =>
    refine ⟨function ++ "  " ++ "at module scope", ?_⟩
    simp only [Report.edgeLine, String.append_assoc]
  | some caller =>
    refine ⟨function ++ "  " ++ ("in " ++ caller), ?_⟩
    simp only [Report.edgeLine, String.append_assoc]

/-- A text is read as a position if and only if its first colon divides it into two parts that, white
space apart, are digits after at most one plus sign and spell the line and the character, counted from
one and below the bound of a word. What a report writes in the column of an edge's location, blanks
included, is read as the edge's position. -/
theorem ofLocation_grammar :
    (∀ raw p, ofLocation raw = .ok p ↔ ∃ linePart columnPart, Divides raw p linePart columnPart) ∧
    ∀ edge : Edge, edge.position.line < Text.wordBound - 1 →
      edge.position.character < Text.wordBound - 1 →
        let column := Report.padRight Report.locationWidth edge.position.location
        (∃ rest, Report.edgeLine edge = column ++ " " ++ rest) ∧
          ofLocation column = .ok edge.position := by
  refine ⟨fun raw p => ofLocation_eq_ok, ?_⟩
  intro edge hline hcharacter column
  refine ⟨edgeLine_column edge, ?_⟩
  rw [ofLocation_eq_ok]
  exact divides_padRight (by omega) (by omega) Report.locationWidth

theorem ofLocation_grammar_padded :
    (∃ linePart columnPart, Divides " +03 : 7\t" ⟨2, 6⟩ linePart columnPart) ∧
    let edge : Edge := ⟨⟨"a.ts"⟩, ⟨2, 6⟩, "format", none⟩
    (edge.position.line < Text.wordBound - 1 ∧ edge.position.character < Text.wordBound - 1) ∧
      ofLocation "3:7     " = .ok edge.position := by
  refine ⟨(ofLocation_grammar.1 " +03 : 7\t" ⟨2, 6⟩).1 (by decide), ?_⟩
  intro edge
  have hcolumn : Report.padRight Report.locationWidth edge.position.location = "3:7     " := by decide
  rw [← hcolumn]
  exact ⟨by decide, (ofLocation_grammar.2 edge (by decide) (by decide)).2⟩

end Dependents.Position
