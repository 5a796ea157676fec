import Dependents.Json.Printer
import Dependents.Json.Reader
import Dependents.Proofs.Numerals

/-! What is printed is read back, in either layout. Nothing that follows a value in a text can go on
with it, and every step of the reader's fuel uses up characters. -/
namespace Dependents

namespace Json

variable {c : Char} {cs blank rest : List Char} {layout : Layout} {depth fuel level : Nat}
  {value item : Json} {items : List Json} {fields : List (String × Json)} {name : String}

/-! Strings. -/

theorem hexValue?_hexDigit : ∀ d < 16, hexValue? (hexDigit d) = some d := by
  decide

theorem readUnit?_hexDigit {n : Nat} (h : n < 256) (more : List Char) :
    readUnit? ('0' :: '0' :: hexDigit (n / 16) :: hexDigit (n % 16) :: more) = some (n, more) := by
  have hzero : hexValue? '0' = some 0 := rfl
  have hvalue : n / 16 * 16 + n % 16 = n := Nat.div_add_mod' n 16
  simp [readUnit?, hzero, hexValue?_hexDigit (n / 16) (by omega),
    hexValue?_hexDigit (n % 16) (by omega), hvalue]

/-- An escaped character is read as itself. -/
theorem readChar?_escapeChar (c : Char) (more : List Char) :
    readChar? (escapeChar c ++ more) = some (c, more) := by
  by_cases hnamed : c ∈ ['\x22', '\\', '\x08', '\x09', '\x0a', '\x0c', '\x0d']
  · -- These have a letter of their own.
    simp only [List.mem_cons, List.not_mem_nil, or_false] at hnamed
    rcases hnamed with rfl | rfl | rfl | rfl | rfl | rfl | rfl <;> rfl
  simp only [List.mem_cons, List.not_mem_nil, or_false, not_or] at hnamed
  obtain ⟨hquote, hbackslash, hb, ht, hn, hf, hr⟩ := hnamed
  rw [escapeChar, if_neg hquote, if_neg hbackslash, if_neg hb, if_neg ht, if_neg hn, if_neg hf, if_neg hr]
  by_cases hcontrol : c.toNat < 0x20
  · rw [if_pos hcontrol]
    change readNumbered? ('0' :: '0' :: hexDigit (c.toNat / 16) :: hexDigit (c.toNat % 16) :: more) = _
    rw [readNumbered?, readUnit?_hexDigit (by omega), Option.bind_some]
    dsimp only
    rw [if_neg (by omega), if_neg (by omega), Char.ofNat_toNat]
  · rw [if_neg hcontrol, List.singleton_append, readChar?]
    · exact if_neg (not_or.2 ⟨hcontrol, hbackslash⟩)
    · intro _ heq
      exact absurd heq hbackslash
    · intro _ _ heq
      exact absurd heq hbackslash

theorem readText?_quote (rest : List Char) : readText? ('\x22' :: rest) = some ([], rest) := by
  rw [readText?]
  rfl

theorem head?_escapeChar (c : Char) (more : List Char) : (escapeChar c ++ more).head? ≠ some '\x22' := by
  unfold escapeChar
  split
  · simp
  · rename_i hquote
    repeat' split
    all_goals simp [hquote]

theorem readText?_escapeChar (c : Char) (more : List Char) :
    readText? (escapeChar c ++ more) = (readText? more).map fun (text, rest) => (c :: text, rest) := by
  rw [readText?, if_neg (head?_escapeChar c more)]
  split
  · rename_i d rest hread
    rw [readChar?_escapeChar] at hread
    cases hread
    rfl
  · rename_i hread
    rw [readChar?_escapeChar] at hread
    cases hread

/-- A quoted text is read up to its closing quote. -/
theorem readText?_flatMap (text rest : List Char) :
    readText? (text.flatMap escapeChar ++ '\x22' :: rest) = some (text, rest) := by
  induction text with
  | nil => exact readText?_quote rest
  | cons c text ih =>
    rw [List.flatMap_cons, List.append_assoc, readText?_escapeChar, ih]
    rfl

/-! Numbers. -/

/-- What can follow a value: a blank, a comma, a closing bracket or nothing. -/
def Ends (rest : List Char) : Prop :=
  ∀ c ∈ rest.head?, c ∈ [' ', '\t', '\n', '\r', ',', ']', '\x7d']

theorem Ends.apart (h : Ends rest) (hc : c ∈ rest.head?) :
    c.isDigit = false ∧ c ≠ '.' ∧ c ≠ 'e' ∧ c ≠ 'E' := by
  have hall : ∀ c ∈ [' ', '\t', '\n', '\r', ',', ']', '\x7d'],
      c.isDigit = false ∧ c ≠ '.' ∧ c ≠ 'e' ∧ c ≠ 'E' := by simp
  exact hall c (h c hc)

theorem digits_append (hcs : ∀ c ∈ cs, c.isDigit = true) (h : Ends rest) :
    digits (cs ++ rest) = (cs, rest) := by
  rw [digits, List.takeWhile_append_of_pos hcs, List.dropWhile_append_of_pos hcs]
  cases rest with
  | nil => simp
  | cons c rest =>
    have hc : c.isDigit = false := (h.apart (Option.mem_some_self c)).1
    simp [hc]

theorem Ends.readFraction? (h : Ends rest) : readFraction? rest = some ([], rest) := by
  cases rest with
  | nil => rfl
  | cons c rest =>
    have hc := (h.apart (Option.mem_some_self c)).2.1
    rw [Json.readFraction?]
    intro _ heq
    exact absurd (List.cons.inj heq).1 hc

theorem Ends.readExponent? (h : Ends rest) : readExponent? rest = some (false, [], rest) := by
  cases rest with
  | nil => rfl
  | cons c rest =>
    obtain ⟨_, _, he, hE⟩ := h.apart (Option.mem_some_self c)
    exact if_neg (not_or.2 ⟨he, hE⟩)

theorem fitsDouble_of_lt {n : Nat} (h : n < Text.wordBound) : fitsDouble n 0 = true := by
  have hbound : Text.wordBound ≤ Nat.pow 2 1024 - Nat.pow 2 970 := by decide +kernel
  have hlt := Nat.lt_of_lt_of_le h hbound
  unfold fitsDouble
  generalize Nat.pow 2 1024 - Nat.pow 2 970 = bound at hlt
  simpa using Or.inr hlt

/-- The digits of a word are read as a number. -/
theorem readNumber?_toDigits {n : Nat} (hn : n < Text.wordBound) (h : Ends rest) :
    readNumber? (Nat.toDigits 10 n ++ rest) = some (.natural n, rest) := by
  have hall : ∀ c ∈ Nat.toDigits 10 n, c.isDigit = true :=
    fun c hc => Nat.isDigit_of_mem_toDigits (by decide) (by decide) hc
  have hhead : ∀ {c more}, Nat.toDigits 10 n ++ rest = c :: more →
      (Nat.toDigits 10 n).head? = some c := by
    intro c more heq
    rw [← List.head?_append_of_ne_nil _ Nat.toDigits_ne_nil, heq]
    rfl
  have hvalue : valueOf (Nat.toDigits 10 n) = n := by
    rw [valueOf, Text.readDigits_toDigits, Option.getD_some]
  have hempty : (Nat.toDigits 10 n).isEmpty = false := by
    simp [Nat.toDigits_ne_nil]
  unfold readNumber?
  split
  rename_i negative unsigned hsign
  split
  rename_i whole more hwhole
  -- There is no sign, since the text begins with a digit.
  obtain ⟨rfl, rfl⟩ : false = negative ∧ Nat.toDigits 10 n ++ rest = unsigned := by
    split at hsign
    · rename_i heq
      cases hall '-' (List.mem_of_head? (hhead heq))
    · exact Prod.mk.inj hsign
  -- If it begins with a zero, that is all there is.
  obtain ⟨rfl, rfl⟩ : Nat.toDigits 10 n = whole ∧ rest = more := by
    split at hwhole
    · rename_i heq
      obtain rfl := Text.head?_toDigits (hhead heq)
      obtain ⟨rfl, rfl⟩ := Prod.mk.inj hwhole
      exact ⟨rfl, (List.cons.inj heq).2⟩
    · rw [digits_append hall h] at hwhole
      exact Prod.mk.inj hwhole
  have hnone : valueOf [] = 0 := rfl
  simp [hempty, h.readFraction?, h.readExponent?, hvalue, hnone, fitsDouble_of_lt hn]

/-- A number begins like no other value. -/
theorem toDigits_cons (n : Nat) : ∃ d ds, Nat.toDigits 10 n = d :: ds ∧ isSpace d = false ∧
    d ∉ ['\x22', '[', ']', '\x7b', 't', 'f', 'n'] := by
  obtain ⟨d, ds, hds⟩ := List.exists_cons_of_ne_nil (Nat.toDigits_ne_nil (n := n) (b := 10))
  have hd : d.isDigit = true :=
    Nat.isDigit_of_mem_toDigits (by decide) (by decide) (hds ▸ List.mem_cons_self)
  have hmarks : ∀ c ∈ [' ', '\t', '\n', '\r', '\x22', '[', ']', '\x7b', 't', 'f', 'n'],
      c.isDigit = false := by simp
  have hapart : d ∉ [' ', '\t', '\n', '\r', '\x22', '[', ']', '\x7b', 't', 'f', 'n'] := by
    intro hmem
    rw [hmarks d hmem] at hd
    cases hd
  refine ⟨d, ds, hds, ?_, ?_⟩
  · simp_all [isSpace]
  · simp_all

/-! Blanks. -/

theorem isSpace_of_mem_lineBreak (h : c ∈ layout.lineBreak level) : isSpace c = true := by
  cases layout with
  | compact => cases h
  | indented =>
    rcases List.mem_cons.1 h with rfl | h
    · rfl
    · rw [(List.mem_replicate.1 h).2]
      rfl

theorem skipSpace_append (h : ∀ c ∈ blank, isSpace c = true) :
    skipSpace (blank ++ cs) = skipSpace cs :=
  List.dropWhile_append_of_pos h

theorem skipSpace_cons (h : isSpace c = false) : skipSpace (c :: cs) = c :: cs := by
  rw [skipSpace, List.dropWhile_cons_of_neg (by simp [h])]

theorem skipSpace_lineBreak (layout : Layout) (level : Nat) (h : isSpace c = false) :
    skipSpace (layout.lineBreak level ++ c :: cs) = c :: cs := by
  rw [skipSpace_append fun _ => isSpace_of_mem_lineBreak, skipSpace_cons h]

theorem readValue?_append (h : ∀ c ∈ blank, isSpace c = true) :
    readValue? fuel depth (blank ++ cs) = readValue? fuel depth cs := by
  cases fuel with
  | zero => rw [readValue?, readValue?]
  | succ fuel => rw [readValue?, readValue?, skipSpace_append h]

theorem ends_lineBreak (layout : Layout) (level : Nat) (rest : List Char)
    (h : c ∈ [',', ']', '\x7d']) : Ends (layout.lineBreak level ++ c :: rest) := by
  intro d hd
  cases layout with
  | compact =>
    obtain rfl : c = d := Option.some.inj hd
    exact List.mem_append_right [' ', '\t', '\n', '\r'] h
  | indented =>
    obtain rfl : '\n' = d := Option.some.inj hd
    decide

/-! Containers. -/

/-- The values that are printed: numbers are words, and containers nest at most `depth` deep. -/
inductive Shallow : Nat → Json → Prop
  | null {depth : Nat} : Shallow depth .null
  | bool {depth : Nat} (b : Bool) : Shallow depth (.bool b)
  | natural {depth n : Nat} (h : n < Text.wordBound) : Shallow depth (.natural n)
  | string {depth : Nat} (s : String) : Shallow depth (.string s)
  | array {depth : Nat} {items : List Json} (h : ∀ item ∈ items, Shallow depth item) :
    Shallow (depth + 1) (.array items)
  | object {depth : Nat} {fields : List (String × Json)} (h : ∀ entry ∈ fields, Shallow depth entry.2) :
    Shallow (depth + 1) (.object fields)

/-- A printed value begins with a character of its own. -/
theorem Shallow.print_cons (h : Shallow depth value) (layout : Layout) (level : Nat) :
    ∃ c more, print layout level value = c :: more ∧ isSpace c = false ∧ c ≠ ']' := by
  cases h with
  | null => exact ⟨_, _, print.eq_1 .., rfl, by decide⟩
  | bool b =>
    cases b with
    | true => exact ⟨_, _, print.eq_2 .., rfl, by decide⟩
    | false => exact ⟨_, _, print.eq_3 .., rfl, by decide⟩
  | @natural depth n h =>
    obtain ⟨d, ds, hds, hspace, hother⟩ := toDigits_cons n
    refine ⟨d, ds, hds, hspace, ?_⟩
    rintro rfl
    simp at hother
  | string s => exact ⟨_, _, print.eq_6 .., rfl, by decide⟩
  | @array depth items h =>
    cases items with
    | nil => exact ⟨_, _, print.eq_7 .., rfl, by decide⟩
    | cons item items => exact ⟨_, _, print.eq_8 .., rfl, by decide⟩
  | @object depth fields h =>
    cases fields with
    | nil => exact ⟨_, _, print.eq_9 .., rfl, by decide⟩
    | cons entry fields => exact ⟨_, _, print.eq_10 .., rfl, by decide⟩

/-- Printed at a level and followed by what can follow it, a value is read back. -/
def ReadBack (layout : Layout) (depth level : Nat) (value : Json) : Prop :=
  ∀ fuel rest, 2 * (print layout level value).length ≤ fuel → Ends rest →
    readValue? fuel depth (print layout level value ++ rest) = some (value, rest)

theorem ends_printItems (layout : Layout) (level outer : Nat) (items : List Json) (rest : List Char) :
    Ends (printItems layout level items ++ (layout.lineBreak outer ++ ']' :: rest)) := by
  cases items with
  | nil => exact ends_lineBreak layout outer rest (by decide)
  | cons item items => exact ends_lineBreak .compact 0 _ (by decide)

/-- The items of an array, from the first one to the closing bracket. -/
theorem readItems?_print (hitems : ∀ v ∈ item :: items, ReadBack layout depth level v) (outer : Nat)
    (rest : List Char)
    (hfuel : 2 * (print layout level item ++ printItems layout level items).length < fuel) :
    readItems? fuel depth (layout.lineBreak level ++ (print layout level item ++
      (printItems layout level items ++ (layout.lineBreak outer ++ ']' :: rest)))) =
        some (item :: items, rest) := by
  induction items generalizing item fuel with
  | nil =>
    obtain ⟨fuel, rfl⟩ := Nat.exists_eq_succ_of_ne_zero (Nat.ne_zero_of_lt hfuel)
    simp only [List.length_append, printItems, List.length_nil] at hfuel
    have hitem := hitems item List.mem_cons_self fuel _ (by omega)
      (ends_printItems layout level outer [] rest)
    rw [readItems?, readValue?_append fun _ => isSpace_of_mem_lineBreak, hitem]
    have hclose : skipSpace (layout.lineBreak outer ++ ']' :: rest) = ']' :: rest :=
      skipSpace_lineBreak layout outer rfl
    simp only [printItems, List.nil_append, Option.bind_some, hclose]
  | cons next items ih =>
    obtain ⟨fuel, rfl⟩ := Nat.exists_eq_succ_of_ne_zero (Nat.ne_zero_of_lt hfuel)
    simp only [List.length_append, printItems, List.length_cons] at hfuel
    have hitem := hitems item List.mem_cons_self fuel _ (by omega)
      (ends_printItems layout level outer (next :: items) rest)
    have hless : 2 * (print layout level next ++ printItems layout level items).length < fuel := by
      rw [List.length_append]
      omega
    have hmore := ih (fun v hv => hitems v (List.mem_cons_of_mem item hv)) hless
    rw [readItems?, readValue?_append fun _ => isSpace_of_mem_lineBreak, hitem]
    have hcomma : ∀ cs, skipSpace (',' :: cs) = ',' :: cs := fun cs => skipSpace_cons rfl
    simp only [printItems, List.cons_append, List.append_assoc, Option.bind_some, hcomma, hmore,
      Option.map_some]

theorem ends_printFields (layout : Layout) (level outer : Nat) (fields : List (String × Json))
    (rest : List Char) :
    Ends (printFields layout level fields ++ (layout.lineBreak outer ++ '\x7d' :: rest)) := by
  cases fields with
  | nil => exact ends_lineBreak layout outer rest (by decide)
  | cons entry fields => exact ends_lineBreak .compact 0 _ (by decide)

theorem quote_append (name : String) (rest : List Char) :
    quote name ++ rest = '\x22' :: (name.toList.flatMap escapeChar ++ '\x22' :: rest) := by
  simp [quote]

theorem readValue?_colon (layout : Layout) (fuel depth : Nat) (cs : List Char) :
    ∃ more, layout.colon ++ cs = ':' :: more ∧ readValue? fuel depth more = readValue? fuel depth cs := by
  cases layout with
  | compact => exact ⟨cs, rfl, rfl⟩
  | indented =>
    have hblank : ∀ c ∈ [' '], isSpace c = true := List.forall_mem_singleton.2 rfl
    exact ⟨' ' :: cs, rfl, readValue?_append hblank⟩

/-- One field is read up to what follows it, which is the end of the object or the next field. -/
theorem readFields?_field (hvalue : ReadBack layout depth level value)
    (hfuel : 2 * (print layout level value).length ≤ fuel) (hends : Ends rest) (after : List Char) :
    let text := layout.lineBreak level ++ (quote name ++ (layout.colon ++
      (print layout level value ++ rest)))
    (skipSpace rest = '\x7d' :: after →
      readFields? (fuel + 1) depth text = some ([(name, value)], after)) ∧
    (skipSpace rest = ',' :: after → readFields? (fuel + 1) depth text =
      (readFields? fuel depth after).map fun (fields, last) => ((name, value) :: fields, last)) := by
  intro text
  obtain ⟨more, hcolon, hskip⟩ :=
    readValue?_colon layout fuel depth (print layout level value ++ rest)
  have hquote : ∀ cs, skipSpace (layout.lineBreak level ++ '\x22' :: cs) = '\x22' :: cs :=
    fun cs => skipSpace_lineBreak layout level rfl
  have hseparator : skipSpace (':' :: more) = ':' :: more := skipSpace_cons rfl
  simp only [text, hcolon, quote_append]
  rw [readFields?]
  constructor
  · intro hrest
    simp only [hquote, readText?_flatMap, Option.bind_some, hseparator, hskip,
      hvalue fuel rest hfuel hends, hrest, String.ofList_toList]
  · intro hrest
    simp only [hquote, readText?_flatMap, Option.bind_some, hseparator, hskip,
      hvalue fuel rest hfuel hends, hrest, String.ofList_toList]

/-- The fields of an object, from the first one to the closing brace. -/
theorem readFields?_print (hfields : ∀ entry ∈ (name, value) :: fields,
      ReadBack layout depth level entry.2) (outer : Nat) (rest : List Char)
    (hfuel : 2 * (print layout level value ++ printFields layout level fields).length < fuel) :
    readFields? fuel depth (layout.lineBreak level ++ (quote name ++ (layout.colon ++
      (print layout level value ++ (printFields layout level fields ++
        (layout.lineBreak outer ++ '\x7d' :: rest)))))) = some ((name, value) :: fields, rest) := by
  induction fields generalizing name value fuel with
  | nil =>
    obtain ⟨fuel, rfl⟩ := Nat.exists_eq_succ_of_ne_zero (Nat.ne_zero_of_lt hfuel)
    simp only [List.length_append, printFields, List.length_nil] at hfuel
    have hvalue : ReadBack layout depth level value := hfields _ List.mem_cons_self
    have hclose : skipSpace (layout.lineBreak outer ++ '\x7d' :: rest) = '\x7d' :: rest :=
      skipSpace_lineBreak layout outer rfl
    exact (readFields?_field hvalue (by omega) (ends_printFields layout level outer [] rest) rest).1 hclose
  | cons entry fields ih =>
    obtain ⟨next, nextValue⟩ := entry
    obtain ⟨fuel, rfl⟩ := Nat.exists_eq_succ_of_ne_zero (Nat.ne_zero_of_lt hfuel)
    simp only [List.length_append, printFields, List.length_cons] at hfuel
    have hvalue : ReadBack layout depth level value := hfields _ List.mem_cons_self
    have hless : 2 * (print layout level nextValue ++ printFields layout level fields).length < fuel := by
      rw [List.length_append]
      omega
    have hnext : ∀ entry ∈ (next, nextValue) :: fields, ReadBack layout depth level entry.2 :=
      fun entry hentry => hfields entry (List.mem_cons_of_mem _ hentry)
    have hmore := ih hnext hless
    have hends := ends_printFields layout level outer ((next, nextValue) :: fields) rest
    have hcomma : skipSpace (printFields layout level ((next, nextValue) :: fields) ++
        (layout.lineBreak outer ++ '\x7d' :: rest)) = ',' :: (layout.lineBreak level ++ (quote next ++
          (layout.colon ++ (print layout level nextValue ++ (printFields layout level fields ++
            (layout.lineBreak outer ++ '\x7d' :: rest)))))) := by
      simp only [printFields, List.cons_append, List.append_assoc]
      exact skipSpace_cons rfl
    rw [(readFields?_field hvalue (by omega) hends _).2 hcomma, hmore, Option.map_some]

theorem readBack_array (hitems : ∀ v ∈ item :: items, ReadBack layout depth (level + 1) v)
    (hfirst : ∃ c more, print layout (level + 1) item = c :: more ∧ isSpace c = false ∧ c ≠ ']') :
    ReadBack layout (depth + 1) level (.array (item :: items)) := by
  rintro (_ | fuel) rest hfuel _
  · cases hfuel
  simp only [print, List.length_cons, List.length_append] at hfuel
  have hless : 2 * (print layout (level + 1) item ++
      printItems layout (level + 1) items).length < fuel := by
    rw [List.length_append]
    omega
  have hread := readItems?_print hitems level rest hless
  obtain ⟨c, more, hprint, hspace, hbracket⟩ := hfirst
  have hopen : ∀ cs, skipSpace (layout.lineBreak (level + 1) ++
      (print layout (level + 1) item ++ cs)) = c :: (more ++ cs) := by
    intro cs
    rw [hprint]
    exact skipSpace_lineBreak layout (level + 1) hspace
  simp only [print, List.cons_append, List.append_assoc, List.nil_append]
  rw [readValue?, skipSpace_cons rfl]
  simp [hopen, hread, hbracket]

theorem readBack_object {entry : String × Json}
    (hfields : ∀ e ∈ entry :: fields, ReadBack layout depth (level + 1) e.2) :
    ReadBack layout (depth + 1) level (.object (entry :: fields)) := by
  obtain ⟨name, value⟩ := entry
  rintro (_ | fuel) rest hfuel _
  · cases hfuel
  simp only [print, List.length_cons, List.length_append] at hfuel
  have hless : 2 * (print layout (level + 1) value ++
      printFields layout (level + 1) fields).length < fuel := by
    rw [List.length_append]
    omega
  have hread := readFields?_print hfields level rest hless
  have hopen : ∀ cs, skipSpace (layout.lineBreak (level + 1) ++ (quote name ++ cs)) =
      '\x22' :: (name.toList.flatMap escapeChar ++ '\x22' :: cs) := by
    intro cs
    rw [quote_append]
    exact skipSpace_lineBreak layout (level + 1) rfl
  simp only [print, List.cons_append, List.append_assoc, List.nil_append]
  rw [readValue?, skipSpace_cons rfl]
  simp [hopen, hread]

/-- A value is read back from its text, in whatever place it was printed. -/
theorem Shallow.readBack (h : Shallow depth value) (layout : Layout) (level : Nat) :
    ReadBack layout depth level value := by
  induction h generalizing level with
  | null =>
    rintro (_ | fuel) rest hfuel _
    · cases hfuel
    · rfl
  | bool b =>
    rintro (_ | fuel) rest hfuel _
    · cases b <;> cases hfuel
    · cases b <;> rfl
  | @natural depth n h =>
    rintro (_ | fuel) rest hfuel hends
    · have hlength : 0 < (Nat.toDigits 10 n).length := Nat.length_toDigits_pos
      rw [print] at hfuel
      omega
    · obtain ⟨d, ds, hds, hspace, hother⟩ := toDigits_cons n
      simp only [List.mem_cons, List.not_mem_nil, or_false, not_or] at hother
      have hnumber := readNumber?_toDigits h hends
      rw [hds, List.cons_append] at hnumber
      rw [print, hds, List.cons_append, readValue?, skipSpace_cons hspace]
      simp only [hother, if_false, hnumber]
  | string s =>
    rintro (_ | fuel) rest hfuel _
    · cases hfuel
    · rw [print, quote_append, readValue?, skipSpace_cons rfl]
      simp only [if_true, readText?_flatMap, Option.map_some, String.ofList_toList]
  | @array depth items h ih =>
    cases items with
    | nil =>
      rintro (_ | fuel) rest hfuel _
      · cases hfuel
      · rfl
    | cons item items =>
      exact readBack_array (fun v hv => ih v hv (level + 1))
        ((h item List.mem_cons_self).print_cons layout (level + 1))
  | @object depth fields h ih =>
    cases fields with
    | nil =>
      rintro (_ | fuel) rest hfuel _
      · cases hfuel
      · rfl
    | cons entry fields => exact readBack_object fun entry hentry => ih entry hentry (level + 1)

/-- A printed text is read as the value that was printed. -/
theorem read?_render (h : Shallow maxDepth value) (layout : Layout) :
    read? (render layout value) = some value := by
  have hread := h.readBack layout 0 (2 * (print layout 0 value).length + 2) []
    (Nat.le_add_right _ 2) (by rintro c ⟨⟩)
  rw [List.append_nil] at hread
  simp only [read?, render, String.toList_ofList, hread]
  rfl

end Json

end Dependents
