import Dependents.Text.Blank
import Dependents.Text.Decimal
import Mathlib.Data.List.Basic
import Mathlib.Data.List.TakeWhile

/-! Numbers in decimal digits. What is printed is read back, and a word is read from exactly those parts
of a text that spell one: digits after at most one plus sign, with white space around. -/
namespace Dependents.Text

variable {c : Char} {cs before core after ds part : List Char} {n value : Nat}

theorem isDigit_iff : c.isDigit = true ↔ '0' ≤ c ∧ c ≤ '9' := by
  rw [Char.isDigit, Bool.and_eq_true, decide_eq_true_eq, decide_eq_true_eq]
  rfl

theorem digitValue?_of_isDigit (h : c.isDigit = true) : digitValue? c = some (c.toNat - '0'.toNat) :=
  if_pos (isDigit_iff.1 h)

theorem digitValue?_of_not_isDigit (h : ¬ c.isDigit = true) : digitValue? c = none :=
  if_neg (mt isDigit_iff.2 h)

theorem readDigits_eq {ds : List Char} (h : ∀ c ∈ ds, c.isDigit = true) (value : Nat) :
    readDigits value ds = some (Nat.ofDigitChars 10 ds value) := by
  induction ds generalizing value with
  | nil => rfl
  | cons c ds ih =>
    obtain ⟨hc, hds⟩ := List.forall_mem_cons.1 h
    rw [readDigits, digitValue?_of_isDigit hc, Option.bind_some, ih hds]
    rfl

/-- Only digits are read, and they make the number that they spell. -/
theorem readDigits_eq_some : readDigits value ds = some n ↔
    (∀ c ∈ ds, c.isDigit = true) ∧ Nat.ofDigitChars 10 ds value = n := by
  constructor
  · intro h
    have hdigits : ∀ c ∈ ds, c.isDigit = true := by
      induction ds generalizing value with
      | nil => exact fun _ hc => absurd hc List.not_mem_nil
      | cons d ds ih =>
        by_cases hd : d.isDigit = true
        · rw [readDigits, digitValue?_of_isDigit hd, Option.bind_some] at h
          exact List.forall_mem_cons.2 ⟨hd, ih h⟩
        · rw [readDigits, digitValue?_of_not_isDigit hd] at h
          cases h
    rw [readDigits_eq hdigits] at h
    exact ⟨hdigits, Option.some.inj h⟩
  · rintro ⟨hdigits, rfl⟩
    exact readDigits_eq hdigits value

theorem readNatural?_eq_some : readNatural? ds = some n ↔
    ds ≠ [] ∧ (∀ c ∈ ds, c.isDigit = true) ∧ Nat.ofDigitChars 10 ds 0 = n := by
  cases ds with
  | nil => simp [readNatural?]
  | cons d ds =>
    rw [← readDigits_eq_some]
    simp [readNatural?]

theorem isDigit_of_mem_toDigits (h : c ∈ Nat.toDigits 10 n) : c.isDigit = true :=
  Nat.isDigit_of_mem_toDigits (by decide) (by decide) h

/-- The digits of a number spell it. -/
theorem readDigits_toDigits (n : Nat) : readDigits 0 (Nat.toDigits 10 n) = some n := by
  rw [readDigits_eq fun c hc => isDigit_of_mem_toDigits hc,
    Nat.ofDigitChars_toDigits (by decide) (by decide)]

/-- Only zero begins with a zero. -/
theorem head?_toDigits {n : Nat} (h : (Nat.toDigits 10 n).head? = some '0') : n = 0 := by
  induction n using Nat.strongRecOn with
  | ind n ih =>
    rw [Nat.toDigits_eq_if (by decide)] at h
    split at h
    · rename_i hsmall
      have hdigit : ∀ d < 10, Nat.digitChar d = '0' → d = 0 := by decide
      exact hdigit n hsmall (Option.some.inj h)
    · rename_i hlarge
      rw [List.head?_append_of_ne_nil _ Nat.toDigits_ne_nil] at h
      have hzero := ih (n / 10) (by omega) h
      omega

/-- Characters that spell a number: one or more digits, after at most one plus sign. -/
inductive IsNumeral : List Char → Nat → Prop
  | plain {ds : List Char} (hne : ds ≠ []) (hdigits : ∀ c ∈ ds, c.isDigit = true) :
    IsNumeral ds (Nat.ofDigitChars 10 ds 0)
  | signed {ds : List Char} (hne : ds ≠ []) (hdigits : ∀ c ∈ ds, c.isDigit = true) :
    IsNumeral ('+' :: ds) (Nat.ofDigitChars 10 ds 0)

theorem isNumeral_toDigits (n : Nat) : IsNumeral (Nat.toDigits 10 n) n := by
  have hnumeral := IsNumeral.plain (Nat.toDigits_ne_nil (b := 10) (n := n))
    fun c hc => isDigit_of_mem_toDigits hc
  rwa [Nat.ofDigitChars_toDigits (by decide) (by decide)] at hnumeral

theorem isNumeral_signed : IsNumeral ('+' :: ds) n ↔ readNatural? ds = some n := by
  rw [readNatural?_eq_some]
  constructor
  · intro h
    cases h with
    | plain _ hdigits => exact absurd (hdigits '+' List.mem_cons_self) (by decide)
    | signed hne hdigits => exact ⟨hne, hdigits, rfl⟩
  · rintro ⟨hne, hdigits, rfl⟩
    exact .signed hne hdigits

theorem isNumeral_plain (h : ∀ ds, cs ≠ '+' :: ds) : IsNumeral cs n ↔ readNatural? cs = some n := by
  rw [readNatural?_eq_some]
  constructor
  · intro hnumeral
    cases hnumeral with
    | plain hne hdigits => exact ⟨hne, hdigits, rfl⟩
    | signed => exact absurd rfl (h _)
  · rintro ⟨hne, hdigits, rfl⟩
    exact .plain hne hdigits

/-- A word is read from a numeral that a word can hold. -/
theorem readWord?_eq_some : readWord? cs = some n ↔ IsNumeral cs n ∧ n < wordBound := by
  unfold readWord?
  rw [Option.filter_eq_some_iff, decide_eq_true_eq]
  split
  · rw [isNumeral_signed]
  · rename_i hsign
    rw [isNumeral_plain hsign]

/-! White space around a numeral. -/

theorem isBlank_of_isDigit (h : c.isDigit = true) : isBlank c = false := by
  obtain ⟨hlow, hhigh⟩ := isDigit_iff.1 h
  have hlow' : 48 ≤ c.toNat := hlow
  have hhigh' : c.toNat ≤ 57 := hhigh
  simp [isBlank, blankRanges]
  omega

theorem IsNumeral.not_isBlank (h : IsNumeral cs n) : ∀ c ∈ cs, isBlank c = false := by
  cases h with
  | plain _ hdigits => exact fun c hc => isBlank_of_isDigit (hdigits c hc)
  | signed _ hdigits =>
    rw [List.forall_mem_cons]
    exact ⟨by decide, fun c hc => isBlank_of_isDigit (hdigits c hc)⟩

theorem IsNumeral.ne_nil (h : IsNumeral cs n) : cs ≠ [] := by
  cases h with
  | plain hne _ => exact hne
  | signed => exact List.cons_ne_nil _ _

/-- What is trimmed at both ends is white space. -/
theorem exists_trimBlank (cs : List Char) : ∃ before after, cs = before ++ trimBlank cs ++ after ∧
    (∀ c ∈ before, isBlank c = true) ∧ ∀ c ∈ after, isBlank c = true := by
  have hfront := List.takeWhile_append_dropWhile (p := isBlank) (l := cs)
  have hback := List.takeWhile_append_dropWhile (p := isBlank) (l := (cs.dropWhile isBlank).reverse)
  refine ⟨cs.takeWhile isBlank, ((cs.dropWhile isBlank).reverse.takeWhile isBlank).reverse, ?_, ?_, ?_⟩
  · rw [List.append_assoc, trimBlank, ← List.reverse_append, hback, List.reverse_reverse, hfront]
  · exact fun c hc => List.mem_takeWhile_imp hc
  · exact fun c hc => List.mem_takeWhile_imp (List.mem_reverse.1 hc)

theorem dropWhile_isBlank (h : ∀ c ∈ cs, isBlank c = false) : cs.dropWhile isBlank = cs := by
  cases cs with
  | nil => rfl
  | cons c cs => exact List.dropWhile_cons_of_neg (by simp [h c List.mem_cons_self])

theorem trimBlank_append (hne : core ≠ []) (hbefore : ∀ c ∈ before, isBlank c = true)
    (hcore : ∀ c ∈ core, isBlank c = false) (hafter : ∀ c ∈ after, isBlank c = true) :
    trimBlank (before ++ core ++ after) = core := by
  have hfront : (before ++ core ++ after).dropWhile isBlank = core ++ after := by
    obtain ⟨c, cs, rfl⟩ := List.exists_cons_of_ne_nil hne
    rw [List.append_assoc, List.dropWhile_append_of_pos hbefore, List.cons_append,
      List.dropWhile_cons_of_neg (by simp [hcore c List.mem_cons_self])]
  have hback : (core ++ after).reverse.dropWhile isBlank = core.reverse := by
    rw [List.reverse_append, List.dropWhile_append_of_pos fun c hc => hafter c (List.mem_reverse.1 hc)]
    exact dropWhile_isBlank fun c hc => hcore c (List.mem_reverse.1 hc)
  rw [trimBlank, hfront, hback, List.reverse_reverse]

/-- A part of a text that spells a number: a numeral with white space around it. -/
inductive Spells : List Char → Nat → Prop
  | mk {before core after : List Char} {n : Nat} (hbefore : ∀ c ∈ before, isBlank c = true)
    (hcore : IsNumeral core n) (hafter : ∀ c ∈ after, isBlank c = true) :
    Spells (before ++ core ++ after) n

theorem IsNumeral.spells (h : IsNumeral cs n) (hafter : ∀ c ∈ after, isBlank c = true) :
    Spells (cs ++ after) n := by
  change Spells ([] ++ cs ++ after) n
  exact ⟨fun c hc => absurd hc List.not_mem_nil, h, hafter⟩

theorem isNumeral_trimBlank : IsNumeral (trimBlank part) n ↔ Spells part n := by
  constructor
  · intro h
    obtain ⟨before, after, heq, hbefore, hafter⟩ := exists_trimBlank part
    rw [heq]
    exact ⟨hbefore, h, hafter⟩
  · rintro ⟨hbefore, hcore, hafter⟩
    rwa [trimBlank_append hcore.ne_nil hbefore hcore.not_isBlank hafter]

theorem readWord?_trimBlank : readWord? (trimBlank part) = some n ↔ Spells part n ∧ n < wordBound := by
  rw [readWord?_eq_some, isNumeral_trimBlank]

end Dependents.Text
