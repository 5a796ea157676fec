import Dependents.Json.Basic
import Dependents.Text.Decimal

/-! A strict reader of JSON texts. Escapes must make whole characters, numbers must fit a double, and
containers nest at most 127 deep. -/
namespace Dependents.Json

def isSpace (c : Char) : Bool :=
  c == ' ' || c == '\t' || c == '\n' || c == '\r'

def skipSpace (cs : List Char) : List Char :=
  cs.dropWhile isSpace

def hexValue? (c : Char) : Option Nat :=
  if '0' ≤ c ∧ c ≤ '9' then some (c.toNat - 0x30)
  else if 'a' ≤ c ∧ c ≤ 'f' then some (c.toNat - 0x61 + 10)
  else if 'A' ≤ c ∧ c ≤ 'F' then some (c.toNat - 0x41 + 10)
  else none

def readUnit? : List Char → Option (Nat × List Char)
  | a :: b :: c :: d :: rest => do
    let a ← hexValue? a
    let b ← hexValue? b
    let c ← hexValue? c
    let d ← hexValue? d
    return (((a * 16 + b) * 16 + c) * 16 + d, rest)
  | _ => none

/-- Reads the character of a numbered escape, after the letter that announces it. A high surrogate
needs the low one right after it. -/
def readNumbered? (cs : List Char) : Option (Char × List Char) :=
  (readUnit? cs).bind fun (unit, rest) =>
    if 0xdc00 ≤ unit ∧ unit ≤ 0xdfff then none
    else if 0xd800 ≤ unit ∧ unit ≤ 0xdbff then
      match rest with
      | '\\' :: 'u' :: rest => (readUnit? rest).bind fun (low, rest) =>
        if 0xdc00 ≤ low ∧ low ≤ 0xdfff then
          some (Char.ofNat (0x10000 + (unit - 0xd800) * 0x400 + (low - 0xdc00)), rest)
        else none
      | _ => none
    else some (Char.ofNat unit, rest)

def readChar? : List Char → Option (Char × List Char)
  | '\\' :: 'u' :: rest => readNumbered? rest
  | '\\' :: c :: rest =>
    if c = '\x22' ∨ c = '\\' ∨ c = '/' then some (c, rest)
    else if c = 'b' then some ('\x08', rest)
    else if c = 'f' then some ('\x0c', rest)
    else if c = 'n' then some ('\x0a', rest)
    else if c = 'r' then some ('\x0d', rest)
    else if c = 't' then some ('\x09', rest)
    else none
  | c :: rest => if c.toNat < 0x20 ∨ c = '\\' then none else some (c, rest)
  | [] => none

theorem readUnit?_length {cs rest : List Char} {unit : Nat} (h : readUnit? cs = some (unit, rest)) :
    rest.length < cs.length := by
  match cs with
  | a :: b :: c :: d :: more =>
    simp only [readUnit?, Option.bind_eq_bind, Option.bind_eq_some_iff, Option.pure_def,
      Option.some.injEq, Prod.mk.injEq] at h
    obtain ⟨_, _, _, _, _, _, _, _, _, rfl⟩ := h
    simp only [List.length_cons]
    omega
  | [] | [_] | [_, _] | [_, _, _] => simp [readUnit?] at h

theorem readNumbered?_length {cs rest : List Char} {c : Char}
    (h : readNumbered? cs = some (c, rest)) : rest.length < cs.length := by
  simp only [readNumbered?, Option.bind_eq_some_iff] at h
  obtain ⟨⟨unit, more⟩, hunit, h⟩ := h
  have hlt := readUnit?_length hunit
  split at h
  · simp at h
  · split at h
    · split at h
      · simp only [Option.bind_eq_some_iff] at h
        obtain ⟨⟨low, last⟩, hlow, h⟩ := h
        have := readUnit?_length hlow
        split at h
        · simp only [Option.some.injEq, Prod.mk.injEq] at h
          obtain ⟨_, rfl⟩ := h
          simp_all only [List.length_cons]
          omega
        · simp at h
      · simp at h
    · simp only [Option.some.injEq, Prod.mk.injEq] at h
      obtain ⟨_, rfl⟩ := h
      exact hlt

/-- Reading a character uses up some of the text. -/
theorem readChar?_length {cs rest : List Char} {c : Char} (h : readChar? cs = some (c, rest)) :
    rest.length < cs.length := by
  unfold readChar? at h
  split at h
  · have := readNumbered?_length h
    simp only [List.length_cons]
    omega
  · repeat' split at h
    all_goals
      simp only [Option.some.injEq, Prod.mk.injEq, reduceCtorEq] at h
      try
        obtain ⟨_, rfl⟩ := h
        simp only [List.length_cons]
        omega
  · split at h
    · simp at h
    · simp only [Option.some.injEq, Prod.mk.injEq] at h
      obtain ⟨_, rfl⟩ := h
      simp
  · simp at h

def readText? (cs : List Char) : Option (List Char × List Char) :=
  if cs.head? = some '\x22' then some ([], cs.tail)
  else
    match h : readChar? cs with
    | some (c, rest) =>
      have := readChar?_length h
      (readText? rest).map fun (text, rest) => (c :: text, rest)
    | none => none
termination_by cs.length

def digits (cs : List Char) : List Char × List Char :=
  (cs.takeWhile Char.isDigit, cs.dropWhile Char.isDigit)

/-- Whether digits followed by `exponent` zeros, or with the point moved left by its negation, round
to a double that is finite. A point moved past all digits leaves less than one. -/
def fitsDouble (significand : Nat) (exponent : Int) : Bool :=
  significand = 0 || (exponent ≤ 400 && significand * Nat.pow 10 exponent.toNat
    < (Nat.pow 2 1024 - Nat.pow 2 970) * Nat.pow 10 (min (-exponent).toNat (significand.log2 + 1)))

def readFraction? : List Char → Option (List Char × List Char)
  | '.' :: rest =>
    match digits rest with
    | ([], _) => none
    | (ds, rest) => some (ds, rest)
  | cs => some ([], cs)

/-- Reads an exponent, if there is one, as a sign and digits. -/
def readExponent? : List Char → Option (Bool × List Char × List Char)
  | cs@(c :: rest) =>
    if c = 'e' ∨ c = 'E' then
      let (negative, rest) := match rest with
        | '-' :: rest => (true, rest)
        | '+' :: rest => (false, rest)
        | _ => (false, rest)
      match digits rest with
      | ([], _) => none
      | (ds, rest) => some (negative, ds, rest)
    else some (false, [], cs)
  | [] => some (false, [], [])

def valueOf (ds : List Char) : Nat :=
  (Text.readDigits 0 ds).getD 0

/-- Reads a number. A leading zero stands alone. -/
def readNumber? (cs : List Char) : Option (Json × List Char) := do
  let (negative, unsigned) := match cs with
    | '-' :: rest => (true, rest)
    | _ => (false, cs)
  -- A digit after a leading zero is left for the caller, who refuses it.
  let (whole, rest) := match unsigned with
    | '0' :: rest => (['0'], rest)
    | _ => digits unsigned
  if whole.isEmpty then none
  let (fraction, rest) ← readFraction? rest
  let (below, exponent, rest) ← readExponent? rest
  let power := (if below then -(valueOf exponent : Int) else valueOf exponent) - fraction.length
  if !fitsDouble (valueOf (whole ++ fraction)) power then none
  if !negative && fraction.isEmpty && exponent.isEmpty then
    return (.natural (valueOf whole), rest)
  else
    return (.number (String.ofList (cs.take (cs.length - rest.length))), rest)

def keyword? (word : List Char) (value : Json) (cs : List Char) : Option (Json × List Char) :=
  if word.isPrefixOf cs then some (value, cs.drop word.length) else none

mutual

/-- Reads a value that has `depth` levels of containers to itself. Each step of `fuel` pays for one
value, item or field. -/
def readValue? : (fuel depth : Nat) → List Char → Option (Json × List Char)
  | 0, _, _ => none
  | fuel + 1, depth, cs =>
    match skipSpace cs with
    | [] => none
    | c :: rest =>
      if c = '\x22' then (readText? rest).map fun (s, rest) => (.string (String.ofList s), rest)
      else if c = '[' then
        match depth, skipSpace rest with
        | 0, _ => none
        | _ + 1, ']' :: rest => some (.array [], rest)
        | depth + 1, _ => (readItems? fuel depth rest).map fun (items, rest) => (.array items, rest)
      else if c = '\x7b' then
        match depth, skipSpace rest with
        | 0, _ => none
        | _ + 1, '\x7d' :: rest => some (.object [], rest)
        | depth + 1, _ =>
          (readFields? fuel depth rest).map fun (fields, rest) => (.object fields, rest)
      else if c = 't' then keyword? ['t', 'r', 'u', 'e'] (.bool true) (c :: rest)
      else if c = 'f' then keyword? ['f', 'a', 'l', 's', 'e'] (.bool false) (c :: rest)
      else if c = 'n' then keyword? ['n', 'u', 'l', 'l'] .null (c :: rest)
      else readNumber? (c :: rest)

def readItems? : (fuel depth : Nat) → List Char → Option (List Json × List Char)
  | 0, _, _ => none
  | fuel + 1, depth, cs =>
    (readValue? fuel depth cs).bind fun (item, rest) =>
      match skipSpace rest with
      | ',' :: rest => (readItems? fuel depth rest).map fun (items, rest) => (item :: items, rest)
      | ']' :: rest => some ([item], rest)
      | _ => none

def readFields? : (fuel depth : Nat) → List Char → Option (List (String × Json) × List Char)
  | 0, _, _ => none
  | fuel + 1, depth, cs =>
    match skipSpace cs with
    | '\x22' :: rest =>
      (readText? rest).bind fun (name, rest) =>
        match skipSpace rest with
        | ':' :: rest =>
          (readValue? fuel depth rest).bind fun (value, rest) =>
            match skipSpace rest with
            | ',' :: rest => (readFields? fuel depth rest).map fun (fields, rest) =>
              ((String.ofList name, value) :: fields, rest)
            | '\x7d' :: rest => some ([(String.ofList name, value)], rest)
            | _ => none
        | _ => none
    | _ => none

end

def maxDepth : Nat := 127

/-- Reads a text that holds one value and nothing else. -/
def read? (text : String) : Option Json :=
  let cs := text.toList
  -- An item or field costs a step, its value another, and together they take a character at least.
  match readValue? (2 * cs.length + 2) maxDepth cs with
  | some (value, rest) => if (skipSpace rest).isEmpty then some value else none
  | none => none

end Dependents.Json
