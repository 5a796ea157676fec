/-! UTF-8: the bytes of a text, texts out of bytes, and parts of a text by byte offsets. -/
namespace Dependents.Text

def charBytes (c : Char) : List UInt8 :=
  let n := c.toNat
  if n < 0x80 then [n.toUInt8]
  else if n < 0x800 then [(0xc0 + n / 0x40).toUInt8, (0x80 + n % 0x40).toUInt8]
  else if n < 0x10000 then
    [(0xe0 + n / 0x1000).toUInt8, (0x80 + n / 0x40 % 0x40).toUInt8, (0x80 + n % 0x40).toUInt8]
  else
    [(0xf0 + n / 0x40000).toUInt8, (0x80 + n / 0x1000 % 0x40).toUInt8,
      (0x80 + n / 0x40 % 0x40).toUInt8, (0x80 + n % 0x40).toUInt8]

def bytesOf (cs : List Char) : List UInt8 :=
  cs.flatMap charBytes

def utf8 (s : String) : List UInt8 :=
  bytesOf s.toList

def byteLength : List Char → Nat
  | [] => 0
  | c :: cs => c.utf8Size + byteLength cs

def within (low high : Nat) (b : UInt8) : Bool :=
  low ≤ b.toNat && b.toNat ≤ high

inductive Lead where
  /-- A character, encoded in `size` bytes. -/
  | char (c : Char) (size : Nat)
  /-- Bytes of no character: the longest start of one, or one byte that starts none. -/
  | invalid (size : Nat)
deriving Repr

def payload (b : UInt8) : Nat :=
  b.toNat - 0x80

/-- Which second bytes may follow a first byte of a sequence of three or four, so that no
character has two encodings, and surrogates and too large numbers have none. -/
def secondRange (first : UInt8) : Nat × Nat :=
  match first.toNat with
  | 0xe0 => (0xa0, 0xbf)
  | 0xed => (0x80, 0x9f)
  | 0xf0 => (0x90, 0xbf)
  | 0xf4 => (0x80, 0x8f)
  | _ => (0x80, 0xbf)

def lead (b : UInt8) (rest : List UInt8) : Lead :=
  if b.toNat < 0x80 then .char (Char.ofNat b.toNat) 1
  else if within 0xc2 0xdf b then
    match rest with
    | b1 :: _ =>
      if within 0x80 0xbf b1 then .char (Char.ofNat ((b.toNat - 0xc0) * 0x40 + payload b1)) 2
      else .invalid 1
    | [] => .invalid 1
  else if within 0xe0 0xef b then
    match rest with
    | b1 :: rest =>
      if within (secondRange b).1 (secondRange b).2 b1 then
        match rest with
        | b2 :: _ =>
          if within 0x80 0xbf b2 then
            .char (Char.ofNat ((b.toNat - 0xe0) * 0x1000 + payload b1 * 0x40 + payload b2)) 3
          else .invalid 2
        | [] => .invalid 2
      else .invalid 1
    | [] => .invalid 1
  else if within 0xf0 0xf4 b then
    match rest with
    | b1 :: rest =>
      if within (secondRange b).1 (secondRange b).2 b1 then
        match rest with
        | b2 :: rest =>
          if within 0x80 0xbf b2 then
            match rest with
            | b3 :: _ =>
              if within 0x80 0xbf b3 then
                .char (Char.ofNat ((b.toNat - 0xf0) * 0x40000 + payload b1 * 0x1000
                  + payload b2 * 0x40 + payload b3)) 4
              else .invalid 3
            | [] => .invalid 3
          else .invalid 2
        | [] => .invalid 2
      else .invalid 1
    | [] => .invalid 1
  else .invalid 1

def replacement : Char := Char.ofNat 0xfffd

/-- Reads bytes as text; each longest run that starts no character becomes one replacement
character. -/
def decodeLossyChars : List UInt8 → List Char
  | [] => []
  | b :: rest =>
    match lead b rest with
    | .char c size => c :: decodeLossyChars (rest.drop (size - 1))
    | .invalid size => replacement :: decodeLossyChars (rest.drop (size - 1))
termination_by bytes => bytes.length
decreasing_by all_goals (simp only [List.length_drop, List.length_cons]; omega)

def decodeChars? : List UInt8 → Option (List Char)
  | [] => some []
  | b :: rest =>
    match lead b rest with
    | .char c size => (decodeChars? (rest.drop (size - 1))).map (c :: ·)
    | .invalid _ => none
termination_by bytes => bytes.length
decreasing_by simp only [List.length_drop, List.length_cons]; omega

def decodeLossy (bytes : List UInt8) : String :=
  String.ofList (decodeLossyChars bytes)

def decode? (bytes : List UInt8) : Option String :=
  (decodeChars? bytes).map String.ofList

/-- The characters from a byte offset on. An offset inside a character or past the end has none. -/
def dropBytes? : Nat → List Char → Option (List Char)
  | 0, cs => some cs
  | _ + 1, [] => none
  | n + 1, c :: cs => if c.utf8Size ≤ n + 1 then dropBytes? (n + 1 - c.utf8Size) cs else none

def takeBytes? : Nat → List Char → Option (List Char)
  | 0, _ => some []
  | _ + 1, [] => none
  | n + 1, c :: cs =>
    if c.utf8Size ≤ n + 1 then (takeBytes? (n + 1 - c.utf8Size) cs).map (c :: ·) else none

/-- The characters between two byte offsets that are in order, inside the text and between
characters. -/
def sliceBytes? (start stop : Nat) (cs : List Char) : Option (List Char) :=
  if start ≤ stop then (dropBytes? start cs).bind (takeBytes? (stop - start)) else none

end Dependents.Text
