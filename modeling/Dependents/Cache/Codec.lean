import Dependents.Cache.Entry
import Dependents.Text.Utf8

/-! The binary form of cache entries: numbers of a fixed width, least significant byte first, lengths
in eight bytes before texts and lists, and a mark before what may be missing. -/
namespace Dependents

namespace Codec

/-- Reads a value off the front of some bytes. -/
abbrev Decoder (α : Type) := List UInt8 → Option (α × List UInt8)

def encodeNat : (width : Nat) → Nat → List UInt8
  | 0, _ => []
  | width + 1, n => (n % 256).toUInt8 :: encodeNat width (n / 256)

def decodeNat : (width : Nat) → Decoder Nat
  | 0, bytes => some (0, bytes)
  | _ + 1, [] => none
  | width + 1, b :: bytes => (decodeNat width bytes).map fun (n, rest) => (b.toNat + 256 * n, rest)

def encodeWord (n : Nat) : List UInt8 :=
  encodeNat 8 n

def decodeWord : Decoder Nat :=
  decodeNat 8

def encodeText (s : String) : List UInt8 :=
  let bytes := Text.utf8 s
  encodeWord bytes.length ++ bytes

/-- Reads a text, which must be valid. -/
def decodeText : Decoder String := fun bytes =>
  (decodeWord bytes).bind fun (size, rest) =>
    if size ≤ rest.length then (Text.decode? (rest.take size)).map (·, rest.drop size) else none

def encodeList {α : Type} (encode : α → List UInt8) (items : List α) : List UInt8 :=
  encodeWord items.length ++ items.flatMap encode

def decodeMany {α : Type} (decode : Decoder α) : Nat → Decoder (List α)
  | 0, bytes => some ([], bytes)
  | n + 1, bytes => (decode bytes).bind fun (item, rest) =>
    (decodeMany decode n rest).map fun (items, rest) => (item :: items, rest)

def decodeList {α : Type} (decode : Decoder α) : Decoder (List α) := fun bytes =>
  (decodeWord bytes).bind fun (size, rest) => decodeMany decode size rest

def encodeOption {α : Type} (encode : α → List UInt8) : Option α → List UInt8
  | none => [0]
  | some a => 1 :: encode a

/-- Reads an optional value. There are two marks. -/
def decodeOption {α : Type} (decode : Decoder α) : Decoder (Option α)
  | [] => none
  | mark :: bytes =>
    if mark = 0 then some (none, bytes)
    else if mark = 1 then (decode bytes).map fun (a, rest) => (some a, rest)
    else none

def encodeDeclaration (d : ImportDeclaration) : List UInt8 :=
  encodeText d.specifier ++ encodeList encodeText d.localNames

def decodeDeclaration : Decoder ImportDeclaration := fun bytes =>
  (decodeText bytes).bind fun (specifier, rest) =>
    (decodeList decodeText rest).map fun (names, rest) => (⟨specifier, names⟩, rest)

def encodePosition (p : Position) : List UInt8 :=
  encodeWord p.line ++ encodeWord p.character

def decodePosition : Decoder Position := fun bytes =>
  (decodeWord bytes).bind fun (line, rest) =>
    (decodeWord rest).map fun (character, rest) => (⟨line, character⟩, rest)

def encodeCallSite (site : CallSite) : List UInt8 :=
  encodeText site.callee ++ encodePosition site.position ++ encodeOption encodeText site.caller

def decodeCallSite : Decoder CallSite := fun bytes =>
  (decodeText bytes).bind fun (callee, rest) =>
    (decodePosition rest).bind fun (position, rest) =>
      (decodeOption decodeText rest).map fun (caller, rest) => (⟨callee, position, caller⟩, rest)

def encodeSyntax (s : FileSyntax) : List UInt8 :=
  encodeList encodeDeclaration s.imports ++ encodeList encodeCallSite s.callSites

def decodeSyntax : Decoder FileSyntax := fun bytes =>
  (decodeList decodeDeclaration bytes).bind fun (imports, rest) =>
    (decodeList decodeCallSite rest).map fun (sites, rest) => (⟨imports, sites⟩, rest)

end Codec

namespace CacheEntry

def encode (e : CacheEntry) : List UInt8 :=
  Codec.encodeNat 4 e.version.toNat ++ Codec.encodeWord e.contentHash.toNat
    ++ Codec.encodeSyntax e.syntaxOf

/-- Reads an entry off the front of some bytes. -/
def decode? (bytes : List UInt8) : Option CacheEntry :=
  (Codec.decodeNat 4 bytes).bind fun (version, rest) =>
    (Codec.decodeWord rest).bind fun (contentHash, rest) =>
      -- Bytes after the entry are ignored.
      (Codec.decodeSyntax rest).map fun (syntaxOf, _) =>
        ⟨version.toUInt32, contentHash.toUInt64, syntaxOf⟩

end CacheEntry

end Dependents
