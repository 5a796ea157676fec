/-! SipHash: a keyed 64-bit digest of bytes, with any number of rounds per block and at the end. -/
namespace Dependents.Digest

structure SipState where
  v0 : UInt64
  v1 : UInt64
  v2 : UInt64
  v3 : UInt64
deriving DecidableEq, Repr

/-- Turns a word left by `n` bits, for `0 < n < 64`. -/
def turnLeft (x : UInt64) (n : UInt64) : UInt64 :=
  (x <<< n) ||| (x >>> (64 - n))

def turnRight (x : UInt64) (n : UInt64) : UInt64 :=
  (x >>> n) ||| (x <<< (64 - n))

namespace SipState

def round (s : SipState) : SipState :=
  let a0 := s.v0 + s.v1
  let a1 := turnLeft s.v1 13 ^^^ a0
  let a2 := s.v2 + s.v3
  let a3 := turnLeft s.v3 16 ^^^ a2
  let b0 := turnLeft a0 32 + a3
  let b3 := turnLeft a3 21 ^^^ b0
  let b2 := a2 + a1
  let b1 := turnLeft a1 17 ^^^ b2
  ⟨b0, b1, turnLeft b2 32, b3⟩

def rounds : Nat → SipState → SipState
  | 0, s => s
  | n + 1, s => rounds n s.round

def absorb (count : Nat) (s : SipState) (block : UInt64) : SipState :=
  let mixed := rounds count { s with v3 := s.v3 ^^^ block }
  { mixed with v0 := mixed.v0 ^^^ block }

end SipState

/-- The number that up to eight bytes spell, least significant first. -/
def wordOfBytes : List UInt8 → UInt64
  | [] => 0
  | b :: rest => b.toUInt64 ||| (wordOfBytes rest <<< 8)

def bytesOfWord (w : UInt64) : List UInt8 :=
  (List.range 8).map fun i => (w >>> (8 * i).toUInt64).toUInt8

/-- The blocks of a message: its words, then what is left with the message's length in the top
byte. -/
def sipBlocks (length : Nat) : List UInt8 → List UInt64
  | b0 :: b1 :: b2 :: b3 :: b4 :: b5 :: b6 :: b7 :: rest =>
    wordOfBytes [b0, b1, b2, b3, b4, b5, b6, b7] :: sipBlocks length rest
  | rest => [wordOfBytes rest ||| (length.toUInt64 <<< 56)]

structure SipHash where
  key0 : UInt64
  key1 : UInt64
  blockRounds : Nat
  finalRounds : Nat

def SipHash.digest (h : SipHash) (message : List UInt8) : UInt64 :=
  let start : SipState :=
    ⟨h.key0 ^^^ 0x736f6d6570736575, h.key1 ^^^ 0x646f72616e646f6d,
      h.key0 ^^^ 0x6c7967656e657261, h.key1 ^^^ 0x7465646279746573⟩
  let absorbed := (sipBlocks message.length message).foldl (SipState.absorb h.blockRounds) start
  let last := SipState.rounds h.finalRounds { absorbed with v2 := absorbed.v2 ^^^ 0xff }
  last.v0 ^^^ last.v1 ^^^ last.v2 ^^^ last.v3

/-- The digest used throughout: no key, one round per block and three at the end. -/
def sip13 : SipHash := ⟨0, 0, 1, 3⟩

end Dependents.Digest
