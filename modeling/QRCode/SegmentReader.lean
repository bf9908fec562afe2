/-
# Reading segments

The other direction of `QRCode.Segment`: a mode indicator, a character count and as
many packed characters are taken from the front of a list of bits, and the bits
after them are handed on.  A number that no characters spell is refused, so a list
of bits is read as at most one payload.

| step | takes |
| --- | --- |
| `takeNumber size` | `size` bits, highest first |
| `Mode.unpackChunk k` | the `k` characters that spell a number |
| `readCharacters mode count` | chunk after chunk, the last one as short as the count asks |
| `readSegment v` | indicator, count and characters |
-/

import QRCode.Segment

namespace QRCode

/-- The number in the first `size` bits, and the bits after them. -/
def takeNumber (size : Nat) (bits : List Bool) : Option (Nat × List Bool) :=
  if size ≤ bits.length then some (numberOf (bits.take size), bits.drop size) else none

namespace Mode

/-- The mode that an indicator announces. -/
def ofIndicator? (n : Nat) : Option Mode := all.find? fun mode => mode.indicator == n

/-- The character with a given value. -/
def character? (mode : Mode) (d : Nat) : Option UInt8 :=
  match mode with
  | numeric => (alphabet.take 10)[d]?
  | alphanumeric => alphabet[d]?
  | byte => if d < 256 then some (UInt8.ofNat d) else none

/-- The characters, so many of them, that spell a number. -/
def unpackChunk (mode : Mode) : Nat → Nat → Option (List UInt8)
  | 0, n => if n = 0 then some [] else none
  | k + 1, n => do
    let front ← mode.unpackChunk k (n / mode.base)
    let last ← mode.character? (n % mode.base)
    return front ++ [last]

end Mode

/-- So many packed characters, and the bits after them. -/
def readCharacters (mode : Mode) (count : Nat) (bits : List Bool) :
    Option (List UInt8 × List Bool) :=
  if count = 0 then some ([], bits)
  else do
    let k := min count mode.chunkSize
    let (value, rest) ← takeNumber (mode.packedLength k) bits
    let chunk ← mode.unpackChunk k value
    let (characters, rest) ← readCharacters mode (count - k) rest
    return (chunk ++ characters, rest)
termination_by count
decreasing_by cases mode <;> simp only [Mode.chunkSize] <;> omega

/-- A segment with the count field of a version: its mode, its payload, and the bits
after it. -/
def readSegment (v : Version) (bits : List Bool) : Option ((Mode × List UInt8) × List Bool) := do
  let (indicator, rest) ← takeNumber Mode.indicatorBits bits
  let mode ← Mode.ofIndicator? indicator
  let (count, rest) ← takeNumber (mode.countBits v) rest
  let (payload, rest) ← readCharacters mode count rest
  return ((mode, payload), rest)

end QRCode
