/-
# The format of a segment, in tables

A second reader of segments.  It knows nothing of how a segment is written, only the
tables of the format:

| mode | indicator | bits for groups of 1, 2, 3 | characters, by value |
| --- | --- | --- | --- |
| numeric | `0001` | 4, 7, 10 | `0123456789` |
| alphanumeric | `0010` | 6, 11 | `0123456789ABCDEFGHIJKLMNOPQRSTUVWXYZ $%*+-./:` |
| byte | `0100` | 8 | every byte |

A payload is cut into groups of the largest size, and one smaller group for the
characters that are left over (`Grouping.sizes`).  A group is a number in its bits,
highest first; written to a base as large as the number of characters, its digits are
the values of the characters.
-/

import QRCode.SegmentReader

namespace QRCode

/-- How the characters of a mode are grouped. -/
structure Grouping where
  /-- The width of a group of one character, of two, and so on. -/
  widths : List Nat
  /-- The characters, by value. -/
  characters : List UInt8

namespace Grouping

/-- The bytes of a text of seven-bit characters. -/
def asciiOf (text : String) : List UInt8 := text.toList.map fun c => UInt8.ofNat c.toNat

/-- The groups of a mode. -/
def ofMode : Mode → Grouping
  | .numeric => ⟨[4, 7, 10], asciiOf "0123456789"⟩
  | .alphanumeric => ⟨[6, 11], asciiOf "0123456789ABCDEFGHIJKLMNOPQRSTUVWXYZ $%*+-./:"⟩
  | .byte => ⟨[8], (List.range 256).map UInt8.ofNat⟩

/-- The size of the largest group. -/
def largest (g : Grouping) : Nat := g.widths.length

/-- The sizes of the groups of so many characters. -/
def sizes (g : Grouping) (count : Nat) : List Nat :=
  List.replicate (count / g.largest) g.largest ++
    if count % g.largest = 0 then [] else [count % g.largest]

/-- The characters, so many of them, whose values are the digits of a number. -/
def spell (g : Grouping) : Nat → Nat → Option (List UInt8)
  | 0, n => if n = 0 then some [] else none
  | k + 1, n => do
    let front ← g.spell k (n / g.characters.length)
    let last ← g.characters[n % g.characters.length]?
    return front ++ [last]

/-- Groups of given sizes, and the bits after them. -/
def read (g : Grouping) : List Nat → List Bool → Option (List UInt8 × List Bool)
  | [], bits => some ([], bits)
  | size :: sizes, bits => do
    let width ← g.widths[size - 1]?
    let (value, rest) ← takeNumber width bits
    let group ← g.spell size value
    let (payload, rest) ← g.read sizes rest
    return (group ++ payload, rest)

end Grouping

/-- The mode that four bits announce, and the bits after them. -/
def parseMode : List Bool → Option (Mode × List Bool)
  | false :: false :: false :: true :: rest => some (.numeric, rest)
  | false :: false :: true :: false :: rest => some (.alphanumeric, rest)
  | false :: true :: false :: false :: rest => some (.byte, rest)
  | _ => none

/-- A segment with the count field of a version, by the tables: its mode, its payload,
and the bits after it. -/
def parseSegment (v : Version) (bits : List Bool) : Option ((Mode × List UInt8) × List Bool) := do
  let (mode, rest) ← parseMode bits
  let (count, rest) ← takeNumber (mode.countBits v) rest
  let groups := Grouping.ofMode mode
  let (payload, rest) ← groups.read (groups.sizes count) rest
  return ((mode, payload), rest)

end QRCode
