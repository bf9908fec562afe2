/-
# Filling up to the data codewords

`terminate`, with `push_terminator`, `push_padding_bits` and
`push_padding_codewords`.

Behind its segment a bit string is filled up to the data codewords of its symbol:

| part | length |
| --- | --- |
| terminator | four zeros, or as many as there is room for |
| padding bits | zeros up to a byte boundary |
| pad codewords | `0xEC`, `0x11`, `0xEC`, … up to the capacity |

A bit string that is longer than the capacity is refused and left as it is.
-/

import QRCode.Segment

namespace QRCode

/-- The two pad codewords in turn, `0xEC` first (`PADDING_CODEWORDS`). -/
def padCodewords (count : Nat) : List UInt8 :=
  (List.range count).map fun i => if i % 2 = 0 then 0xEC else 0x11

namespace BitString

/-- Zeros up to a byte boundary (`push_padding_bits`). -/
def align (s : BitString) : BitString := s.appendBits 0 ((8 - s.length % 8) % 8)

/-- The terminator of a bit string that may hold `capacity` bits, and zeros up to a
byte boundary. -/
def close (s : BitString) (capacity : Nat) : BitString :=
  (s.appendBits 0 (min 4 (capacity - s.length))).align

/-- Alignment ends at the next byte boundary. -/
theorem align_length (s : BitString) : s.align.length = (s.length + 7) / 8 * 8 := by
  rw [align, length_appendBits]; omega

/-- A bit string is closed at the next byte boundary after at most four bits. -/
theorem close_length {s : BitString} {capacity : Nat} (h : s.length ≤ capacity) :
    (s.close capacity).length = (min (s.length + 4) capacity + 7) / 8 * 8 := by
  rw [close, align_length, length_appendBits]
  congr 2
  omega

end BitString

/-- Terminator, padding bits and pad codewords up to a number of codewords; the answer is the number
of pad codewords (`terminate`). -/
def writePadding (codewords : Nat) : Writer Nat := fun s =>
  if 8 * codewords < s.length then .error .capacityExceeded s
  else
    let closed := s.close (8 * codewords)
    if !closed.isAligned then .error (.malformed .unalignedPadding) closed
    else
      let pads := codewords - closed.byteSize
      let filled := closed.appendBytes (padCodewords pads)
      if filled.byteSize ≠ codewords then .error (.malformed .paddedLength) filled
      else .ok pads filled

end QRCode
