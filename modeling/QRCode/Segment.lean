/-
# Segments

`push_header` and `push_segment`, and the functions that push a payload.

A segment is a mode indicator, a character count, and the payload chunk by chunk.
It is written at the end of a bit string by a `Writer`, which answers with a value
or an error and in both cases with the bit string as it was left: a header that
cannot be written leaves it untouched, and a byte that the mode does not have
leaves the chunks before its own in place.

`chunks_flatten` says that cutting into chunks loses nothing, and
`chunks_length_le` that no chunk is longer than asked for.
-/

import QRCode.BitString
import QRCode.Mode

namespace QRCode

-- powers are those of the core library, whatever else is imported
attribute [local instance (high)] instPowNat

/-- A list cut into pieces of `size` elements, the last one as long as it comes. -/
def chunks {α : Type} (size : Nat) : List α → List (List α)
  | [] => []
  | x :: xs => (x :: xs.take (size - 1)) :: chunks size (xs.drop (size - 1))
termination_by xs => xs.length
decreasing_by simp only [List.length_drop, List.length_cons]; omega

/-- Nothing is lost or moved by cutting into chunks. -/
theorem chunks_flatten {α : Type} (size : Nat) (xs : List α) : (chunks size xs).flatten = xs := by
  fun_induction chunks size xs with
  | case1 => rfl
  | case2 x xs ih => rw [List.flatten_cons, ih, List.cons_append, List.take_append_drop]

/-- No chunk is longer than asked for. -/
theorem chunks_length_le {α : Type} {size : Nat} (hsize : 0 < size) (xs : List α) :
    ∀ chunk ∈ chunks size xs, chunk.length ≤ size := by
  fun_induction chunks size xs with
  | case1 => intro _ h; cases h
  | case2 x xs ih =>
    intro chunk h
    rcases List.mem_cons.1 h with rfl | h
    · simp only [List.length_cons, List.length_take]; omega
    · exact ih chunk h

/-- A program that appends to a bit string. -/
abbrev Writer := EStateM Error BitString

/-- The indicator of a mode and a character count in a field of `width` bits (`push_header`). -/
def writeHeader (mode : Mode) (width count : Nat) : Writer Unit := fun s =>
  if width = 0 then .error (.malformed .zeroWidthCount) s
  else if 2 ^ width ≤ count then .error (.countOverflow count width) s
  else .ok () ((s.appendBits mode.indicator Mode.indicatorBits).appendBits count width)

/-- Chunks one after the other; the first one that the mode cannot pack ends the
writing. -/
def writeChunks (mode : Mode) : List (List UInt8) → Writer Unit
  | [], s => .ok () s
  | chunk :: rest, s =>
    match mode.packChunk chunk with
    | .ok value => writeChunks mode rest (s.appendBits value (mode.packedLength chunk.length))
    | .error e => .error e s

/-- A payload without a header (`push_numeric_data`, `push_alphanumeric_data`, `push_byte_data`). -/
def writePayload (mode : Mode) (payload : List UInt8) : Writer Unit :=
  writeChunks mode (chunks mode.chunkSize payload)

/-- A whole segment: header and payload, with the count field of a version (`push_segment`). -/
def writeSegment (mode : Mode) (v : Version) (payload : List UInt8) : Writer Unit := do
  writeHeader mode (mode.countBits v) payload.length
  writePayload mode payload

end QRCode
