/-
# What can go wrong

`QRError` with its texts, and the assertions on coordinates in `QR::get`,
`Canvas::get` and `Canvas::set`.

Every failure of the library is one value of `Error`, named for its cause.  The
causes that only carry a remark are grouped: `StreamFault` for bit strings and
blocks that do not have the shape they should have, `FieldFault` for operations
that a finite field does not define.  `Error.message` is the one place where a
cause is put into words.

| cause | raised by |
| --- | --- |
| `capacityExceeded` | sizing and terminating a bit string |
| `invalidVersion`, `invalidMask` | numbers outside `1 … 40` and `0 … 7` |
| `invalidCharacter` | packing a byte that its mode does not contain |
| `countOverflow` | a character count too large for its field |
| `malformed` | headers, padding, block plans |
| `field` | division by zero, logarithm of zero, generator of degree zero |
| `incompleteSymbol` | a symbol with undrawn cells, or a payload without room |
| `outsideSymbol`, `outsideDraft` | coordinates beyond the edge |
| `emptySlices` | cutting data into slices of length zero |
-/

namespace QRCode

/-- A bit string or a block plan that does not have the shape it should have. -/
inductive StreamFault where
  /-- The character count field has width zero. -/
  | zeroWidthCount
  /-- Padding bits did not reach a byte boundary. -/
  | unalignedPadding
  /-- Pad codewords did not reach the capacity. -/
  | paddedLength
  /-- A block has no codeword left for error correction, or is too long. -/
  | blockWithoutRoom
  /-- A plan for no blocks at all. -/
  | zeroBlocks
  /-- A block would get no error correction codeword. -/
  | noCorrection
  /-- The two groups of blocks do not add up to the codewords given. -/
  | uncoveredCodewords
  /-- The data has another length than the plan. -/
  | dataLength
  /-- The interleaved codewords do not fill the symbol. -/
  | payloadLength
  deriving DecidableEq

/-- The remark that belongs to a fault. -/
def StreamFault.message : StreamFault → String
  | .zeroWidthCount => "zero width char count field"
  | .unalignedPadding => "stream not byte aligned after padding bits"
  | .paddedLength => "padded stream length differs from capacity"
  | .blockWithoutRoom => "block has no room for error correction"
  | .zeroBlocks => "zero block count"
  | .noCorrection => "non-positive EC codewords per block"
  | .uncoveredCodewords => "block groups don't cover codewords"
  | .dataLength => "data length differs from block layout"
  | .payloadLength => "interleaved length differs from total codewords"

/-- An operation that the field with 256 elements does not define. -/
inductive FieldFault where
  | divisionByZero
  | logarithmOfZero
  | generatorOfDegreeZero
  deriving DecidableEq

/-- The remark that belongs to a fault. -/
def FieldFault.message : FieldFault → String
  | .divisionByZero => "division by zero"
  | .logarithmOfZero => "logarithm of zero"
  | .generatorOfDegreeZero => "generator of degree zero"

/-- The causes of failure (`QRError`). -/
inductive Error where
  /-- The packed payload is longer than the data codewords. -/
  | capacityExceeded
  /-- No version has this number. -/
  | invalidVersion (number : Nat)
  /-- The mode does not contain this byte. -/
  | invalidCharacter (byte : UInt8)
  /-- The count does not fit in a field of so many bits. -/
  | countOverflow (count bits : Nat)
  /-- A bit string or block plan of the wrong shape. -/
  | malformed (fault : StreamFault)
  /-- An undefined field operation. -/
  | field (fault : FieldFault)
  /-- No mask has this index. -/
  | invalidMask (index : Nat)
  /-- The symbol could not be completed. -/
  | incompleteSymbol
  /-- Coordinates beyond the edge of a finished symbol. -/
  | outsideSymbol (row column width : Nat)
  /-- A signed coordinate that no wrapping brings inside a draft. -/
  | outsideDraft (coordinate : Int) (width : Nat)
  /-- Data cannot be cut into slices of length zero. -/
  | emptySlices
  deriving DecidableEq

/-- A byte in lowercase hexadecimal, `0x` before at least two digits. -/
def hexByte (b : UInt8) : String :=
  let digits := Nat.toDigits 16 b.toNat
  "0x" ++ String.ofList (List.replicate (2 - digits.length) '0' ++ digits)

/-- The cause of a failure in words. -/
def Error.message : Error → String
  | .capacityExceeded => "Capacity exceeded: payload does not fit in any version"
  | .invalidVersion n => s!"Invalid version: {n}"
  | .invalidCharacter b => s!"Invalid character for selected mode: {hexByte b}"
  | .countOverflow count bits => s!"Character count {count} does not fit in {bits} bits"
  | .malformed fault => s!"Malformed bit stream: {fault.message}"
  | .field fault => s!"Galois field arithmetic error: {fault.message}"
  | .invalidMask m => s!"Invalid masking pattern: {m}"
  | .incompleteSymbol => "Matrix build failed for every mask pattern"
  | .outsideSymbol r c w => s!"Coordinate ({r}, {c}) outside {w}x{w} symbol"
  | .outsideDraft x w => s!"Coordinate {x} outside {w}x{w} canvas"
  | .emptySlices => "slices of length zero"

end QRCode
