/-
# From a payload to the bits of a symbol

`encode_with_version`, `encode` and `QRBuilder::construct_payload`.

A payload is packed into a bit string that fills the data codewords of a version
(`encodeIn`), for a forced version or the first one that fits (`encodeFitting`).  The data
codewords are divided among blocks and protected, and the blocks are interleaved:
first the data of all blocks, then their error correction codewords (`protect`).
-/

import QRCode.BlockPlan
import QRCode.Interleave
import QRCode.Padding
import QRCode.Trace

namespace QRCode

/-- A payload packed in a mode, filled up to the data codewords of a version
(`encode_with_version`). -/
def encodeIn (v : Version) (level : Level) (mode : Mode) (payload : List UInt8) :
    Traced BitString := do
  let ((), packed) ← Traced.ofProgram (writeSegment mode v payload) .empty
  Traced.emit (.packed payload.length mode packed.length)
  let (pads, filled) ← Traced.ofProgram (writePadding (v.dataCodewords level)) packed
  Traced.emit (.terminated pads)
  return filled

/-- A payload encoded as data codewords. -/
structure Encoded where
  version : Version
  mode : Mode
  codewords : BitString

/-- A payload packed in its own mode, for the smallest version that fits (`encode`). -/
def encodeFitting (sizing : Sizing) (level : Level) (payload : List UInt8) : Traced Encoded := do
  let mode := Mode.select payload
  let v ← sizing.smallestVersion level mode payload.length
  Traced.emit (.selectedVersion v payload.length level sizing)
  return ⟨v, mode, ← encodeIn v level mode payload⟩

/-- The codewords of blocks in the order in which they are placed. -/
def arrange (blocks : List Block) : List UInt8 :=
  interleave (blocks.map Block.data) ++ interleave (blocks.map Block.ecc)

/-- The bits of a symbol with given data codewords (`QRBuilder::construct_payload`). -/
def protect (v : Version) (level : Level) (data : List UInt8) : Traced BitString := do
  let plan ← BlockPlan.ofVersion v level
  let (blocks, _) ← Traced.ofProgram (plan.encode data) .fresh
  let bits := BitString.empty.appendBytes (arrange blocks)
  if bits.byteSize ≠ v.totalCodewords then
    Traced.ofExcept (.error (.malformed .payloadLength))
  Traced.emit (.interleaved plan.blockCount plan.eccPerBlock v.totalCodewords)
  return bits

end QRCode
