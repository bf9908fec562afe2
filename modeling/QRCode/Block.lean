/-
# Blocks

`Block`, up to `MAX_BLOCK_SIZE`.

A block is a stretch of data codewords followed by its error correction codewords,
at most 256 of them together.
-/

import QRCode.ReedSolomon

namespace QRCode

/-- Data codewords and the error correction codewords that protect them. -/
structure Block where
  data : List UInt8
  ecc : List UInt8
  deriving DecidableEq

namespace Block

/-- The largest number of codewords in a block. -/
def maxLength : Nat := 256

/-- The number of codewords. -/
def length (b : Block) : Nat := b.data.length + b.ecc.length

/-- All codewords, data first. -/
def codewords (b : Block) : List UInt8 := b.data ++ b.ecc

/-- The block of given length that starts with given data; at least one codeword is left for error
correction (`Block::new`). -/
def encode (data : List UInt8) (length : Nat) : Coding Block := do
  if maxLength < length ∨ length ≤ data.length then
    throw (.malformed .blockWithoutRoom)
  let ecc ← ReedSolomon.encode (GF256.ofBytes data) (length - data.length)
  return ⟨data, GF256.toBytes ecc⟩

/-- The syndromes of a block: all zero when it is intact. -/
def syndromes (b : Block) : List GF256 :=
  ReedSolomon.syndromes (GF256.ofBytes b.codewords) b.ecc.length

end Block
end QRCode
