/-
# Reading symbols

A reader sees nothing but a grid of colours.  The width tells the version, either
copy of the format information tells the level and the mask, and the data region,
turned round where the mask holds, spells the codewords.  De-interleaved they are
blocks, and the data of the blocks spells a segment.

This reader corrects nothing: it is the exact inverse of a build, and damage to a
symbol is damage to what it reads.
-/

import QRCode.BlockPlan
import QRCode.DataRegion
import QRCode.Grid
import QRCode.Interleave
import QRCode.SegmentReader

namespace QRCode
namespace Reader

variable {n : Nat}

/-- The version of a symbol of a given width. -/
def version? (n : Nat) : Option Version := Version.all.find? fun v => v.width == n

/-- The bits at given places, if all of them lie inside. -/
def bitsAt? (g : Grid Colour n) (places : List (Nat × Nat)) : Option (List Bool) :=
  places.mapM fun p => (g.get? p).map Colour.isDark

/-- The level and the mask with given format information. -/
def formatOf? (info : Nat) : Option (Level × Mask) :=
  (Level.all.flatMap fun level => Mask.all.map fun m => (level, m)).find? fun e =>
    formatInfo e.1 e.2 == info

/-- The level and the mask that one copy of the format information tells. -/
def format? (g : Grid Colour n) (copy : List (Nat × Nat)) : Option (Level × Mask) := do
  formatOf? (numberOf (← bitsAt? g copy))

/-- The bits of the data region, unmasked. -/
def dataBits? (g : Grid Colour n) (v : Version) (m : Mask) : Option (List Bool) :=
  (dataPlaces v).mapM fun p => (g.get? p).map fun k => k.isDark != m.holds p.1 p.2

/-- The bytes that bits spell; bits that fill no byte are left out. -/
def bytesOf (bits : List Bool) : List UInt8 :=
  (chunks 8 bits).filterMap fun chunk =>
    if chunk.length = 8 then some (UInt8.ofNat (numberOf chunk)) else none

/-- The blocks that codewords were arranged from. -/
def blocksOf (plan : BlockPlan) (codewords : List UInt8) : List Block :=
  List.zipWith .mk
    (deinterleave plan.dataLengths (codewords.take plan.dataLength))
    (deinterleave (List.replicate plan.blockCount plan.eccPerBlock) (codewords.drop plan.dataLength))

/-- The blocks of a symbol of a known version, level and mask. -/
def blocks? (g : Grid Colour n) (v : Version) (level : Level) (m : Mask) : Option (List Block) := do
  let plan ← (BlockPlan.ofVersion v level).toOption
  let bits ← dataBits? g v m
  return blocksOf plan ((bytesOf bits).take v.totalCodewords)

/-- The payload of a symbol, by one copy of its format information. -/
def payload? (g : Grid Colour n) (copy : List (Nat × Nat)) : Option (List UInt8) := do
  let v ← version? n
  let (level, m) ← format? g copy
  let blocks ← blocks? g v level m
  let ((_, payload), _) ← readSegment v ((blocks.flatMap Block.data).flatMap byteBits)
  return payload

end Reader
end QRCode
