/-
# How many codewords a version holds

The tables `TOTAL_CODEWORDS`, `ECC_PER_BLOCK` and `BLOCK_COUNT`, put side by side,
and the functions of `Version` that read them.

A symbol holds a fixed number of codewords of eight bits.  At each level they
are divided among blocks that share one number of error correction codewords;
what is left carries data.  `capacityTable` has one row for each version:

| column | meaning |
| --- | --- |
| first | codewords of the symbol |
| four pairs | error correction codewords per block, and blocks, at `L`, `M`, `Q`, `H` |

There are fewer error correction codewords than codewords (`ecCodewords_lt_total`),
so the subtraction in `dataCodewords` is exact, and at least as many data codewords
as blocks (`blockCount_le_dataCodewords`), so no block is without data.
-/

import QRCode.Level
import QRCode.Version

namespace QRCode

/-- How the codewords of a symbol are protected at one level. -/
structure Protection where
  /-- Error correction codewords in each block. -/
  perBlock : Nat
  /-- Number of blocks. -/
  blocks : Nat

/-- The codewords of one version. -/
structure CapacityRow where
  /-- Codewords of the symbol. -/
  total : Nat
  low : Protection
  medium : Protection
  quartile : Protection
  high : Protection

/-- The protection of a row at a level. -/
def CapacityRow.protection (row : CapacityRow) : Level → Protection
  | .low => row.low
  | .medium => row.medium
  | .quartile => row.quartile
  | .high => row.high

/-- The codewords of the forty versions, one row each. -/
def capacityTable : Vector CapacityRow 40 := #v[
  ⟨26, ⟨7, 1⟩, ⟨10, 1⟩, ⟨13, 1⟩, ⟨17, 1⟩⟩,
  ⟨44, ⟨10, 1⟩, ⟨16, 1⟩, ⟨22, 1⟩, ⟨28, 1⟩⟩,
  ⟨70, ⟨15, 1⟩, ⟨26, 1⟩, ⟨18, 2⟩, ⟨22, 2⟩⟩,
  ⟨100, ⟨20, 1⟩, ⟨18, 2⟩, ⟨26, 2⟩, ⟨16, 4⟩⟩,
  ⟨134, ⟨26, 1⟩, ⟨24, 2⟩, ⟨18, 4⟩, ⟨22, 4⟩⟩,
  ⟨172, ⟨18, 2⟩, ⟨16, 4⟩, ⟨24, 4⟩, ⟨28, 4⟩⟩,
  ⟨196, ⟨20, 2⟩, ⟨18, 4⟩, ⟨18, 6⟩, ⟨26, 5⟩⟩,
  ⟨242, ⟨24, 2⟩, ⟨22, 4⟩, ⟨22, 6⟩, ⟨26, 6⟩⟩,
  ⟨292, ⟨30, 2⟩, ⟨22, 5⟩, ⟨20, 8⟩, ⟨24, 8⟩⟩,
  ⟨346, ⟨18, 4⟩, ⟨26, 5⟩, ⟨24, 8⟩, ⟨28, 8⟩⟩,
  ⟨404, ⟨20, 4⟩, ⟨30, 5⟩, ⟨28, 8⟩, ⟨24, 11⟩⟩,
  ⟨466, ⟨24, 4⟩, ⟨22, 8⟩, ⟨26, 10⟩, ⟨28, 11⟩⟩,
  ⟨532, ⟨26, 4⟩, ⟨22, 9⟩, ⟨24, 12⟩, ⟨22, 16⟩⟩,
  ⟨581, ⟨30, 4⟩, ⟨24, 9⟩, ⟨20, 16⟩, ⟨24, 16⟩⟩,
  ⟨655, ⟨22, 6⟩, ⟨24, 10⟩, ⟨30, 12⟩, ⟨24, 18⟩⟩,
  ⟨733, ⟨24, 6⟩, ⟨28, 10⟩, ⟨24, 17⟩, ⟨30, 16⟩⟩,
  ⟨815, ⟨28, 6⟩, ⟨28, 11⟩, ⟨28, 16⟩, ⟨28, 19⟩⟩,
  ⟨901, ⟨30, 6⟩, ⟨26, 13⟩, ⟨28, 18⟩, ⟨28, 21⟩⟩,
  ⟨991, ⟨28, 7⟩, ⟨26, 14⟩, ⟨26, 21⟩, ⟨26, 25⟩⟩,
  ⟨1085, ⟨28, 8⟩, ⟨26, 16⟩, ⟨30, 20⟩, ⟨28, 25⟩⟩,
  ⟨1156, ⟨28, 8⟩, ⟨26, 17⟩, ⟨28, 23⟩, ⟨30, 25⟩⟩,
  ⟨1258, ⟨28, 9⟩, ⟨28, 17⟩, ⟨30, 23⟩, ⟨24, 34⟩⟩,
  ⟨1364, ⟨30, 9⟩, ⟨28, 18⟩, ⟨30, 25⟩, ⟨30, 30⟩⟩,
  ⟨1474, ⟨30, 10⟩, ⟨28, 20⟩, ⟨30, 27⟩, ⟨30, 32⟩⟩,
  ⟨1588, ⟨26, 12⟩, ⟨28, 21⟩, ⟨30, 29⟩, ⟨30, 35⟩⟩,
  ⟨1706, ⟨28, 12⟩, ⟨28, 23⟩, ⟨28, 34⟩, ⟨30, 37⟩⟩,
  ⟨1828, ⟨30, 12⟩, ⟨28, 25⟩, ⟨30, 34⟩, ⟨30, 40⟩⟩,
  ⟨1921, ⟨30, 13⟩, ⟨28, 26⟩, ⟨30, 35⟩, ⟨30, 42⟩⟩,
  ⟨2051, ⟨30, 14⟩, ⟨28, 28⟩, ⟨30, 38⟩, ⟨30, 45⟩⟩,
  ⟨2185, ⟨30, 15⟩, ⟨28, 29⟩, ⟨30, 40⟩, ⟨30, 48⟩⟩,
  ⟨2323, ⟨30, 16⟩, ⟨28, 31⟩, ⟨30, 43⟩, ⟨30, 51⟩⟩,
  ⟨2465, ⟨30, 17⟩, ⟨28, 33⟩, ⟨30, 45⟩, ⟨30, 54⟩⟩,
  ⟨2611, ⟨30, 18⟩, ⟨28, 35⟩, ⟨30, 48⟩, ⟨30, 57⟩⟩,
  ⟨2761, ⟨30, 19⟩, ⟨28, 37⟩, ⟨30, 51⟩, ⟨30, 60⟩⟩,
  ⟨2876, ⟨30, 19⟩, ⟨28, 38⟩, ⟨30, 53⟩, ⟨30, 63⟩⟩,
  ⟨3034, ⟨30, 20⟩, ⟨28, 40⟩, ⟨30, 56⟩, ⟨30, 66⟩⟩,
  ⟨3196, ⟨30, 21⟩, ⟨28, 43⟩, ⟨30, 59⟩, ⟨30, 70⟩⟩,
  ⟨3362, ⟨30, 22⟩, ⟨28, 45⟩, ⟨30, 62⟩, ⟨30, 74⟩⟩,
  ⟨3532, ⟨30, 24⟩, ⟨28, 47⟩, ⟨30, 65⟩, ⟨30, 77⟩⟩,
  ⟨3706, ⟨30, 25⟩, ⟨28, 49⟩, ⟨30, 68⟩, ⟨30, 81⟩⟩]

namespace Version

/-- The row of a version. -/
def capacity (v : Version) : CapacityRow := capacityTable.get v.index

/-- Codewords of the symbol, data and error correction together (`Version::total_codewords`). -/
def totalCodewords (v : Version) : Nat := v.capacity.total

/-- Error correction codewords in each block (`Version::ecc_per_block`). -/
def eccPerBlock (v : Version) (level : Level) : Nat := (v.capacity.protection level).perBlock

/-- Number of blocks (`Version::block_count`). -/
def blockCount (v : Version) (level : Level) : Nat := (v.capacity.protection level).blocks

/-- Error correction codewords of the symbol (`Version::ec_codewords`). -/
def ecCodewords (v : Version) (level : Level) : Nat := v.eccPerBlock level * v.blockCount level

/-- Data codewords of the symbol (`Version::data_codewords`). -/
def dataCodewords (v : Version) (level : Level) : Nat := v.totalCodewords - v.ecCodewords level

/-- Data bits of the symbol (`Version::data_bit_capacity`). -/
def dataBits (v : Version) (level : Level) : Nat := 8 * v.dataCodewords level

/-- Codewords reserved against misreading, in the smallest symbols only. -/
def misreadReserve (v : Version) (level : Level) : Nat :=
  match v.number, level with
  | 1, .low => 3
  | 2, .low => 2
  | 1, .medium => 2
  | 1, _ => 1
  | 3, .low => 1
  | _, _ => 0

/-- Damaged codewords that a symbol can recover from: half its error correction codewords, less
those reserved against misreading (`QRBuilder::ec_capacity`). -/
def correctable (v : Version) (level : Level) : Nat :=
  (v.ecCodewords level - v.misreadReserve level) / 2

/-- There are always fewer error correction codewords than codewords. -/
theorem ecCodewords_lt_total (v : Version) (level : Level) :
    v.ecCodewords level < v.totalCodewords := by
  revert v; cases level <;> decide

/-- Data and error correction make up all codewords. -/
theorem dataCodewords_add_ecCodewords (v : Version) (level : Level) :
    v.dataCodewords level + v.ecCodewords level = v.totalCodewords :=
  Nat.sub_add_cancel (Nat.le_of_lt (v.ecCodewords_lt_total level))

/-- There is at least one block. -/
theorem blockCount_pos (v : Version) (level : Level) : 0 < v.blockCount level := by
  revert v; cases level <;> decide

/-- **Every block gets data**, whatever the version and the level. -/
theorem blockCount_le_dataCodewords (v : Version) (level : Level) :
    v.blockCount level ≤ v.dataCodewords level := by
  revert v; cases level <;> decide

end Version
end QRCode
