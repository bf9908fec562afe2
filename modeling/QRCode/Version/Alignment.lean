/-
# Where alignment patterns stand

The table `ALIGNMENT_PATTERN_POSITIONS`, read by `Version::alignment_pattern`.

From version `2` on, alignment patterns are centred at all pairs of the positions
listed for the version, except at the three corners that finder patterns occupy.
The first position is always `6`, the line of the timing patterns, and the last
one is `width - 7`, as far from the other edge; two positions are far enough apart
that patterns do not touch (`alignment_apart`).
-/

import QRCode.Version

namespace QRCode

/-- The positions of alignment patterns, one row for each version. -/
def alignmentTable : Vector (List Nat) 40 := #v[
  [],
  [6, 18],
  [6, 22],
  [6, 26],
  [6, 30],
  [6, 34],
  [6, 22, 38],
  [6, 24, 42],
  [6, 26, 46],
  [6, 28, 50],
  [6, 30, 54],
  [6, 32, 58],
  [6, 34, 62],
  [6, 26, 46, 66],
  [6, 26, 48, 70],
  [6, 26, 50, 74],
  [6, 30, 54, 78],
  [6, 30, 56, 82],
  [6, 30, 58, 86],
  [6, 34, 62, 90],
  [6, 28, 50, 72, 94],
  [6, 26, 50, 74, 98],
  [6, 30, 54, 78, 102],
  [6, 28, 54, 80, 106],
  [6, 32, 58, 84, 110],
  [6, 30, 58, 86, 114],
  [6, 34, 62, 90, 118],
  [6, 26, 50, 74, 98, 122],
  [6, 30, 54, 78, 102, 126],
  [6, 26, 52, 78, 104, 130],
  [6, 30, 56, 82, 108, 134],
  [6, 34, 60, 86, 112, 138],
  [6, 30, 58, 86, 114, 142],
  [6, 34, 62, 90, 118, 146],
  [6, 30, 54, 78, 102, 126, 150],
  [6, 24, 50, 76, 102, 128, 154],
  [6, 28, 54, 80, 106, 132, 158],
  [6, 32, 58, 84, 110, 136, 162],
  [6, 26, 54, 82, 110, 138, 166],
  [6, 30, 58, 86, 114, 142, 170]]

namespace Version

/-- The rows, and likewise the columns, in which alignment patterns are centred
(`Version::alignment_pattern`). -/
def alignment (v : Version) : List Nat := alignmentTable[v.index]

/-- Every alignment pattern keeps a distance of two modules from the edge beyond
its own centre, and none lies left of or above the timing lines. -/
theorem alignment_bounds (v : Version) : ∀ p ∈ v.alignment, 6 ≤ p ∧ p + 7 ≤ v.width := by
  revert v; decide

/-- **Alignment patterns do not touch:** positions increase by twelve or more. -/
theorem alignment_apart (v : Version) : v.alignment.Pairwise (fun p q => p + 12 ≤ q) := by
  revert v; decide

end Version
end QRCode
