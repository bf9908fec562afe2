/-
# The placement path

`EncRegionIter`, as a list.

Codewords are placed along a path that sweeps through the symbol in columns two
modules wide, from the right edge to the left, the first one upward and every next
one in the other direction; in each row the right module comes before the left
one.  The column of the vertical timing line, column 6, belongs to no sweep: the
sweeps left of it are moved by one.
-/

namespace QRCode
namespace Zigzag

/-- The column of the vertical timing line (`VERT_TIMING_COL`). -/
def timingColumn : Nat := 6

/-- The right column of a sweep in a symbol of width `n`. -/
def rightColumn (n sweep : Nat) : Nat :=
  let c := n - 1 - 2 * sweep
  if timingColumn < c then c else c - 1

/-- The rows of a sweep in the order in which it visits them. -/
def sweepRows (n sweep : Nat) : List Nat :=
  if sweep % 2 = 0 then (List.range n).reverse else List.range n

/-- The places of a sweep. -/
def sweepPlaces (n sweep : Nat) : List (Nat × Nat) :=
  let c := rightColumn n sweep
  (sweepRows n sweep).flatMap fun r => [(r, c), (r, c - 1)]

/-- The places of a symbol of width `n` in the order in which they are filled (`EncRegionIter`). -/
def path (n : Nat) : List (Nat × Nat) := (List.range (n / 2)).flatMap (sweepPlaces n)

/-- A sweep visits every row. -/
theorem length_sweepRows (n sweep : Nat) : (sweepRows n sweep).length = n := by
  unfold sweepRows; split <;> simp

/-- A sweep visits two places in every row. -/
theorem length_sweepPlaces (n sweep : Nat) : (sweepPlaces n sweep).length = 2 * n := by
  simp [sweepPlaces, List.length_flatMap, List.map_const', length_sweepRows, Nat.mul_comm]

/-- Every module of the symbol outside one column has its place on the path. -/
theorem length_path (n : Nat) : (path n).length = n / 2 * (2 * n) := by
  simp [path, List.length_flatMap, List.map_const', length_sweepPlaces]

end Zigzag
end QRCode
