/-
# Function patterns

What `Canvas::draw_finder_patterns`, `Canvas::draw_timing_pattern` and
`Canvas::draw_alignment_patterns` draw.

The modules by which a reader finds and measures a symbol depend on the version
alone.  Each pattern is a colour for the places that it covers:

| pattern | covers | dark where |
| --- | --- | --- |
| finder | all within distance 4 of three corner centres | the distance is not 2 or 4 |
| timing | row 6 and column 6 between the finders | the running coordinate is even |
| alignment | all within distance 2 of the table's centres | the distance is not 1 |

Distances are those of a chess king.  Distance 4 from a corner centre is the light
separator around the finder; on the outer sides it lies beyond the edge.  Where an
alignment pattern lies across a timing line, it is the alignment pattern that is
drawn.
-/

import QRCode.Colour
import QRCode.Version.Alignment

namespace QRCode
namespace FunctionPattern

/-- The distance of two numbers. -/
def gap (a b : Nat) : Nat := (a - b) + (b - a)

/-- The distance of two places, as a chess king walks. -/
def kingDistance (p q : Nat × Nat) : Nat := max (gap p.1 q.1) (gap p.2 q.2)

/-- The centres of the three finder patterns. -/
def finderCentres (n : Nat) : List (Nat × Nat) := [(3, 3), (3, n - 4), (n - 4, 3)]

/-- The finder patterns and their separators (`Canvas::draw_finder_pattern_at`). -/
def finder? (n : Nat) (p : Nat × Nat) : Option Colour :=
  match (finderCentres n).find? fun q => kingDistance p q ≤ 4 with
  | some q => some (.ofBit (kingDistance p q ≠ 2 ∧ kingDistance p q ≠ 4))
  | none => none

/-- The timing pattern (`Canvas::draw_timing_pattern`). -/
def timing? (n : Nat) (p : Nat × Nat) : Option Colour :=
  if p.1 = 6 ∧ 8 ≤ p.2 ∧ p.2 + 8 < n then some (.ofBit (p.2 % 2 = 0))
  else if p.2 = 6 ∧ 8 ≤ p.1 ∧ p.1 + 8 < n then some (.ofBit (p.1 % 2 = 0))
  else none

/-- Whether a pair of alignment positions is a corner that a finder occupies: both
lie on the lines through the finders, but not both at the far end. -/
def isFinderCorner (n : Nat) (p : Nat × Nat) : Bool :=
  let onLine (x : Nat) : Bool := x = 6 ∨ x + 7 = n
  onLine p.1 && onLine p.2 && !(p.1 + 7 = n ∧ p.2 + 7 = n)

/-- The centres of the alignment patterns of a version. -/
def alignmentCentres (v : Version) : List (Nat × Nat) :=
  (v.alignment.flatMap fun r => v.alignment.map fun c => (r, c)).filter fun q =>
    !isFinderCorner v.width q

/-- The alignment patterns (`Canvas::draw_alignment_pattern_at`).  As positions lie far apart, a
place is close to at most one of them in each direction. -/
def alignment? (v : Version) (p : Nat × Nat) : Option Colour :=
  match v.alignment.find? (gap p.1 · ≤ 2), v.alignment.find? (gap p.2 · ≤ 2) with
  | some r, some c =>
    if isFinderCorner v.width (r, c) then none else some (.ofBit (kingDistance p (r, c) ≠ 1))
  | _, _ => none

end FunctionPattern

/-- The colour that the function patterns of a version give to a place. -/
def functionColour? (v : Version) (p : Nat × Nat) : Option Colour :=
  FunctionPattern.alignment? v p <|>
    FunctionPattern.timing? v.width p <|> FunctionPattern.finder? v.width p

end QRCode
