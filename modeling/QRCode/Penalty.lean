/-
# Penalties

`compute_total_penalty`, and the four functions whose points it adds up.

Four rules score how hard a grid of colours is to read; the mask with the lowest
sum is the best.

| rule | points |
| --- | --- |
| a run of `k ≥ 5` modules of one colour in a row or column | `k - 2` |
| a square of `2 × 2` modules of one colour | `3` |
| dark, light, dark, dark, dark, light, dark in a row or column, with four light modules before or after it | `40` |
| the number of dark modules, for every full twentieth of all by which it differs from half | `10` |

Beyond the edge a row or column continues light.  Rows and columns are scored by
the same functions of a list of colours, so a grid is scored as it would be with
rows and columns exchanged.
-/

import QRCode.Colour
import QRCode.Grid

namespace QRCode

-- the zero of sums is that of the core library, whatever else is imported
attribute [local instance (high)] Zero.ofOfNat0
namespace Penalty

/-! ### Runs -/

/-- The points of a run of a given length. -/
def runPoints (length : Nat) : Nat := if 5 ≤ length then length - 2 else 0

/-- The points of the runs in the rest of a line, where the last `length` modules
had the colour `k`. -/
def runsFrom (k : Colour) (length : Nat) : List Colour → Nat
  | [] => runPoints length
  | x :: xs => if x = k then runsFrom k (length + 1) xs else runPoints length + runsFrom x 1 xs

/-- The points of the runs in a line (`run_penalty`). -/
def runs : List Colour → Nat
  | [] => 0
  | x :: xs => runsFrom x 1 xs

/-! ### Squares -/

/-- The points of the squares that two adjacent rows share. -/
def squaresBetween : List Colour → List Colour → Nat
  | a :: b :: above, c :: d :: below =>
    (if a = b ∧ a = c ∧ a = d then 3 else 0) + squaresBetween (b :: above) (d :: below)
  | _, _ => 0

/-- The points of the squares in a list of rows (`compute_block_penalty`). -/
def squares : List (List Colour) → Nat
  | upper :: lower :: rest => squaresBetween upper lower + squares (lower :: rest)
  | _ => 0

/-! ### Finder-like stretches -/

/-- The seven modules across the middle of a finder pattern. -/
def finderCore : List Colour := [.dark, .light, .dark, .dark, .dark, .light, .dark]

/-- Four light modules. -/
def quiet : List Colour := List.replicate 4 .light

/-- Whether a list begins with four modules, a finder core and four more modules,
with four light ones on at least one side. -/
def startsFinderLike (line : List Colour) : Bool :=
  (line.drop 4).take 7 == finderCore && (line.take 4 == quiet || (line.drop 11).take 4 == quiet)

/-- The places in a list at which a finder-like stretch starts. -/
def countFinderLike : List Colour → Nat
  | [] => 0
  | x :: xs => (if startsFinderLike (x :: xs) then 1 else 0) + countFinderLike xs

/-- The points of the finder-like stretches in a line (`compute_finder_pattern_penalty`). -/
def finderLike (line : List Colour) : Nat := 40 * countFinderLike (quiet ++ line ++ quiet)

/-! ### Balance -/

/-- The points for `dark` dark modules out of `total` (`compute_balance_penalty`). -/
def balance (dark total : Nat) : Nat := (20 * dark - 10 * total + (10 * total - 20 * dark)) / total * 10

end Penalty

/-- The penalty of a grid of colours (`compute_total_penalty`). -/
def penalty {n : Nat} (g : Grid Colour n) : Nat :=
  let lines := g.rows ++ g.columns
  (lines.map Penalty.runs).sum + Penalty.squares g.rows + (lines.map Penalty.finderLike).sum +
    Penalty.balance (g.toList.countP Colour.isDark) (n * n)

end QRCode
