/-
# How large a penalty gets

`compute_total_penalty`, in words of 32 bits.

Each of the four rules gives a bounded number of points for a line or a pair of
lines, so the penalty of a grid grows like its number of cells:

| rule | at most |
| --- | --- |
| runs in a line | its length |
| squares between two rows | `3` for each module |
| finder-like stretches in a line | `40` for each place where one may start |
| balance | `100` |

For the widths of symbols the sum is far below `2 ^ 32` (`Penalty.total_lt`).
-/

import QRCode.Penalty
import Mathlib.Tactic.Ring

namespace QRCode
namespace Penalty

/-- A run has no more points than modules. -/
theorem runPoints_le (length : Nat) : runPoints length ≤ length := by
  unfold runPoints; split <;> omega

/-- The runs in a line have no more points than modules, those before it counted. -/
theorem runsFrom_le (k : Colour) (length : Nat) (line : List Colour) :
    runsFrom k length line ≤ length + line.length := by
  induction line generalizing k length with
  | nil => exact runPoints_le length
  | cons x line ih =>
    rw [runsFrom, List.length_cons]
    split
    · have := ih k (length + 1); omega
    · have := ih x 1
      have := runPoints_le length
      omega

/-- A line has no more points for runs than modules. -/
theorem runs_le (line : List Colour) : runs line ≤ line.length := by
  cases line with
  | nil => exact Nat.le_refl 0
  | cons x line => rw [runs, List.length_cons, Nat.add_comm]; exact runsFrom_le x 1 line

/-- Two rows share at most one square for each module. -/
theorem squaresBetween_le (upper lower : List Colour) :
    squaresBetween upper lower ≤ 3 * upper.length := by
  fun_induction squaresBetween upper lower with
  | case1 a b above c d below ih =>
    rw [List.length_cons] at ih ⊢
    rw [List.length_cons]
    split <;> omega
  | case2 => exact Nat.zero_le _

/-- All squares together have at most three points for each module. -/
theorem squares_le {rows : List (List Colour)} {n : Nat} (h : ∀ row ∈ rows, row.length = n) :
    squares rows ≤ 3 * n * rows.length := by
  induction rows with
  | nil => exact Nat.zero_le _
  | cons upper rows ih =>
    cases rows with
    | nil => exact Nat.zero_le _
    | cons lower rest =>
      have hrest := ih fun row hrow => h row (List.mem_cons_of_mem _ hrow)
      have hpair := squaresBetween_le upper lower
      rw [h upper List.mem_cons_self] at hpair
      rw [squares, List.length_cons, Nat.mul_succ]
      omega

/-- At most one stretch begins at each place. -/
theorem countFinderLike_le (line : List Colour) : countFinderLike line ≤ line.length := by
  induction line with
  | nil => exact Nat.le_refl 0
  | cons x line ih =>
    rw [countFinderLike, List.length_cons]
    split <;> omega

/-- Stretches may begin in the frame around a line. -/
theorem finderLike_le (line : List Colour) : finderLike line ≤ 40 * (line.length + 8) := by
  have hcount := countFinderLike_le (quiet ++ line ++ quiet)
  rw [List.length_append, List.length_append] at hcount
  have hquiet : quiet.length = 4 := rfl
  rw [finderLike]
  omega

/-- At worst a grid is of one colour, ten twentieths away from half. -/
theorem balance_le {dark total : Nat} (h : dark ≤ total) : balance dark total ≤ 100 := by
  unfold balance
  have hquotient : (20 * dark - 10 * total + (10 * total - 20 * dark)) / total ≤ 10 := by
    refine Nat.div_le_of_le_mul ?_
    omega
  omega

/-- A sum over lines, line by line. -/
theorem sum_map_le {lines : List (List Colour)} {points : List Colour → Nat} {bound : Nat}
    (h : ∀ line ∈ lines, points line ≤ bound) : (lines.map points).sum ≤ lines.length * bound := by
  induction lines with
  | nil => exact Nat.zero_le _
  | cons line lines ih =>
    have hline := h line List.mem_cons_self
    have hrest := ih fun l hl => h l (List.mem_cons_of_mem _ hl)
    rw [List.map_cons, List.sum_cons, List.length_cons, Nat.succ_mul]
    omega

end Penalty

namespace Grid

variable {n : Nat}

/-- Every row and column is as long as the grid is wide. -/
theorem length_of_mem_lines {g : Grid Colour n} {line : List Colour} (h : line ∈ g.rows ++ g.columns) :
    line.length = n := by
  rcases List.mem_append.1 h with h | h
  · obtain ⟨r, rfl⟩ := List.mem_ofFn.1 h
    exact g.length_row r
  · obtain ⟨c, rfl⟩ := List.mem_ofFn.1 h
    exact g.length_column c

/-- There are as many rows as columns. -/
theorem length_lines (g : Grid Colour n) : (g.rows ++ g.columns).length = 2 * n := by
  rw [List.length_append, length_rows, length_columns]
  omega

/-- **A grid has as many values as cells.** -/
theorem length_toList {α : Type} (g : Grid α n) : g.toList.length = n * n := by
  rw [toList, List.length_flatten]
  have hrows : g.rows.map List.length = List.replicate n n := by
    refine List.eq_replicate_iff.2 ⟨by rw [List.length_map, length_rows], fun k hk => ?_⟩
    obtain ⟨row, hrow, rfl⟩ := List.mem_map.1 hk
    obtain ⟨r, rfl⟩ := List.mem_ofFn.1 hrow
    exact g.length_row r
  rw [hrows, List.sum_replicate_nat]

end Grid

namespace Penalty

variable {n : Nat} (g : Grid Colour n)

/-- The points of all runs. -/
theorem runs_total_le : ((g.rows ++ g.columns).map runs).sum ≤ 2 * (n * n) := by
  have hsum := sum_map_le fun line hline => Grid.length_of_mem_lines (g := g) hline ▸ runs_le line
  rwa [Grid.length_lines, Nat.mul_assoc] at hsum

/-- The points of all squares. -/
theorem squares_total_le : squares g.rows ≤ 3 * (n * n) := by
  have hrows : ∀ row ∈ g.rows, row.length = n := fun row hrow =>
    Grid.length_of_mem_lines (g := g) (List.mem_append_left _ hrow)
  have hsquares := squares_le hrows
  rwa [Grid.length_rows, Nat.mul_assoc] at hsquares

/-- The points of all finder-like stretches. -/
theorem finderLike_total_le :
    ((g.rows ++ g.columns).map finderLike).sum ≤ 80 * (n * n) + 640 * n := by
  have hsum := sum_map_le fun line hline => Grid.length_of_mem_lines (g := g) hline ▸ finderLike_le line
  have hproduct : 2 * n * (40 * (n + 8)) = 80 * (n * n) + 640 * n := by ring
  rwa [Grid.length_lines, hproduct] at hsum

/-- The balance never gives more than a hundred points. -/
theorem balance_total_le : balance (g.toList.countP Colour.isDark) (n * n) ≤ 100 := by
  refine balance_le ?_
  rw [← g.length_toList]
  exact List.countP_le_length

/-- **The penalty of a grid no wider than a symbol fits in 32 bits.** -/
theorem total_lt (h : n ≤ 177) : penalty g < 2 ^ 32 := by
  have hruns := runs_total_le g
  have hsquares := squares_total_le g
  have hfinder := finderLike_total_le g
  have hbalance := balance_total_le g
  have hcells : n * n ≤ 177 * 177 := Nat.mul_le_mul h h
  unfold penalty
  dsimp only
  omega

end Penalty
end QRCode
