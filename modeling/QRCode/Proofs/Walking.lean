/-
# The path, one place after the other

`EncRegionIter::next`.

The placement path can be walked with nothing but a row and a column at hand.  Columns
are counted from the right edge, from one on and without the timing column; what this
count leaves modulo four (`kind`) tells where to go:

| kind of the column | next place |
| --- | --- |
| 1 or 3, a right column | in the same row, one column to the left |
| 2, the left column of an upward sweep | a row up and one column to the right, until the row is the first |
| 0, the left column of a downward sweep | a row down and one column to the right, until it is the last |

At the end of a sweep the walk stays in its row and turns to the right column of the next
one, over the timing column where that lies between them.  It ends with a column below zero.

So walked, the places are those of the path in its order (`walk_eq_take`).
-/

import QRCode.Proofs.Region

namespace QRCode
namespace Zigzag

/-- The kind of a column: its number from the right edge without the timing column,
modulo four. -/
def kind (n : Nat) (c : Int) : Int := (n - if c ≤ timingColumn then c + 1 else c) % 4

/-- Where the walk goes from a row and a column (`EncRegionIter::next`). -/
def next (n : Nat) (p : Int × Int) : Int × Int :=
  let (r, c) := p
  if kind n c = 2 ∧ 0 < r then (r - 1, c + 1)
  else if kind n c = 0 ∧ r < n - 1 then (r + 1, c + 1)
  else if (kind n c = 0 ∨ kind n c = 2) ∧ c = timingColumn + 1 then (r, c - 2)
  else (r, c - 1)

/-- Where the walk begins: in the lower right corner (`EncRegionIter::new`). -/
def start (n : Nat) : Int × Int := (n - 1, n - 1)

/-- The places that so many steps of a walk visit; a walk has ended when its column is
below zero. -/
def walk (n : Nat) : Nat → Int × Int → List (Int × Int)
  | 0, _ => []
  | k + 1, p => if p.2 < 0 then [] else p :: walk n k (next n p)

/-- A place as a walk sees it. -/
def signed (p : Nat × Nat) : Int × Int := (p.1, p.2)

/-- The places that a walk has still to visit, from where it stands. -/
def Remains (n : Nat) : Int × Int → List (Nat × Nat) → Prop
  | p, [] => p.2 < 0
  | p, x :: l => p = signed x ∧ Remains n (next n p) l

/-- **A walk visits what remains of it**, and ends there. -/
theorem Remains.walk_eq {n : Nat} {p : Int × Int} {l : List (Nat × Nat)} (h : Remains n p l) (k : Nat) :
    walk n k p = (l.take k).map signed := by
  induction k generalizing p l with
  | zero => rw [List.take_zero]; rfl
  | succ k ih =>
    cases l with
    | nil => exact if_pos h
    | cons x l =>
      obtain ⟨rfl, hrest⟩ := h
      have hinside : ¬(signed x).2 < 0 := by unfold signed; omega
      rw [walk, if_neg hinside, ih hrest, List.take_succ_cons, List.map_cons]

/-! ### A sweep -/

variable {n sweep r : Nat} {l : List (Nat × Nat)}

/-- The kinds of both columns of a sweep. -/
theorem kind_sweep (hn : n % 2 = 1) (h : sweep < n / 2) :
    kind n (rightColumn n sweep) = (1 + 2 * sweep : Int) % 4 ∧
      kind n (rightColumn n sweep - 1) = (2 + 2 * sweep : Int) % 4 := by
  unfold kind rightColumn timingColumn
  dsimp only
  split <;> split <;> split <;> omega

/-- From a right column the walk goes to the left one. -/
theorem next_right (hn : n % 2 = 1) (h : sweep < n / 2) (r : Int) :
    next n (r, rightColumn n sweep) = (r, (rightColumn n sweep : Int) - 1) := by
  have hkind := (kind_sweep hn h).1
  unfold next
  dsimp only
  rw [if_neg (by omega), if_neg (by omega), if_neg (by omega)]

/-- From the left column of an upward sweep it goes to the right one, a row up. -/
theorem next_up (hn : n % 2 = 1) (h : sweep < n / 2) (heven : sweep % 2 = 0) (r : Nat) :
    next n (((r + 1 : Nat) : Int), (rightColumn n sweep : Int) - 1) =
      ((r : Int), (rightColumn n sweep : Int)) := by
  have hkind := (kind_sweep hn h).2
  unfold next
  dsimp only
  rw [if_pos (by omega)]
  refine Prod.ext ?_ ?_ <;> dsimp only <;> omega

/-- From the left column of a downward sweep it goes to the right one, a row down. -/
theorem next_down (hn : n % 2 = 1) (h : sweep < n / 2) (hodd : sweep % 2 = 1) (hr : r + 1 < n) :
    next n ((r : Int), (rightColumn n sweep : Int) - 1) =
      (((r + 1 : Nat) : Int), (rightColumn n sweep : Int)) := by
  have hkind := (kind_sweep hn h).2
  unfold next
  dsimp only
  rw [if_neg (by omega), if_pos (by omega)]
  refine Prod.ext ?_ ?_ <;> dsimp only <;> omega

/-- **One row of a sweep** is visited from its right column on. -/
theorem remains_row (hn : n % 2 = 1) (h : sweep < n / 2)
    (hl : Remains n (next n ((r : Int), (rightColumn n sweep : Int) - 1)) l) :
    Remains n ((r : Int), (rightColumn n sweep : Int))
      ((r, rightColumn n sweep) :: (r, rightColumn n sweep - 1) :: l) := by
  have hpos := (rightColumn_bounds hn h).1
  have hleft : signed (r, rightColumn n sweep - 1) = ((r : Int), (rightColumn n sweep : Int) - 1) := by
    unfold signed
    dsimp only
    rw [Int.natCast_sub hpos, Int.natCast_one]
  refine ⟨rfl, ?_⟩
  rw [next_right hn h]
  exact ⟨hleft.symm, hl⟩

/-- An upward sweep is visited from any of its rows on. -/
theorem remains_upward (hn : n % 2 = 1) (h : sweep < n / 2) (heven : sweep % 2 = 0)
    (hl : Remains n (next n (0, (rightColumn n sweep : Int) - 1)) l) (r : Nat) :
    Remains n ((r : Int), (rightColumn n sweep : Int))
      ((List.range (r + 1)).reverse.flatMap
        (fun r => [(r, rightColumn n sweep), (r, rightColumn n sweep - 1)]) ++ l) := by
  induction r with
  | zero => exact remains_row (r := 0) hn h hl
  | succ r ih =>
    rw [List.range_succ, List.reverse_append, List.reverse_singleton, List.singleton_append,
      List.flatMap_cons, List.append_assoc]
    exact remains_row hn h (next_up hn h heven r ▸ ih)

/-- A downward sweep is visited from any of its rows on. -/
theorem remains_downward (hn : n % 2 = 1) (h : sweep < n / 2) (hodd : sweep % 2 = 1)
    (hl : Remains n (next n (n - 1, (rightColumn n sweep : Int) - 1)) l) {k : Nat} (hk : r + k + 1 = n) :
    Remains n ((r : Int), (rightColumn n sweep : Int))
      ((List.range' r (k + 1)).flatMap
        (fun r => [(r, rightColumn n sweep), (r, rightColumn n sweep - 1)]) ++ l) := by
  induction k generalizing r with
  | zero =>
    have hlast : (r : Int) = n - 1 := by omega
    exact remains_row hn h (hlast ▸ hl)
  | succ k ih =>
    have hdown := next_down (r := r) hn h hodd (by omega)
    rw [List.range'_succ, List.flatMap_cons, List.append_assoc]
    exact remains_row hn h (hdown ▸ ih (by omega))

/-! ### All sweeps -/

/-- Where a sweep begins, or the walk ends: an upward sweep in the last row, a downward
one in the first. -/
def entry (n sweep : Nat) : Int × Int :=
  (if sweep % 2 = 0 then n - 1 else 0, if sweep < n / 2 then rightColumn n sweep else -1)

/-- The row in which a sweep ends. -/
def lastRow (n sweep : Nat) : Int := if sweep % 2 = 0 then 0 else n - 1

/-- The right columns of neighbouring sweeps are two apart, three across the timing column. -/
theorem column_entry_succ (hn : n % 2 = 1) (h : sweep < n / 2) :
    (entry n (sweep + 1)).2 =
      (rightColumn n sweep : Int) - if rightColumn n sweep = timingColumn + 2 then 3 else 2 := by
  unfold entry
  dsimp only
  by_cases hlast : sweep + 1 < n / 2
  · rw [if_pos hlast]
    unfold rightColumn timingColumn
    dsimp only
    split <;> split <;> split <;> omega
  · -- the last sweep has the columns `1` and `0`
    have hc : rightColumn n sweep = 1 := by
      unfold rightColumn timingColumn
      dsimp only
      split <;> omega
    rw [if_neg hlast, hc]
    rfl

/-- From the end of a sweep the walk turns to the next one. -/
theorem next_lastRow (hn : n % 2 = 1) (h : sweep < n / 2) :
    next n (lastRow n sweep, (rightColumn n sweep : Int) - 1) = entry n (sweep + 1) := by
  have hkind := (kind_sweep hn h).2
  have hcolumn := column_entry_succ hn h
  have hrow : (entry n (sweep + 1)).1 = lastRow n sweep := by
    unfold entry lastRow
    dsimp only
    split <;> split <;> omega
  have hinside : ¬(kind n ((rightColumn n sweep : Int) - 1) = 2 ∧ 0 < lastRow n sweep) ∧
      ¬(kind n ((rightColumn n sweep : Int) - 1) = 0 ∧ lastRow n sweep < n - 1) := by
    unfold lastRow
    split <;> omega
  unfold next
  dsimp only
  rw [if_neg hinside.1, if_neg hinside.2]
  split at hcolumn <;> rename_i hc
  · rw [if_pos (by omega)]
    refine Prod.ext hrow.symm ?_
    dsimp only
    omega
  · rw [if_neg (by omega)]
    refine Prod.ext hrow.symm ?_
    dsimp only
    omega

/-- **A whole sweep** is visited from where it begins. -/
theorem remains_sweep (hn : n % 2 = 1) (h : sweep < n / 2) (hl : Remains n (entry n (sweep + 1)) l) :
    Remains n (entry n sweep) (sweepPlaces n sweep ++ l) := by
  rw [← next_lastRow hn h] at hl
  unfold entry
  rw [if_pos h]
  unfold lastRow at hl
  unfold sweepPlaces sweepRows
  dsimp only
  by_cases heven : sweep % 2 = 0
  · rw [if_pos heven] at hl ⊢
    have hrows : n - 1 + 1 = n := by omega
    have hup := remains_upward hn h heven hl (n - 1)
    rw [hrows, Int.natCast_sub (by omega), Int.natCast_one] at hup
    rwa [if_pos heven]
  · rw [if_neg heven] at hl ⊢
    have hrows : n - 1 + 1 = n := by omega
    have hdown := remains_downward (r := 0) (k := n - 1) hn h (by omega) hl (by omega)
    rw [hrows, ← List.range_eq_range'] at hdown
    rwa [if_neg heven]

/-- At the start, all of the path remains. -/
theorem remains_path (hn : n % 2 = 1) (hw : 9 ≤ n) : Remains n (start n) (path n) := by
  have hsweeps : ∀ k sweep, sweep + k = n / 2 →
      Remains n (entry n sweep) ((List.range' sweep k).flatMap (sweepPlaces n)) := by
    intro k
    induction k with
    | zero =>
      intro sweep hs
      have hend : (entry n sweep).2 = -1 := if_neg (by omega)
      rw [List.range'_zero, List.flatMap_nil]
      show (entry n sweep).2 < 0
      omega
    | succ k ih =>
      intro sweep hs
      rw [List.range'_succ, List.flatMap_cons]
      exact remains_sweep hn (by omega) (ih (sweep + 1) (by omega))
  have hstart : start n = entry n 0 := by
    unfold start entry rightColumn timingColumn
    refine Prod.ext rfl ?_
    dsimp only
    rw [if_pos (by omega), if_pos (by omega)]
    omega
  rw [hstart, path, List.range_eq_range']
  exact hsweeps (n / 2) 0 (by omega)

/-- **A walk is the path**, cut off after so many steps. -/
theorem walk_eq_take (hn : n % 2 = 1) (hw : 9 ≤ n) (k : Nat) :
    walk n k (start n) = ((path n).take k).map signed := (remains_path hn hw).walk_eq k

/-- Across the timing column, in the narrowest symbol. -/
example : walk 21 4 (0, 8) = [(0, 8), (0, 7), (0, 5), (0, 4)] := by decide

end Zigzag
end QRCode
