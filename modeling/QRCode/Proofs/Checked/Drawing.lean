/-
# Drawing, masking and scoring with every precondition checked

The passes of `Canvas`, and `select_best_mask`, on machine words.

The function patterns are drawn pass after pass (`Draft.drawPasses`), the format and version
information bit by bit (`Checked.drawNumber`), and a payload on one empty cell after the other
(`Draft.fillStepwise`).  These are the steps that could have no meaning:

| step | what is tested |
| --- | --- |
| looking at a cell and setting one | both coordinates lie within the edges (`Checked.inside`) |
| rows and columns | they fit in 15 bits, as do the sum and the product of a row and a column |
| the row and the column of a stored cell | the width is not zero |
| a finished symbol | it has as many modules as the square of its width |
| scoring | modules are read inside the symbol, and the sum fits in 32 bits |

All tests pass for every draft, whatever is drawn on it already, and the drawing is the one
that looks up each cell: `Checked.draw_eq`, `Checked.applyMask_eq`, `Checked.selectMask_eq`.
-/

import QRCode.BestMask
import QRCode.Proofs.Checked.Information
import QRCode.Proofs.PatternPasses
import QRCode.Proofs.Placing
import QRCode.Proofs.Scoring
import QRCode.Settings

namespace QRCode

/-- **One pass over the cells in the order in which they are stored**, the row and the column
found by division. -/
theorem Grid.mapCells_eq_ofFn {α β : Type} {n : Nat} (f : Nat → Nat → α → β) (g : Grid α n) :
    g.mapCells (fun r c x => f r.val c.val x) =
      ⟨Vector.ofFn fun i => f (i.val / n) (i.val % n) (g.cells.get i)⟩ := by
  refine congrArg Grid.mk (Vector.ext fun i hi => ?_)
  simp only [Vector.getElem_ofFn, get, Nat.mul_comm (i / n) n, Nat.div_add_mod]
  rfl

namespace Checked

/-! ### Drawing -/

/-- A draft with everything but a mask: function patterns, format and version cells, payload. -/
def draw (v : Version) (level : Level) (bits : BitString) : Checked Draft := do
  let _ ← word 15 v.width
  let d ← inside (Draft.blank v level).drawPasses
  let d ← drawFormat (2 ^ formatLength - 1) d
  let d ← drawVersion d
  inside (written (Draft.fillStepwise bits.toBits d))

/-- **Drawing has no faults**, whatever the bits, and draws what a look at each cell draws. -/
theorem draw_eq (v : Version) (level : Level) (bits : BitString) :
    draw v level bits = lift (Settings.draw v level bits).result := by
  have hw := v.width_bounds
  have hplace := Draft.placePayload_eq v level bits.toBits
  have hstepwise := Draft.placeStepwise_eq bits.toBits (Draft.blank v level).drawFunctionPatterns
  rw [draw, word_eq (by omega), pure_bind, Draft.drawPasses_eq, inside_ok, pure_bind, drawFormat_eq, pure_bind,
    drawVersion_eq, pure_bind]
  change inside (written (Draft.placeStepwise bits.toBits (Draft.blank v level).drawFunctionPatterns)) = _
  unfold Settings.draw
  dsimp only
  rw [hstepwise]
  -- too long a payload is an error of the drawing; only coordinates would be a fault
  by_cases hlength : bits.toBits.length ≤ (dataPlaces v).length
  · rw [if_pos hlength] at hplace
    rw [Traced.ofProgram_of_ok hplace, hplace]
    rfl
  · rw [if_neg hlength] at hplace
    rw [Traced.ofProgram_of_error hplace, hplace]
    rfl

/-! ### Masks -/

/-- Whether a mask holds at a row and a column (`MaskPattern::mask_functions`). -/
def holds (m : Mask) (r c : Nat) : Checked Bool := do
  let _ ← word 15 (r + c)
  let _ ← word 15 (r * c)
  return m.holds r c

/-- A stored cell, turned round if it is data and the mask holds there. -/
def turn (m : Mask) (n i : Nat) (cell : Cell) : Checked Cell :=
  match cell with
  | .data k => do
    require (n ≠ 0) .division
    let r ← word 15 (i / n)
    let c ← word 15 (i % n)
    return .data (if ← holds m r c then k.flip else k)
  | cell => return cell

/-- All data turned round, in one pass over the cells in the order in which they are stored. -/
def turned (d : Draft) (m : Mask) : Checked Draft := do
  let cells ← Vector.ofFnM fun i => turn m d.version.width i.val (d.grid.cells.get i)
  return { d with mask := some m, grid := ⟨cells⟩ }

/-- A draft masked: its data turned round, then the format information bit by bit
(`Canvas::apply_mask`). -/
def applyMask (d : Draft) (m : Mask) : Checked Draft := do
  let masked ← turned d m
  drawFormat (← formatInfo d.level m) masked

/-- The finished symbol (`Canvas::finalize`). -/
def toSymbol (d : Draft) : Checked Symbol := do
  let q ← lift d.toSymbol
  require (q.grid.toList.length = q.width * q.width) (.copy q.grid.toList.length (q.width * q.width))
  return q

/-- The penalty of a symbol (`compute_total_penalty`). -/
def score (q : Symbol) : Checked Nat := do
  let _ ← sub q.width 1
  (box 0 q.width 0 q.width).forM fun p =>
    require (p.1 * q.width + p.2 < q.grid.toList.length)
      (.index (p.1 * q.width + p.2) q.grid.toList.length)
  require (q.grid.toList.length ≠ 0) .division
  word 32 (penalty q.grid)

/-- A draft finished with a mask, and scored. -/
def run (d : Draft) (m : Mask) : Checked Trial := do
  let q ← toSymbol (← applyMask d m)
  return ⟨q, ← score q⟩

/-- Masks tried one after the other. -/
def tryMasks (d : Draft) (best : Option Trial) : List Mask → Checked (Option Trial)
  | [] => pure best
  | m :: rest => do
    let next ← run d m
    tryMasks d (some (Trial.better best next)) rest

/-- The symbol of a draft with the best mask (`select_best_mask`). -/
def selectMask (d : Draft) : Checked Symbol := do
  match ← tryMasks d none Mask.all with
  | some trial => return trial.symbol
  | none => throw .incompleteSymbol

/-- A mask can be looked at everywhere in a symbol. -/
theorem turn_eq (m : Mask) {n i : Nat} (hn : n ≤ 177) (hi : i < n * n) (cell : Cell) :
    turn m n i cell = pure (cell.flipIf (m.holds (i / n : Nat) (i % n : Nat))) := by
  have hrow := Grid.row_lt hi
  have hcolumn := Grid.column_lt hi
  have hproduct : i / n * (i % n) ≤ 176 * 176 := Nat.mul_le_mul (by omega) (by omega)
  cases cell with
  | data k =>
    rw [turn, require_eq (by omega), pure_bind, word_eq (by omega), pure_bind, word_eq (by omega), pure_bind,
      holds, word_eq (by omega), pure_bind, word_eq (by omega), pure_bind, pure_bind]
    rfl
  | _ => rfl

/-- One pass turns round what a look at each row and column does. -/
theorem turned_eq (d : Draft) (m : Mask) : turned d m = pure (d.turned m) := by
  have hcells : (fun i => turn m d.version.width i.val (d.grid.cells.get i)) = fun i =>
      pure ((d.grid.cells.get i).flipIf (m.holds (i.val / d.version.width : Nat) (i.val % d.version.width : Nat))) :=
    funext fun i => turn_eq m d.version.width_bounds.2 i.isLt _
  rw [turned, hcells, Vector.ofFnM_pure, pure_bind,
    ← Grid.mapCells_eq_ofFn (fun r c (cell : Cell) => cell.flipIf (m.holds r c))]
  rfl

/-- **Masking has no faults**, on any draft. -/
theorem applyMask_eq (d : Draft) (m : Mask) : applyMask d m = pure (d.applyMask m) := by
  rw [applyMask, turned_eq, pure_bind, formatInfo_eq, pure_bind, drawFormat_eq, Draft.applyMask_eq]

/-- A finished symbol has all its modules. -/
theorem toSymbol_eq (d : Draft) : toSymbol d = lift d.toSymbol := by
  rw [toSymbol]
  cases d.toSymbol with
  | error e => rfl
  | ok q =>
    have hlength : q.grid.toList.length = q.width * q.width := q.grid.length_toList
    rw [lift_ok, pure_bind, require_eq hlength, pure_bind]

/-- **Scoring has no faults**, for any symbol. -/
theorem score_eq (q : Symbol) : score q = pure (penalty q.grid) := by
  have hw : 21 ≤ q.width ∧ q.width ≤ 177 := q.version.width_bounds
  have hlength : q.grid.toList.length = q.width * q.width := q.grid.length_toList
  have hcells : (box 0 q.width 0 q.width).forM (fun p =>
      require (p.1 * q.width + p.2 < q.grid.toList.length)
        (.index (p.1 * q.width + p.2) q.grid.toList.length)) = pure () := by
    refine forM_eq fun p hp => require_eq ?_ _
    have hp := mem_box.1 hp
    rw [hlength]
    exact Grid.index_lt (by omega) (by omega)
  have hpos : q.grid.toList.length ≠ 0 := by
    rw [hlength]
    exact Nat.ne_of_gt (Nat.mul_pos (by omega) (by omega))
  have htotal : penalty q.grid < 2 ^ 32 := Penalty.total_lt q.grid hw.2
  rw [score, sub_eq (by omega), pure_bind, hcells, pure_bind, require_eq hpos, pure_bind,
    word_eq htotal]

/-- A trial has no faults. -/
theorem run_eq (d : Draft) (m : Mask) : run d m = lift (Trial.run d m) := by
  rw [run, applyMask_eq, pure_bind, toSymbol_eq, Trial.run]
  refine lift_bind fun q _ => ?_
  rw [score_eq, pure_bind]
  rfl

/-- Nor have several, one after the other. -/
theorem tryMasks_eq (d : Draft) (best : Option Trial) (masks : List Mask) :
    tryMasks d best masks = lift (QRCode.tryMasks d best masks).result := by
  induction masks generalizing best with
  | nil => rfl
  | cons m masks ih =>
    rw [tryMasks, run_eq, QRCode.tryMasks, Traced.result_bind]
    refine lift_bind fun next _ => ?_
    rw [ih, Traced.emit_bind]

/-- **The search for a mask has no faults**, on any draft. -/
theorem selectMask_eq (d : Draft) : selectMask d = lift (QRCode.selectMask d).result := by
  rw [selectMask, tryMasks_eq, QRCode.selectMask, Traced.result_bind]
  refine lift_bind fun best _ => ?_
  cases best <;> rfl

end Checked
end QRCode
