/-
# The best mask

`select_best_mask`, which tries `Canvas::apply_mask` with every mask.

All eight masks are tried on one draft.  The symbol with the lowest penalty wins,
and of several the one with the lowest mask: a later trial has to be strictly
better (`Trial.better`).
-/

import QRCode.Draft
import QRCode.Penalty
import QRCode.Trace

namespace QRCode

/-- A symbol and its penalty. -/
structure Trial where
  symbol : Symbol
  points : Nat

namespace Trial

/-- A draft finished with a mask, and scored. -/
def run (d : Draft) (m : Mask) : Except Error Trial := do
  let symbol ← (d.applyMask m).toSymbol
  return ⟨symbol, penalty symbol.grid⟩

/-- The better of the best trial so far and the next one. -/
def better (best : Option Trial) (next : Trial) : Trial :=
  match best with
  | none => next
  | some trial => if next.points < trial.points then next else trial

end Trial

/-- Masks tried one after the other, and the best trial among them and an earlier
one. -/
def tryMasks (d : Draft) (best : Option Trial) : List Mask → Traced (Option Trial)
  | [] => pure best
  | m :: rest => do
    let next ← Trial.run d m
    Traced.emit (.scored m next.points)
    tryMasks d (some (Trial.better best next)) rest

/-- The symbol of a draft with the best mask (`select_best_mask`). -/
def selectMask (d : Draft) : Traced Symbol := do
  match ← tryMasks d none Mask.all with
  | some trial => return trial.symbol
  | none => Traced.ofExcept (.error .incompleteSymbol)

end QRCode
