/-
# Masks

`MaskPattern` and its `mask_functions`, from `checkerboard` to `meadow`.

A mask is one of eight conditions on the row `r` and the column `c` of a module;
data modules are turned round where it holds.

| mask | condition |
| ---: | --- |
| 0 | `r + c` is even |
| 1 | `r` is even |
| 2 | `3` divides `c` |
| 3 | `3` divides `r + c` |
| 4 | `⌊r / 2⌋ + [c / 3]` is even |
| 5 | `(r c mod 2) + (r c rem 3) = 0` |
| 6 | `(r c mod 2) + (r c rem 3)` is even |
| 7 | `(r + c mod 2) + (r c rem 3)` is even |

The conditions are stated for signed coordinates.  Halves are rounded down and
`mod` is never negative, but `[ ]` and `rem` go toward zero, so `rem` has the sign
of the product; for coordinates inside a symbol all of them are the usual ones.
-/

import QRCode.Error

namespace QRCode

/-- The eight conditions, on the row and the column of a module. -/
def maskConditions : Vector (Int → Int → Bool) 8 := #v[
  fun r c => (r + c) % 2 = 0,
  fun r _ => r % 2 = 0,
  fun _ c => c % 3 = 0,
  fun r c => (r + c) % 3 = 0,
  fun r c => (r / 2 + c.tdiv 3) % 2 = 0,
  fun r c => r * c % 2 + (r * c).tmod 3 = 0,
  fun r c => (r * c % 2 + (r * c).tmod 3) % 2 = 0,
  fun r c => ((r + c) % 2 + (r * c).tmod 3) % 2 = 0]

/-- A mask, by its index. -/
structure Mask where
  index : Fin 8
  deriving DecidableEq

namespace Mask

/-- The mask with a given index (`MaskPattern::new`). -/
def ofNat (n : Nat) : Except Error Mask :=
  if h : n < 8 then .ok ⟨n, h⟩ else .error (.invalidMask n)

/-- All masks, in the order of their indices (`MaskPattern::all`). -/
def all : List Mask := (List.finRange 8).map .mk

/-- Whether the condition of a mask holds at a row and a column (`MaskPattern::mask_functions`). -/
def holds (m : Mask) (r c : Int) : Bool := maskConditions[m.index] r c

/-- The list of masks is complete. -/
theorem mem_all (m : Mask) : m ∈ all := List.mem_map.2 ⟨m.index, List.mem_finRange _, rfl⟩

/-- The index of a mask is accepted, and gives the mask back. -/
theorem ofNat_index (m : Mask) : ofNat m.index = .ok m := by rw [ofNat, dif_pos m.index.isLt]

end Mask
end QRCode
