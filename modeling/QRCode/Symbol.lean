/-
# Finished symbols

`QR`, which `Canvas::finalize` makes.

A finished symbol is a grid of colours, as wide as its version says, with the level
and the mask that were used to make it.
-/

import QRCode.Colour
import QRCode.Grid
import QRCode.Description

namespace QRCode

/-- A finished symbol. -/
structure Symbol where
  version : Version
  level : Level
  mask : Mask
  grid : Grid Colour version.width

namespace Symbol

/-- The number of modules along an edge. -/
def width (s : Symbol) : Nat := s.version.width

/-- What is said about the symbol. -/
def description (s : Symbol) : Description := ⟨some s.version, s.level, some s.mask⟩

/-- The colour at a row and a column (`QR::get`). -/
def get (s : Symbol) (r c : Nat) : Except Error Colour :=
  match s.grid.get? (r, c) with
  | some k => .ok k
  | none => .error (.outsideSymbol r c s.width)

/-- The number of dark modules (`QR::count_dark_modules`). -/
def darkCount (s : Symbol) : Nat := s.grid.toList.countP Colour.isDark

end Symbol
end QRCode
