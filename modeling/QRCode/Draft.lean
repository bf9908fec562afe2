/-
# Drafts: symbols under construction

`Canvas`, whose modules are the cells here: each `Module` has a role and a colour.

Every cell of a draft is empty or has a role and a colour.  A draft is drawn in
three steps, in any order and as often as one likes:

| step | writes |
| --- | --- |
| `drawFunctionPatterns` | function cells where a function pattern of the version lies |
| `placePayload` | format cells all dark, version cells, and data cells where a cell is still empty |
| `applyMask` | data cells turned round where the mask holds, then the format cells |

`toSymbol` forgets the roles; it asks for a mask and for a colour in every cell.
Cells are addressed by signed coordinates, and a negative one counts from the far
edge (`wrap?`).
-/

import QRCode.FormatInfo
import QRCode.FunctionPattern
import QRCode.Symbol
import QRCode.VersionInfo
import QRCode.Zigzag

namespace QRCode

-- powers are those of the core library, whatever else is imported
attribute [local instance (high)] instPowNat

/-- A cell of a draft. -/
inductive Cell where
  | empty
  | function (colour : Colour)
  | version (colour : Colour)
  | format (colour : Colour)
  | data (colour : Colour)
  deriving DecidableEq

namespace Cell

/-- The colour of a cell, if it is drawn. -/
def colour? : Cell → Option Colour
  | empty => none
  | function k | version k | format k | data k => some k

/-- Data turned round where a condition holds; every other cell as it is. -/
def flipIf (condition : Bool) : Cell → Cell
  | data k => data (if condition then k.flip else k)
  | cell => cell

end Cell

/-- A symbol under construction. -/
structure Draft where
  version : Version
  level : Level
  /-- The mask that was applied last. -/
  mask : Option Mask
  grid : Grid Cell version.width

/-- A program that draws; what it has drawn stays, also when it fails. -/
abbrev Drawing := EStateM Error Draft

namespace Draft

/-- A draft with nothing drawn. -/
def blank (v : Version) (level : Level) : Draft := ⟨v, level, none, .fill _ .empty⟩

/-- The number of cells along an edge. -/
def width (d : Draft) : Nat := d.version.width

/-! ### Single cells -/

/-- The row or column that a signed coordinate names: from `0` up to the width as
it stands, below `0` down to minus the width counted from the far edge. -/
def wrap? (n : Nat) (x : Int) : Option Nat :=
  if -(n : Int) ≤ x ∧ x < n then some (x % n).toNat else none

/-- The place that signed coordinates name, the row looked at first (`Canvas::coord_to_index`). -/
def place (d : Draft) (r c : Int) : Except Error (Nat × Nat) :=
  match wrap? d.width r, wrap? d.width c with
  | none, _ => .error (.outsideDraft r d.width)
  | some _, none => .error (.outsideDraft c d.width)
  | some r, some c => .ok (r, c)

/-- The cell at signed coordinates (`Canvas::get`). -/
def get (d : Draft) (r c : Int) : Except Error Cell := do
  let p ← d.place r c
  return (d.grid.get? p).getD .empty

/-- The draft with another cell at signed coordinates (`Canvas::set`). -/
def set (d : Draft) (r c : Int) (cell : Cell) : Except Error Draft := do
  let p ← d.place r c
  return { d with grid := d.grid.set p cell }

/-! ### Function patterns, format and version information -/

/-- The function patterns of the version, over whatever was there
(`Canvas::draw_all_function_patterns`). -/
def drawFunctionPatterns (d : Draft) : Draft :=
  { d with grid := d.grid.mapCells fun r c cell =>
      match functionColour? d.version (r.val, c.val) with
      | some k => .function k
      | none => cell }

/-- Fifteen bits in both copies of the format information, and the dark module
(`Canvas::draw_format_info`). -/
def drawFormat (d : Draft) (info : Nat) : Draft :=
  { d with grid := d.grid.setAll ((formatColours d.width info).map fun e => (e.1, .format e.2)) }

/-- The format cells all dark, to keep them free of data (`Canvas::reserve_format_area`). -/
def reserveFormat (d : Draft) : Draft := d.drawFormat (2 ^ formatLength - 1)

/-- Both copies of the version information, where the version has one (`Canvas::draw_version_info`). -/
def drawVersion (d : Draft) : Draft :=
  { d with grid := d.grid.setAll ((versionColours d.version).map fun e => (e.1, .version e.2)) }

/-! ### Data -/

/-- The places of the path whose cells are empty. -/
def freePlaces (d : Draft) : List (Nat × Nat) :=
  (Zigzag.path d.width).filter fun p => d.grid.get? p = some .empty

/-- Bits placed one by one on given places, and light data on the places left. -/
def placeBits (d : Draft) (places : List (Nat × Nat)) (bits : List Bool) : Draft :=
  let colours := (bits ++ List.replicate (places.length - bits.length) false).map Colour.ofBit
  { d with grid := d.grid.setAll (places.zip (colours.map .data)) }

/-- Format and version cells reserved, before data is placed. -/
def reserve (d : Draft) : Draft := d.reserveFormat.drawVersion

/-- Format and version cells, and data in all empty cells of the path
(`Canvas::draw_encoding_region`).  The answer
is the number of light cells after the payload; a payload that is too long fills
all empty cells and then fails. -/
def placePayload (payload : List Bool) : Drawing Nat := fun d =>
  let places := d.reserve.freePlaces
  let drawn := d.reserve.placeBits places payload
  if payload.length ≤ places.length then .ok (places.length - payload.length) drawn
  else .error .incompleteSymbol drawn

/-! ### Masking -/

/-- Data cells turned round where the mask holds, then the format information of the level and the
mask (`Canvas::apply_mask`). -/
def applyMask (d : Draft) (m : Mask) : Draft :=
  let flipped : Draft :=
    { d with mask := some m, grid := d.grid.mapCells fun r c cell => cell.flipIf (m.holds r.val c.val) }
  flipped.drawFormat (formatInfo d.level m)

/-- Whether every cell is drawn. -/
def isComplete (d : Draft) : Bool := d.grid.toList.all fun cell => cell.colour?.isSome

/-- The finished symbol; a mask must have been applied and every cell drawn (`Canvas::finalize`). -/
def toSymbol (d : Draft) : Except Error Symbol :=
  match d.mask with
  | none => .error .incompleteSymbol
  | some m =>
    if d.isComplete then .ok ⟨d.version, d.level, m, d.grid.map fun cell => cell.colour?.getD .light⟩
    else .error .incompleteSymbol

end Draft
end QRCode
