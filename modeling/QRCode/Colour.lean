/-
# Colours

`Color`, dark or light.

A module of a finished symbol is dark or light.  A bit is drawn dark when it is
one; masking turns colours round (`Colour.flip`), and turning them round twice
changes nothing.
-/

namespace QRCode

/-- The colour of a module. -/
inductive Colour where
  | dark
  | light
  deriving DecidableEq

namespace Colour

/-- The name of the colour. -/
def name : Colour → String
  | dark => "Dark"
  | light => "Light"

/-- Dark for a one, light for a zero. -/
def ofBit (bit : Bool) : Colour := if bit then dark else light

/-- Whether the colour is dark. -/
def isDark : Colour → Bool
  | dark => true
  | light => false

/-- The other colour. -/
def flip : Colour → Colour
  | dark => light
  | light => dark

@[simp] theorem isDark_ofBit (bit : Bool) : (ofBit bit).isDark = bit := by cases bit <;> rfl

@[simp] theorem flip_flip (k : Colour) : k.flip.flip = k := by cases k <;> rfl

end Colour
end QRCode
