/-
# Version information

`Version::info`, with the coordinates `VERSION_INFO_COORDS_BL` and
`VERSION_INFO_COORDS_TR`.

From version `7` on, eighteen bits tell a reader the version: six bits for its
number and twelve check bits.  They fill two blocks of three by six modules,
highest bit first: one above the lower left finder, and one left of the upper right
finder with rows and columns exchanged.
-/

import QRCode.Bch
import QRCode.BitString
import QRCode.Colour
import QRCode.Version

namespace QRCode

-- powers are those of the core library, whatever else is imported
attribute [local instance (high)] instPowNat

/-- The generator of the check bits, of degree twelve (`VERSION_INFO_GENERATOR`). -/
def versionGenerator : Nat := 0x1F25

/-- The number of bits of the version information (`VERSION_INFO_BIT_LEN`). -/
def versionLength : Nat := 18

/-- The version information of a version (`Version::info`). -/
def versionInfo (v : Version) : Nat := Bch.codeword versionGenerator 12 v.number

/-- Whether a version carries version information. -/
def Version.hasInfo (v : Version) : Bool := 7 ≤ v.number

/-- The places of the block above the lower left finder, highest bit first: from
right to left in steps of a column, downward in each. -/
def versionLowerLeft (n : Nat) : List (Nat × Nat) :=
  (List.range versionLength).map fun k => (n - 9 - k % 3, 5 - k / 3)

/-- The places of the block left of the upper right finder, highest bit first. -/
def versionUpperRight (n : Nat) : List (Nat × Nat) :=
  (List.range versionLength).map fun k => (5 - k / 3, n - 9 - k % 3)

/-- All places that belong to the version information. -/
def versionPlaces (v : Version) : List (Nat × Nat) :=
  if v.hasInfo then versionLowerLeft v.width ++ versionUpperRight v.width else []

/-- The colours of both blocks. -/
def versionColours (v : Version) : List ((Nat × Nat) × Colour) :=
  let colours := (bitsOf (versionInfo v) versionLength).map Colour.ofBit
  (versionPlaces v).zip (colours ++ colours)

end QRCode
