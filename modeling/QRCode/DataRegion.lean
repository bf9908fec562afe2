/-
# The data region

What remains of a symbol when function patterns, format information and version
information are taken away carries the codewords, along the placement path.  The
region depends on the version alone.
-/

import QRCode.FormatInfo
import QRCode.FunctionPattern
import QRCode.VersionInfo
import QRCode.Zigzag

namespace QRCode

/-- Whether a place belongs to a function pattern, or to the format or version
information. -/
def isReserved (v : Version) (p : Nat × Nat) : Bool :=
  (functionColour? v p).isSome || (formatPlaces v.width).contains p || (versionPlaces v).contains p

/-- The places of the data region, in the order in which they are filled. -/
def dataPlaces (v : Version) : List (Nat × Nat) :=
  (Zigzag.path v.width).filter fun p => !isReserved v p

/-- A place carries data when the path leads to it and it is not reserved. -/
theorem mem_dataPlaces {v : Version} {p : Nat × Nat} :
    p ∈ dataPlaces v ↔ p ∈ Zigzag.path v.width ∧ isReserved v p = false := by
  simp [dataPlaces]

end QRCode
