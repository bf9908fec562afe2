/-
# What is said about a symbol

`Metadata`, and the line that it is shown as.

Version, level and mask of a symbol, or of settings that leave some of them open,
are written on one line between braces; what is open is called `Auto`.
-/

import QRCode.Level
import QRCode.Mask
import QRCode.Version

namespace QRCode

/-- Version, level and mask, as far as they are fixed. -/
structure Description where
  version : Option Version
  level : Level
  mask : Option Mask
  deriving DecidableEq

namespace Description

/-- A number, or `Auto` where none is fixed. -/
def numberOrAuto : Option Nat → String
  | some n => toString n
  | none => "Auto"

/-- The description on one line. -/
def text (m : Description) : String :=
  let version := numberOrAuto (m.version.map Version.number)
  let mask := numberOrAuto (m.mask.map fun mask => mask.index.val)
  s!"\x7b Version: {version}, Ec level: {m.level.letter}, Mask: {mask} \x7d"

end Description
end QRCode
