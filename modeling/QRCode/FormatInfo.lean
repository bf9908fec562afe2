/-
# Format information

`format_info`, with the coordinates `FORMAT_INFO_COORDS_QR_MAIN` and
`FORMAT_INFO_COORDS_QR_SIDE`.

Fifteen bits tell a reader the level and the mask of a symbol: two bits for the
level, three for the mask, ten check bits, the whole turned round by a fixed
pattern so that it is never blank.  It is drawn twice, the highest bit first:

| copy | places |
| --- | --- |
| main | along row 8 from the left edge, then up column 8, around the top left finder |
| side | up column 8 from the lower edge, then along row 8 up to the right edge |

Both copies skip the timing lines, row 6 and column 6.  Beside the side copy one
module is always dark.  No two levels and masks share their fifteen bits
(`formatInfo_injective`), so either copy determines both.
-/

import QRCode.Bch
import QRCode.BitString
import QRCode.Colour
import QRCode.Level
import QRCode.Mask

namespace QRCode

-- powers are those of the core library, whatever else is imported
attribute [local instance (high)] instPowNat

/-- The generator of the check bits, of degree ten (`FORMAT_INFO_GENERATOR`). -/
def formatGenerator : Nat := 0x537

/-- The pattern that is laid over the fifteen bits (`FORMAT_MASK`). -/
def formatPattern : Nat := 0x5412

/-- The number of bits of the format information (`FORMAT_INFO_BIT_LEN`). -/
def formatLength : Nat := 15

/-- The format information of a level and a mask (`format_info`). -/
def formatInfo (level : Level) (mask : Mask) : Nat :=
  Bch.codeword formatGenerator 10 ((level.formatBits <<< 3) ||| mask.index.val) ^^^ formatPattern

/-- The places of the main copy, highest bit first. -/
def formatMain : List (Nat × Nat) :=
  [(8, 0), (8, 1), (8, 2), (8, 3), (8, 4), (8, 5), (8, 7), (8, 8),
    (7, 8), (5, 8), (4, 8), (3, 8), (2, 8), (1, 8), (0, 8)]

/-- The places of the side copy in a symbol of width `n`, highest bit first. -/
def formatSide (n : Nat) : List (Nat × Nat) :=
  [(n - 1, 8), (n - 2, 8), (n - 3, 8), (n - 4, 8), (n - 5, 8), (n - 6, 8), (n - 7, 8),
    (8, n - 8), (8, n - 7), (8, n - 6), (8, n - 5), (8, n - 4), (8, n - 3), (8, n - 2), (8, n - 1)]

/-- The place of the module that is always dark. -/
def darkPlace (n : Nat) : Nat × Nat := (n - 8, 8)

/-- All places that belong to the format information. -/
def formatPlaces (n : Nat) : List (Nat × Nat) := formatMain ++ formatSide n ++ [darkPlace n]

/-- The colours of both copies of fifteen bits, and of the dark module. -/
def formatColours (n info : Nat) : List ((Nat × Nat) × Colour) :=
  let colours := (bitsOf info formatLength).map Colour.ofBit
  formatMain.zip colours ++ (formatSide n).zip colours ++ [(darkPlace n, .dark)]

/-- The format information fits in its fifteen bits. -/
theorem formatInfo_lt (level : Level) (mask : Mask) : formatInfo level mask < 2 ^ formatLength := by
  have key : ∀ i, formatInfo level ⟨i⟩ < 2 ^ formatLength := by cases level <;> decide
  exact key mask.index

/-- **Fifteen bits determine the level and the mask.** -/
theorem formatInfo_injective {l₁ l₂ : Level} {m₁ m₂ : Mask} (h : formatInfo l₁ m₁ = formatInfo l₂ m₂) :
    l₁ = l₂ ∧ m₁ = m₂ := by
  have key : ∀ i j, formatInfo l₁ ⟨i⟩ = formatInfo l₂ ⟨j⟩ → l₁ = l₂ ∧ i = j := by
    cases l₁ <;> cases l₂ <;> decide
  obtain ⟨hl, hm⟩ := key m₁.index m₂.index h
  refine ⟨hl, ?_⟩
  cases m₁; cases m₂; cases hm; rfl

end QRCode
