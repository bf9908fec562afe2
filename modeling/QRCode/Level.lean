/-
# Error correction levels

`ECLevel`, and its bits in the format information.

Four levels of protection, from `L` (about 7 % of the codewords may be damaged)
to `H` (about 30 %).  The two-bit indicator in the format information is not the
index of the level: it is `01`, `00`, `11`, `10` for `L`, `M`, `Q`, `H`, the
index with its low bit flipped (`Level.formatBits`).
-/

namespace QRCode

/-- An error correction level. -/
inductive Level where
  | low
  | medium
  | quartile
  | high
  deriving DecidableEq

namespace Level

/-- All levels, weakest first. -/
def all : List Level := [low, medium, quartile, high]

/-- The place of the level among the four, from `0`. -/
def index : Level → Nat
  | low => 0
  | medium => 1
  | quartile => 2
  | high => 3

/-- The letter that names the level. -/
def letter : Level → String
  | low => "L"
  | medium => "M"
  | quartile => "Q"
  | high => "H"

/-- The two-bit indicator of the level in the format information (`ECLevel::format_bits`). -/
def formatBits (level : Level) : Nat := level.index ^^^ 1

/-- The list of levels is complete. -/
theorem mem_all (level : Level) : level ∈ all := by cases level <;> simp [all]

/-- The index of a level fits in its two bits. -/
theorem index_lt (level : Level) : level.index < 4 := by cases level <;> decide

end Level
end QRCode
