/-
# Text in 16-bit units

`QRBuilder::from_utf16`.  Text that comes in units of sixteen bits is packed as the bytes
of its UTF-8 form, which a transcoder of another package makes
(`convert_utf16_to_utf8` of `encoding_rs`).  What stands here is the documented behaviour
of that function: valid units become the UTF-8 form of their characters, and each unit
that is part of no valid character becomes the replacement character.

A high surrogate followed by a low one is one character beyond the first 65536; a
surrogate without its partner stands for no character.  Units that spell a text are read
back as that text (`Utf16.decode_units`).
-/

namespace QRCode
namespace Utf16

/-- Whether a unit is the first half of a pair. -/
def isHigh (u : UInt16) : Bool := 0xD800 ≤ u ∧ u < 0xDC00

/-- Whether a unit is the second half of a pair. -/
def isLow (u : UInt16) : Bool := 0xDC00 ≤ u ∧ u < 0xE000

/-- The character of a pair. -/
def ofPair (high low : UInt16) : Char :=
  Char.ofNat (0x10000 + (high.toNat - 0xD800) * 0x400 + (low.toNat - 0xDC00))

/-- What stands for a surrogate without its partner. -/
def replacement : Char := Char.ofNat 0xFFFD

/-- The characters of a list of units. -/
def decode : List UInt16 → List Char
  | [] => []
  | [u] => [if isHigh u ∨ isLow u then replacement else Char.ofNat u.toNat]
  | u :: w :: rest =>
    if isHigh u then
      if isLow w then ofPair u w :: decode rest else replacement :: decode (w :: rest)
    else (if isLow u then replacement else Char.ofNat u.toNat) :: decode (w :: rest)

/-- The UTF-8 form of a list of units. -/
def toUtf8 (units : List UInt16) : List UInt8 := (decode units).flatMap String.utf8EncodeChar

/-! ### Valid text -/

/-- The units that spell a character: one, or a pair of surrogates. -/
def units (c : Char) : List UInt16 :=
  if c.toNat < 0x10000 then [UInt16.ofNat c.toNat]
  else
    let beyond := c.toNat - 0x10000
    [UInt16.ofNat (0xD800 + beyond / 0x400), UInt16.ofNat (0xDC00 + beyond % 0x400)]

/-- First halves of pairs have a range of their own. -/
theorem isHigh_iff {n : Nat} (h : n < 0x10000) : isHigh (UInt16.ofNat n) ↔ 0xD800 ≤ n ∧ n < 0xDC00 := by
  simp [isHigh, UInt16.le_iff_toNat_le, UInt16.lt_iff_toNat_lt, Nat.mod_eq_of_lt h]

/-- Second halves lie right behind it. -/
theorem isLow_iff {n : Nat} (h : n < 0x10000) : isLow (UInt16.ofNat n) ↔ 0xDC00 ≤ n ∧ n < 0xE000 := by
  simp [isLow, UInt16.le_iff_toNat_le, UInt16.lt_iff_toNat_lt, Nat.mod_eq_of_lt h]

/-- A unit that is no surrogate is a character by itself. -/
theorem decode_cons {u : UInt16} (hhigh : ¬isHigh u) (hlow : ¬isLow u) (rest : List UInt16) :
    decode (u :: rest) = Char.ofNat u.toNat :: decode rest := by
  cases rest with
  | nil => simp [decode, hhigh, hlow]
  | cons w rest => rw [decode, if_neg hhigh, if_neg hlow]

/-- **The units of a character are read back as this character**, whatever follows them. -/
theorem decode_units_append (c : Char) (rest : List UInt16) : decode (units c ++ rest) = c :: decode rest := by
  have hvalid : c.toNat < 0xD800 ∨ 0xDFFF < c.toNat ∧ c.toNat < 0x110000 := c.valid
  unfold units
  by_cases hsmall : c.toNat < 0x10000
  · have hunit : (UInt16.ofNat c.toNat).toNat = c.toNat := UInt16.toNat_ofNat_of_lt' hsmall
    rw [if_pos hsmall, List.cons_append, List.nil_append,
      decode_cons (by rw [isHigh_iff hsmall]; omega) (by rw [isLow_iff hsmall]; omega), hunit, Char.ofNat_toNat]
  · rw [if_neg hsmall]
    dsimp only
    generalize hbeyond : c.toNat - 0x10000 = beyond
    have hhigh : 0xD800 + beyond / 0x400 < 0x10000 := by omega
    have hlow : 0xDC00 + beyond % 0x400 < 0x10000 := by omega
    have hpair : ofPair (UInt16.ofNat (0xD800 + beyond / 0x400)) (UInt16.ofNat (0xDC00 + beyond % 0x400)) = c := by
      have hsum : 0x10000 + (0xD800 + beyond / 0x400 - 0xD800) * 0x400 + (0xDC00 + beyond % 0x400 - 0xDC00) =
          c.toNat := by omega
      rw [ofPair, UInt16.toNat_ofNat_of_lt' hhigh, UInt16.toNat_ofNat_of_lt' hlow, hsum, Char.ofNat_toNat]
    rw [List.cons_append, List.cons_append, List.nil_append, decode, if_pos ((isHigh_iff hhigh).2 (by omega)),
      if_pos ((isLow_iff hlow).2 (by omega)), hpair]

/-- **Units that spell a text are read back as that text.** -/
theorem decode_units (text : List Char) : decode (text.flatMap units) = text := by
  induction text with
  | nil => rfl
  | cons c text ih => rw [List.flatMap_cons, decode_units_append, ih]

end Utf16
end QRCode
