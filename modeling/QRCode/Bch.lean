/-
# Check bits of short numbers

The division that `Version::info` and `format_info` carry out bit by bit.

The format and version information are protected by binary cyclic codes: a number
is followed by the remainder of its polynomial, shifted up by the degree of a
generator, on division by that generator.  One step of the division shifts the
remainder by one place and subtracts the generator when a bit falls out at the
top (`Bch.step`).
-/

namespace QRCode
namespace Bch

/-- One place more of the division by a generator of a given degree. -/
def step (generator degree rem : Nat) : Nat :=
  (rem <<< 1) ^^^ ((rem >>> (degree - 1)) * generator)

/-- The check bits of a number: its remainder after as many places as the degree. -/
def checkBits (generator degree data : Nat) : Nat := Nat.repeat (step generator degree) degree data

/-- A number followed by its check bits. -/
def codeword (generator degree data : Nat) : Nat :=
  (data <<< degree) ||| checkBits generator degree data

end Bch
end QRCode
