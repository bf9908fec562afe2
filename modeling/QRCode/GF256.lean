/-
# The field with 256 elements

`GaloisField`, with the polynomial `PRIMITIVE_POLY`.

An element is a byte, read as a polynomial of degree below eight over the field
with two elements; arithmetic is modulo `x⁸ + x⁴ + x³ + x² + 1`.  Sums are
exclusive ors.  Products go through logarithms to the base `x`, which is primitive:
its powers run through all 255 non-zero elements (`GF256.expTable`), and the
logarithm of an element is the place of its first occurrence among them.

| operation | rule |
| --- | --- |
| `exp n` | the power `n mod 255` of `x` |
| `a * b` | `0` if one factor is, else `exp (log a + log b)` |
| `div a b` | fails for `b = 0` |
| `polynomialProduct a b` | the same product without tables: carry-less multiplication and reduction |
-/

import QRCode.Error

namespace QRCode

/-- An element of the field with 256 elements. -/
structure GF256 where
  byte : UInt8
  deriving DecidableEq

namespace GF256

instance : Zero GF256 := ⟨⟨0⟩⟩

instance : One GF256 := ⟨⟨1⟩⟩

/-- The sum of two elements; it is also their difference (`GaloisField::add`). -/
def add (a b : GF256) : GF256 := ⟨a.byte ^^^ b.byte⟩

instance : Add GF256 := ⟨add⟩

/-- The product with `x`: a shift, and a reduction when a bit falls out. -/
def double (a : GF256) : GF256 :=
  ⟨if a.byte < 128 then a.byte <<< 1 else (a.byte <<< 1) ^^^ 0x1D⟩

/-- The powers of `x`. -/
def power : Nat → GF256
  | 0 => 1
  | n + 1 => (power n).double

/-- The 255 different powers of `x`. -/
def expTable : Vector GF256 255 := Vector.ofFn fun i => power i

/-- The logarithms of all elements; the entry of zero is never read. -/
def logTable : Vector Nat 256 := Vector.ofFn fun i => expTable.toList.idxOf ⟨UInt8.ofNat i⟩

/-- The power of `x` with a given exponent (`GaloisField::exp`). -/
def exp (n : Nat) : GF256 := expTable.get ⟨n % 255, Nat.mod_lt n (by decide)⟩

/-- The logarithm of a non-zero element. -/
def log (a : GF256) : Nat := logTable.get ⟨a.byte.toNat, a.byte.toNat_lt⟩

/-- The product of two elements, by logarithms (`GaloisField::mul`). -/
def mul (a b : GF256) : GF256 := if a = 0 ∨ b = 0 then 0 else exp (a.log + b.log)

instance : Mul GF256 := ⟨mul⟩

/-- The quotient of two elements (`GaloisField::div`). -/
def div (a b : GF256) : Except Error GF256 :=
  if b = 0 then .error (.field .divisionByZero)
  else if a = 0 then .ok 0
  else .ok (exp (a.log + 255 - b.log))

/-- The logarithm of an element, if it has one (`GaloisField::log`). -/
def log? (a : GF256) : Except Error Nat :=
  if a = 0 then .error (.field .logarithmOfZero) else .ok a.log

/-- Bytes as elements. -/
def ofBytes (bytes : List UInt8) : List GF256 := bytes.map .mk

/-- Elements as bytes. -/
def toBytes (elements : List GF256) : List UInt8 := elements.map byte

/-- A polynomial, highest coefficient first, at a point, by Horner's scheme (`GaloisField::eval_poly`). -/
def eval (p : List GF256) (x : GF256) : GF256 := p.foldl (fun acc c => acc * x + c) 0

/-! ### Products without tables -/

/-- The product of two polynomials over the field with two elements, both of degree
below eight, as numbers whose bits are the coefficients. -/
def carrylessProduct (a b : Nat) : Nat :=
  (List.range 8).foldl (fun acc i => if b.testBit i then acc ^^^ (a <<< i) else acc) 0

/-- A polynomial of degree below fifteen modulo `x⁸ + x⁴ + x³ + x² + 1`. -/
def reduce (p : Nat) : Nat :=
  [6, 5, 4, 3, 2, 1, 0].foldl (fun p i => if p.testBit (8 + i) then p ^^^ (0x11D <<< i) else p) p

/-- The product of two elements as a product of polynomials. -/
def polynomialProduct (a b : GF256) : GF256 :=
  ⟨UInt8.ofNat (reduce (carrylessProduct a.byte.toNat b.byte.toNat))⟩

end GF256
end QRCode
