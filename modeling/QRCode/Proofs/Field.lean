/-
# The field axioms

`GaloisField::add` and `GaloisField::mul`.

Addition is exclusive or and doubling respects it (`GF256.double_add`), so
multiplication by a power of `x`, which is repeated doubling (`GF256.exp_mul`), is
distributive.  As `x` has order `255` (`GF256.power_injOn`), its powers are all
non-zero elements (`GF256.exists_exp`), logarithms are exponents (`GF256.log_exp`),
and products of powers add exponents (`GF256.exp_mul_exp`).  Everything that a field
asks for follows: `GF256` is a `Field`, of characteristic two.
-/

import QRCode.Proofs.Encoding
import Mathlib.Algebra.Field.Basic
import Mathlib.Algebra.CharP.Two
import Mathlib.Data.Finset.Card
import Mathlib.Data.List.Nodup
import Mathlib.Order.Interval.Finset.Nat

namespace QRCode
namespace GF256

/-- An element is determined by its byte. -/
@[ext] theorem ext {a b : GF256} (h : a.byte = b.byte) : a = b := by
  cases a; cases b; cases h; rfl

/-- Sums are exclusive ors of bytes. -/
theorem byte_add (a b : GF256) : (a + b).byte = a.byte ^^^ b.byte := rfl

/-! ### Addition -/

theorem add_assoc' (a b c : GF256) : a + b + c = a + (b + c) := ext (UInt8.xor_assoc _ _ _)

theorem add_comm' (a b : GF256) : a + b = b + a := ext (UInt8.xor_comm _ _)

theorem add_zero' (a : GF256) : a + 0 = a := ext UInt8.xor_zero

/-- Every element is its own negative. -/
theorem add_self (a : GF256) : a + a = 0 := ext UInt8.xor_self

/-! ### Doubling -/

/-- What a bit that falls out at the top adds. -/
def carry (b : UInt8) : UInt8 := if b.toNat.testBit 7 then 0x1D else 0

/-- What falls out of a sum is the sum of what falls out. -/
theorem carry_xor (a b : UInt8) : carry (a ^^^ b) = carry a ^^^ carry b := by
  unfold carry
  rw [UInt8.toNat_xor, Nat.testBit_xor]
  cases a.toNat.testBit 7 <;> cases b.toNat.testBit 7 <;> rfl

/-- Doubling shifts the byte and reduces what falls out. -/
theorem byte_double (a : GF256) : a.double.byte = (a.byte <<< 1) ^^^ carry a.byte := by
  revert a
  have key : ∀ b : UInt8, (double ⟨b⟩).byte = (b <<< 1) ^^^ carry b := by
    rw [Mode.forall_byte_iff]
    decide +kernel
  exact fun a => key a.byte

/-- **Doubling respects addition.** -/
theorem double_add (a b : GF256) : (a + b).double = a.double + b.double := by
  ext
  rw [byte_add, byte_double, byte_double, byte_double, byte_add, UInt8.shiftLeft_xor, carry_xor]
  ac_rfl

/-- Only zero is doubled to zero. -/
theorem double_eq_zero {a : GF256} (h : a.double = 0) : a = 0 := by
  have key : ∀ b : UInt8, double ⟨b⟩ = 0 → (⟨b⟩ : GF256) = 0 := by
    rw [Mode.forall_byte_iff]
    decide +kernel
  exact key a.byte h

/-- Doubling can be undone. -/
theorem double_injective {a b : GF256} (h : a.double = b.double) : a = b := by
  have hsum : (a + b).double = 0 := by rw [double_add, h, add_self]
  have hzero := double_eq_zero hsum
  calc a = a + (b + b) := by rw [add_self, add_zero']
    _ = b := by rw [← add_assoc', hzero, add_comm', add_zero']

/-! ### Powers of `x` -/

/-- Powers of `x` are not zero. -/
theorem power_ne_zero (n : Nat) : power n ≠ 0 := by
  induction n with
  | zero => decide
  | succ n ih => exact fun h => ih (double_eq_zero h)

/-- Where powers repeat, `x` to the gap is one. -/
theorem power_cancel {m n : Nat} (h : power (m + n) = power m) : power n = 1 := by
  induction m with
  | zero => rwa [Nat.zero_add] at h
  | succ m ih =>
    rw [Nat.add_right_comm] at h
    exact ih (double_injective h)

/-- The order of `x` divides `255`. -/
theorem power_255 : power 255 = 1 := by decide +kernel

/-- No smaller power is one, so the order is `255`. -/
theorem power_ne_one : ∀ k < 254, power (k + 1) ≠ 1 := by decide +kernel

/-- **The element `x` has order `255`.** -/
theorem power_injOn {i j : Nat} (hi : i < 255) (hj : j < 255) (h : power i = power j) : i = j := by
  have key : ∀ {i j : Nat}, i < j → j < 255 → power i ≠ power j := by
    intro i j hlt hj h
    obtain ⟨k, rfl⟩ := Nat.exists_eq_add_of_lt hlt
    exact power_ne_one k (by omega) (power_cancel (m := i) (by rw [← Nat.add_assoc]; exact h.symm))
  rcases Nat.lt_trichotomy i j with hlt | heq | hgt
  · exact absurd h (key hlt hj)
  · exact heq
  · exact absurd h.symm (key hgt hi)

/-- The powers repeat after `255` steps. -/
theorem power_add_255 (n : Nat) : power (n + 255) = power n := by
  induction n with
  | zero => rw [Nat.zero_add, power_255]; rfl
  | succ n ih => rw [Nat.add_right_comm, power, ih, power]

/-- Only the exponent modulo `255` matters. -/
theorem power_mod (n : Nat) : power (n % 255) = power n := by
  have key : ∀ k r, power (r + 255 * k) = power r := by
    intro k r
    induction k with
    | zero => rfl
    | succ k ih => rw [Nat.mul_succ, ← Nat.add_assoc, power_add_255, ih]
  have := key (n / 255) (n % 255)
  rw [Nat.mod_add_div] at this
  exact this.symm

/-- The table holds powers, whatever the exponent. -/
theorem exp_eq_power (n : Nat) : exp n = power n := by
  have hlt : n % 255 < 255 := Nat.mod_lt n (by decide)
  have hget : exp n = expTable[n % 255] := rfl
  rw [hget, expTable, Vector.getElem_ofFn]
  exact power_mod n

theorem exp_zero : exp 0 = 1 := exp_eq_power 0

/-- The next power is the double. -/
theorem exp_succ (n : Nat) : exp (n + 1) = (exp n).double := by
  rw [exp_eq_power, exp_eq_power, power]

/-- The table repeats as the powers do. -/
theorem exp_mod (n : Nat) : exp (n % 255) = exp n := by rw [exp_eq_power, exp_eq_power, power_mod]

/-- No entry of the table is zero. -/
theorem exp_ne_zero (n : Nat) : exp n ≠ 0 := by rw [exp_eq_power]; exact power_ne_zero n

/-- Different exponents below `255` give different elements. -/
theorem exp_injOn {i j : Nat} (hi : i < 255) (hj : j < 255) (h : exp i = exp j) : i = j := by
  rw [exp_eq_power, exp_eq_power] at h
  exact power_injOn hi hj h

/-- **Every non-zero element is a power of `x`.**  There are as many powers as
non-zero bytes. -/
theorem exists_exp {a : GF256} (h : a ≠ 0) : ∃ i < 255, exp i = a := by
  let bytes := (Finset.range 255).image fun i => (power i).byte.toNat
  have hsub : bytes ⊆ Finset.Ico 1 256 := by
    intro b hb
    obtain ⟨i, -, rfl⟩ := Finset.mem_image.1 hb
    have hne : (power i).byte.toNat ≠ 0 := fun h0 => power_ne_zero i (ext (UInt8.toNat_inj.1 h0))
    have hlt := (power i).byte.toNat_lt
    exact Finset.mem_Ico.2 ⟨by omega, by omega⟩
  have hcard : bytes.card = 255 := by
    rw [Finset.card_image_of_injOn, Finset.card_range]
    intro i hi j hj hij
    exact power_injOn (by simpa using hi) (by simpa using hj) (ext (UInt8.toNat_inj.1 hij))
  have hall : bytes = Finset.Ico 1 256 :=
    Finset.eq_of_subset_of_card_le hsub (by rw [hcard, Nat.card_Ico])
  have hmem : a.byte.toNat ∈ bytes := by
    have hne : a.byte.toNat ≠ 0 := fun h0 => h (ext (UInt8.toNat_inj.1 h0))
    have hlt := a.byte.toNat_lt
    rw [hall]
    exact Finset.mem_Ico.2 ⟨by omega, by omega⟩
  obtain ⟨i, hi, hia⟩ := Finset.mem_image.1 hmem
  exact ⟨i, Finset.mem_range.1 hi, by rw [exp_eq_power]; exact ext (UInt8.toNat_inj.1 hia)⟩

/-- A logarithm is the first place among the powers. -/
theorem log_eq_idxOf (a : GF256) : a.log = expTable.toList.idxOf a := by
  have hlt : a.byte.toNat < 256 := a.byte.toNat_lt
  have hget : a.log = logTable[a.byte.toNat] := rfl
  rw [hget, logTable, Vector.getElem_ofFn, UInt8.ofNat_toNat]

/-- **Logarithms are exponents.** -/
theorem log_exp (n : Nat) : (exp n).log = n % 255 := by
  have hlt : n % 255 < 255 := Nat.mod_lt n (by decide)
  have hlist : expTable.toList = List.ofFn fun i : Fin 255 => power i := by
    rw [expTable, Vector.toList_ofFn]
  have hnodup : expTable.toList.Nodup := by
    rw [hlist, List.nodup_ofFn]
    exact fun i j h => Fin.ext (power_injOn i.isLt j.isLt h)
  have hlen : n % 255 < expTable.toList.length := by rwa [hlist, List.length_ofFn]
  have hget : expTable.toList[n % 255] = exp n := by
    rw [exp_eq_power, ← power_mod, List.getElem_of_eq hlist, List.getElem_ofFn]
  rw [log_eq_idxOf, ← hget, hnodup.idxOf_getElem]

/-! ### Multiplication -/

/-- Products are formed by logarithms. -/
theorem mul_eq (a b : GF256) : a * b = if a = 0 ∨ b = 0 then 0 else exp (a.log + b.log) := rfl

theorem zero_mul' (a : GF256) : 0 * a = 0 := by rw [mul_eq, if_pos (Or.inl rfl)]

theorem mul_zero' (a : GF256) : a * 0 = 0 := by rw [mul_eq, if_pos (Or.inr rfl)]

/-- **Products of powers add exponents.** -/
theorem exp_mul_exp (m n : Nat) : exp m * exp n = exp (m + n) := by
  have hne : ¬(exp m = 0 ∨ exp n = 0) := by
    rintro (h | h)
    · exact exp_ne_zero m h
    · exact exp_ne_zero n h
  rw [mul_eq, if_neg hne, log_exp, log_exp, ← exp_mod, ← Nat.add_mod, exp_mod]

/-- Multiplication by a power of `x` is repeated doubling. -/
theorem exp_mul (n : Nat) (a : GF256) : exp (n + 1) * a = (exp n * a).double := by
  by_cases ha : a = 0
  · subst ha
    rw [mul_zero', mul_zero']
    decide
  · obtain ⟨i, -, rfl⟩ := exists_exp ha
    rw [exp_mul_exp, exp_mul_exp, Nat.add_right_comm, exp_succ]

/-- Factors may change places, as logarithms are added. -/
theorem mul_comm' (a b : GF256) : a * b = b * a := by
  by_cases ha : a = 0
  · rw [ha, zero_mul', mul_zero']
  by_cases hb : b = 0
  · rw [hb, zero_mul', mul_zero']
  obtain ⟨i, -, rfl⟩ := exists_exp ha
  obtain ⟨j, -, rfl⟩ := exists_exp hb
  rw [exp_mul_exp, exp_mul_exp, Nat.add_comm]

/-- Three factors may be grouped either way, for the same reason. -/
theorem mul_assoc' (a b c : GF256) : a * b * c = a * (b * c) := by
  by_cases ha : a = 0
  · rw [ha, zero_mul', zero_mul', zero_mul']
  by_cases hb : b = 0
  · rw [hb, mul_zero', zero_mul', mul_zero']
  by_cases hc : c = 0
  · rw [hc, mul_zero', mul_zero', mul_zero']
  obtain ⟨i, -, rfl⟩ := exists_exp ha
  obtain ⟨j, -, rfl⟩ := exists_exp hb
  obtain ⟨k, -, rfl⟩ := exists_exp hc
  rw [exp_mul_exp, exp_mul_exp, exp_mul_exp, exp_mul_exp, Nat.add_assoc]

/-- The logarithm of one is zero. -/
theorem one_mul' (a : GF256) : 1 * a = a := by
  by_cases ha : a = 0
  · rw [ha, mul_zero']
  obtain ⟨i, -, rfl⟩ := exists_exp ha
  rw [← exp_zero, exp_mul_exp, Nat.zero_add]

/-- **Multiplication distributes over addition**, because doubling does. -/
theorem mul_add' (a b c : GF256) : a * (b + c) = a * b + a * c := by
  by_cases ha : a = 0
  · rw [ha, zero_mul', zero_mul', zero_mul', add_zero']
  obtain ⟨i, -, rfl⟩ := exists_exp ha
  induction i with
  | zero => rw [exp_zero, one_mul', one_mul', one_mul']
  | succ i ih => rw [exp_mul, exp_mul, exp_mul, ih (exp_ne_zero i), double_add]

/-- The reciprocal of an element, `0` for `0`. -/
def inv (a : GF256) : GF256 := if a = 0 then 0 else exp (255 - a.log)

theorem inv_zero' : inv 0 = 0 := by rw [inv, if_pos rfl]

/-- Every element but zero has an inverse. -/
theorem mul_inv' {a : GF256} (h : a ≠ 0) : a * inv a = 1 := by
  obtain ⟨i, hi, rfl⟩ := exists_exp h
  rw [inv, if_neg h, log_exp, Nat.mod_eq_of_lt hi, exp_mul_exp,
    Nat.add_sub_cancel' (Nat.le_of_lt hi), exp_eq_power, power_255]

instance : Neg GF256 := ⟨id⟩

instance : Inv GF256 := ⟨inv⟩

instance : Field GF256 where
  add_assoc := add_assoc'
  zero_add a := by rw [add_comm', add_zero']
  add_zero := add_zero'
  add_comm := add_comm'
  neg_add_cancel := add_self
  zsmul := zsmulRec
  nsmul := nsmulRec
  mul_assoc := mul_assoc'
  one_mul := one_mul'
  mul_one a := by rw [mul_comm', one_mul']
  zero_mul := zero_mul'
  mul_zero := mul_zero'
  left_distrib := mul_add'
  right_distrib a b c := by rw [mul_comm', mul_add', mul_comm' c, mul_comm' c]
  mul_comm := mul_comm'
  exists_pair_ne := ⟨0, 1, by decide⟩
  mul_inv_cancel _ := mul_inv'
  inv_zero := inv_zero'
  nnqsmul := _
  nnqsmul_def _ _ := rfl
  qsmul := _
  qsmul_def _ _ := rfl

instance : CharP GF256 2 := CharTwo.of_one_ne_zero_of_two_eq_zero one_ne_zero
  (by rw [← one_add_one_eq_two]; exact add_self 1)

/-- Powers of `x` are powers in the field. -/
theorem exp_eq_pow (n : Nat) : exp n = exp 1 ^ n := by
  induction n with
  | zero => rw [exp_zero, pow_zero]
  | succ n ih => rw [pow_succ, ← ih, exp_mul_exp]

end GF256
end QRCode
