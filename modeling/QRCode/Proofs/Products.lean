/-
# Products without tables

The product of two elements is that of their polynomials, reduced modulo
`x⁸ + x⁴ + x³ + x² + 1` (`GF256.mul_eq_polynomialProduct`).  Both sides respect sums in
either factor, and every element is a sum of powers `1, x, …, x⁷`
(`GF256.induction_on_powers`); so it is enough to compare the products of these.  What is
left modulo a polynomial is known by its degree, below eight, and by what is missing, a
multiple of the modulus (`GF256.exists_quotient_mul`).
-/

import QRCode.Proofs.Field

namespace QRCode
namespace GF256

/-! ### Sums of polynomials -/

/-- A number, if a condition holds. -/
def pick (condition : Bool) (n : Nat) : Nat := if condition then n else 0

/-- Two conditions that both hold pick nothing. -/
theorem pick_xor_left (c d : Bool) (n : Nat) : pick (c ^^ d) n = pick c n ^^^ pick d n := by
  cases c <;> cases d <;> simp [pick]

/-- Picking respects sums. -/
theorem pick_xor_right (c : Bool) (m n : Nat) : pick c (m ^^^ n) = pick c m ^^^ pick c n := by
  cases c <;> simp [pick]

/-- A sum that is formed on a condition is a sum with what is picked. -/
theorem ite_xor (c : Bool) (p n : Nat) : (if c then p ^^^ n else p) = p ^^^ pick c n := by
  cases c
  · exact (Nat.xor_zero p).symm
  · rfl

/-- Terms that are sums add up to a sum. -/
theorem foldl_xor (f g : Nat → Nat) (l : List Nat) (p q : Nat) :
    l.foldl (fun acc i => acc ^^^ (f i ^^^ g i)) (p ^^^ q) =
      l.foldl (fun acc i => acc ^^^ f i) p ^^^ l.foldl (fun acc i => acc ^^^ g i) q := by
  induction l generalizing p q with
  | nil => rfl
  | cons i l ih =>
    have hterm : p ^^^ q ^^^ (f i ^^^ g i) = (p ^^^ f i) ^^^ (q ^^^ g i) := by ac_rfl
    rw [List.foldl_cons, hterm, ih, List.foldl_cons, List.foldl_cons]

/-- A carry-less product adds up shifted copies of the first factor. -/
theorem carrylessProduct_eq (a b : Nat) :
    carrylessProduct a b = (List.range 8).foldl (fun acc i => acc ^^^ pick (b.testBit i) (a <<< i)) 0 := by
  simp only [carrylessProduct, ite_xor]

/-- Carry-less products respect sums on the left. -/
theorem carrylessProduct_xor_left (a a' b : Nat) :
    carrylessProduct (a ^^^ a') b = carrylessProduct a b ^^^ carrylessProduct a' b := by
  simp only [carrylessProduct_eq, Nat.shiftLeft_xor_distrib, pick_xor_right]
  exact foldl_xor _ _ _ 0 0

/-- Carry-less products respect sums on the right. -/
theorem carrylessProduct_xor_right (a b b' : Nat) :
    carrylessProduct a (b ^^^ b') = carrylessProduct a b ^^^ carrylessProduct a b' := by
  simp only [carrylessProduct_eq, Nat.testBit_xor, pick_xor_left]
  exact foldl_xor _ _ _ 0 0

/-- One step of a reduction. -/
def reduceStep (p i : Nat) : Nat := p ^^^ pick (p.testBit (8 + i)) (0x11D <<< i)

/-- Reduction goes bit by bit, from the highest down. -/
theorem reduce_eq (p : Nat) : reduce p = (List.range 7).reverse.foldl reduceStep p := by
  simp only [reduce, ite_xor]
  rfl

/-- Each step of a reduction respects sums. -/
theorem reduceStep_xor (p q i : Nat) : reduceStep (p ^^^ q) i = reduceStep p i ^^^ reduceStep q i := by
  rw [reduceStep, Nat.testBit_xor, pick_xor_left, reduceStep, reduceStep]
  ac_rfl

/-- So does the whole reduction. -/
theorem reduce_xor (p q : Nat) : reduce (p ^^^ q) = reduce p ^^^ reduce q := by
  rw [reduce_eq, reduce_eq, reduce_eq]
  generalize (List.range 7).reverse = places
  induction places generalizing p q with
  | nil => rfl
  | cons i places ih => rw [List.foldl_cons, reduceStep_xor, ih, List.foldl_cons, List.foldl_cons]

/-- Products of polynomials are distributive on the left. -/
theorem polynomialProduct_add_left (a a' b : GF256) :
    polynomialProduct (a + a') b = polynomialProduct a b + polynomialProduct a' b := by
  ext
  simp only [polynomialProduct, byte_add, UInt8.toNat_xor, carrylessProduct_xor_left, reduce_xor,
    UInt8.ofNat_xor]

/-- Products of polynomials are distributive on the right. -/
theorem polynomialProduct_add_right (a b b' : GF256) :
    polynomialProduct a (b + b') = polynomialProduct a b + polynomialProduct a b' := by
  ext
  simp only [polynomialProduct, byte_add, UInt8.toNat_xor, carrylessProduct_xor_right, reduce_xor,
    UInt8.ofNat_xor]

/-! ### Sums of powers -/

/-- Every element is the sum of some of the powers `1, x, …, x⁷`. -/
theorem eq_sum_powers (a : GF256) :
    a = ((List.range 8).filter a.byte.toNat.testBit).foldl (fun acc i => acc + power i) 0 := by
  have key : ∀ b : UInt8, (⟨b⟩ : GF256) =
      ((List.range 8).filter b.toNat.testBit).foldl (fun acc i => acc + power i) 0 := by
    rw [Mode.forall_byte_iff]
    decide +kernel
  exact key a.byte

/-- **What holds of the powers below `x⁸`, and of sums, holds of every element.** -/
theorem induction_on_powers {P : GF256 → Prop} (zero : P 0) (power : ∀ i < 8, P (power i))
    (add : ∀ a b, P a → P b → P (a + b)) (a : GF256) : P a := by
  have key : ∀ (l : List Nat), (∀ i ∈ l, i < 8) → ∀ acc, P acc →
      P (l.foldl (fun acc i => acc + GF256.power i) acc) := by
    intro l
    induction l with
    | nil => exact fun _ _ hacc => hacc
    | cons i l ih =>
      intro hl acc hacc
      exact ih (fun j hj => hl j (List.mem_cons_of_mem _ hj)) _ (add _ _ hacc (power i (hl i List.mem_cons_self)))
  rw [eq_sum_powers a]
  exact key _ (fun i hi => List.mem_range.1 (List.mem_filter.1 hi).1) _ zero

/-- Products of the powers below eight are powers, looked at one by one. -/
theorem polynomialProduct_power : ∀ i < 8, ∀ j < 8, polynomialProduct (power i) (power j) = power (i + j) := by
  decide +kernel

/-- **Products by logarithms are products of polynomials.** -/
theorem mul_eq_polynomialProduct (a b : GF256) : a * b = polynomialProduct a b := by
  induction a using induction_on_powers with
  | zero =>
    have hzero := polynomialProduct_add_left 0 0 b
    rw [add_self, add_self] at hzero
    rw [zero_mul, hzero]
  | power i hi =>
    induction b using induction_on_powers with
    | zero =>
      have hzero := polynomialProduct_add_right (power i) 0 0
      rw [add_self, add_self] at hzero
      rw [mul_zero, hzero]
    | power j hj =>
      rw [polynomialProduct_power i hi j hj, ← exp_eq_power, ← exp_eq_power, ← exp_eq_power, exp_mul_exp]
    | add b b' hb hb' => rw [mul_add, hb, hb', polynomialProduct_add_right]
  | add a a' ha ha' => rw [add_mul, ha, ha', polynomialProduct_add_left]

/-! ### Remainders -/

/-- What is picked is no larger. -/
theorem pick_lt {bound n : Nat} (c : Bool) (h : n < bound) : pick c n < bound := by
  cases c
  · exact Nat.zero_lt_of_lt h
  · exact h

/-- A bit is picked with its number. -/
theorem testBit_pick (c : Bool) (n j : Nat) : (pick c n).testBit j = (c && n.testBit j) := by
  cases c
  · exact Nat.zero_testBit j
  · rfl

/-- A product of polynomials of degree below eight has a degree below fifteen. -/
theorem carrylessProduct_lt {a : Nat} (ha : a < 2 ^ 8) (b : Nat) : carrylessProduct a b < 2 ^ 15 := by
  have key : ∀ (l : List Nat), (∀ i ∈ l, i < 8) → ∀ acc < 2 ^ 15,
      l.foldl (fun acc i => acc ^^^ pick (b.testBit i) (a <<< i)) acc < 2 ^ 15 := by
    intro l
    induction l with
    | nil => exact fun _ _ hacc => hacc
    | cons i l ih =>
      intro hl acc hacc
      have hi := hl i List.mem_cons_self
      have hterm : a <<< i < 2 ^ 15 := by
        calc a <<< i = a * 2 ^ i := Nat.shiftLeft_eq a i
          _ < 2 ^ 8 * 2 ^ i := Nat.mul_lt_mul_of_pos_right ha (Nat.two_pow_pos i)
          _ ≤ 2 ^ 8 * 2 ^ 7 := Nat.mul_le_mul_left _ (Nat.pow_le_pow_right (by decide) (by omega))
          _ = 2 ^ 15 := by decide
      exact ih (fun j hj => hl j (List.mem_cons_of_mem _ hj)) _ (Nat.xor_lt_two_pow hacc (pick_lt _ hterm))
  rw [carrylessProduct_eq]
  exact key _ (fun i hi => List.mem_range.1 hi) 0 (by decide)

/-- The modulus, shifted, is a multiple of it. -/
theorem carrylessProduct_modulus :
    ∀ i < 7, ∀ c, carrylessProduct 0x11D (pick c (1 <<< i)) = pick c (0x11D <<< i) := by decide

/-- The modulus, shifted, has its highest coefficient in place `8 + n`. -/
theorem testBit_modulus {n j : Nat} (hj : 8 + n ≤ j) : (0x11D <<< n).testBit j = decide (j = 8 + n) := by
  rw [Nat.testBit_shiftLeft, decide_eq_true (by omega), Bool.true_and]
  rcases Nat.eq_or_lt_of_le hj with rfl | hlt
  · rw [Nat.add_sub_cancel, decide_eq_true rfl]
    decide
  · rw [decide_eq_false (by omega)]
    refine Nat.testBit_lt_two_pow (Nat.lt_of_lt_of_le ?_ (Nat.pow_le_pow_right (by decide) (show 9 ≤ j - n by omega)))
    decide

/-- A step removes the highest coefficient. -/
theorem reduceStep_lt {n p : Nat} (hp : p < 2 ^ (8 + n + 1)) : reduceStep p n < 2 ^ (8 + n) := by
  refine Nat.lt_pow_two_of_testBit _ fun j hj => ?_
  rw [reduceStep, Nat.testBit_xor, testBit_pick, testBit_modulus hj]
  rcases Nat.eq_or_lt_of_le hj with rfl | hlt
  · rw [decide_eq_true rfl, Bool.and_true, Bool.xor_self]
  · have hhigh : p.testBit j = false :=
      Nat.testBit_lt_two_pow (Nat.lt_of_lt_of_le hp (Nat.pow_le_pow_right (by decide) hlt))
    rw [hhigh, decide_eq_false (by omega), Bool.and_false, Bool.xor_self]

/-- The steps of a reduction subtract a multiple of the modulus. -/
theorem foldl_reduceStep {n p : Nat} (hn : n ≤ 7) (hp : p < 2 ^ (8 + n)) :
    (List.range n).reverse.foldl reduceStep p < 2 ^ 8 ∧
      ∃ q < 2 ^ n, p = carrylessProduct 0x11D q ^^^ (List.range n).reverse.foldl reduceStep p := by
  induction n generalizing p with
  | zero => exact ⟨hp, 0, by decide, (Nat.zero_xor p).symm⟩
  | succ n ih =>
    obtain ⟨hlt, q, hq, hrest⟩ := ih (by omega) (reduceStep_lt hp)
    rw [List.range_succ, List.reverse_append, List.reverse_singleton, List.singleton_append, List.foldl_cons]
    refine ⟨hlt, q ^^^ pick (p.testBit (8 + n)) (1 <<< n), ?_, ?_⟩
    · have hone : 1 <<< n < 2 ^ (n + 1) := by
        rw [Nat.shiftLeft_eq, Nat.one_mul]
        exact Nat.pow_lt_pow_right (by decide) (by omega)
      exact Nat.xor_lt_two_pow (hq.trans (Nat.pow_lt_pow_right (by decide) (by omega))) (pick_lt _ hone)
    · have hback : p = reduceStep p n ^^^ pick (p.testBit (8 + n)) (0x11D <<< n) := by
        rw [reduceStep, Nat.xor_assoc, Nat.xor_self, Nat.xor_zero]
      rw [carrylessProduct_xor_right, carrylessProduct_modulus n (by omega)]
      conv_lhs => rw [hback, hrest]
      ac_rfl

/-- **A product is a remainder**: it differs from the product of the polynomials by a multiple
of `x⁸ + x⁴ + x³ + x² + 1`. -/
theorem exists_quotient_mul (a b : GF256) : ∃ q < 2 ^ 7,
    carrylessProduct a.byte.toNat b.byte.toNat = carrylessProduct 0x11D q ^^^ (a * b).byte.toNat := by
  have hproduct := carrylessProduct_lt a.byte.toNat_lt b.byte.toNat
  obtain ⟨hlt, q, hq, hquotient⟩ := foldl_reduceStep (n := 7) (Nat.le_refl 7) hproduct
  rw [← reduce_eq] at hlt hquotient
  refine ⟨q, hq, ?_⟩
  have hbyte : (a * b).byte.toNat = reduce (carrylessProduct a.byte.toNat b.byte.toNat) := by
    rw [mul_eq_polynomialProduct, polynomialProduct, UInt8.toNat_ofNat_of_lt' hlt]
  rw [hbyte]
  exact hquotient

end GF256
end QRCode
