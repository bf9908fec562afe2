/-
# Tables of powers and logarithms

The two loops of `GaloisField::new`, with `GaloisField::mul` and `GaloisField::eval_poly` by
look-ups.

Powers of `x` and logarithms can be kept in two tables of bytes, which two passes fill:

| pass | places of the powers | what it writes |
| --- | --- | --- |
| first | `0 … 254` | the power whose turn it is, and its place as its logarithm |
| second | `255 … 509` | the power that stands 255 places before |

A place is looked up or written only if there is one, and there always is: no power has
more than eight bits, and two logarithms add up to `508` at most (`GF256.Tables.exists_built`).
So the tables multiply as the field does (`GF256.Tables.Holds.mul?_eq`), and Horner's scheme
with them gives the value of a polynomial, term by term and without tables
(`GF256.eval_eq_valueByTerms`).  The product of two polynomials, as the convolution of their
coefficients, has the product of their values (`GF256.eval_convolve`).
-/

import QRCode.Proofs.Division
import Mathlib.Algebra.BigOperators.Intervals
import Mathlib.Data.List.GetD

namespace QRCode
namespace GF256

open ReedSolomon (Poly)

/-! ### Products of polynomials -/

/-- A coefficient of the product of two polynomials: the sum of the products of coefficients
whose places add up to its own. -/
def coefficient (p q : Poly) (k : Nat) : GF256 :=
  ∑ i ∈ Finset.range (k + 1), p.getD i 0 * q.getD (k - i) 0

/-- The product of two polynomials: the convolution of their coefficients. -/
def convolve (p q : Poly) : Poly := (List.range (p.length + q.length - 1)).map (coefficient p q)

/-! ### Filling the tables -/

/-- Tables of powers and logarithms. -/
structure Tables where
  /-- The powers, twice one after the other: the sum of two logarithms is a place. -/
  exp : Vector UInt8 510
  /-- The logarithms; the entry of zero is never read. -/
  log : Vector UInt8 256

namespace Tables

/-- Tables with nothing entered. -/
def blank : Tables := ⟨.replicate 510 0, .replicate 256 0⟩

/-- A table with another byte at a place, if there is such a place. -/
def put? {n : Nat} (table : Vector UInt8 n) (i : Nat) (b : UInt8) : Option (Vector UInt8 n) :=
  if h : i < n then some (table.set i b) else none

/-- The power after a power: sixteen bits hold the one that falls out before it is reduced. -/
def next (x : UInt16) : UInt16 :=
  let y := x <<< 1
  if y &&& 0x100 ≠ 0 then y ^^^ 0x11D else y

/-- The power whose turn it is, entered with its logarithm (`GaloisField::new`). -/
def enter? (state : Tables × UInt16) (i : Nat) : Option (Tables × UInt16) := do
  let exp ← put? state.1.exp i state.2.toUInt8
  let log ← put? state.1.log state.2.toNat (UInt8.ofNat i)
  return (⟨exp, log⟩, next state.2)

/-- The power that stands 255 places before, entered once more (`GaloisField::new`). -/
def again? (tables : Tables) (i : Nat) : Option Tables := do
  let b ← tables.exp[i - 255]?
  let exp ← put? tables.exp i b
  return { tables with exp }

/-- The first pass, as far as `n` places. -/
def firstPass? (n : Nat) : Option (Tables × UInt16) := (List.range n).foldlM enter? (blank, 1)

/-- The second pass, as far as `n` places more. -/
def secondPass? (tables : Tables) (n : Nat) : Option Tables := (List.range' 255 n).foldlM again? tables

/-- The tables after both passes. -/
def built? : Option Tables := (firstPass? 255).bind fun state => secondPass? state.1 255

/-- What tables hold: so many powers, and so many logarithms. -/
structure Holds (powers logarithms : Nat) (tables : Tables) : Prop where
  exp : ∀ j < powers, tables.exp[j]? = some (power j).byte
  log : ∀ j < logarithms, tables.log[(power j).byte.toNat]? = some (UInt8.ofNat j)

/-- A table that is right so far, with one more entry at a place of its own. -/
theorem exists_put? {k n : Nat} (place : Nat → Nat) (f : Nat → UInt8) {table : Vector UInt8 k}
    (h : ∀ j < n, table[place j]? = some (f j)) (hn : place n < k) (hne : ∀ j < n, place n ≠ place j) :
    ∃ table', put? table (place n) (f n) = some table' ∧ ∀ j < n + 1, table'[place j]? = some (f j) := by
  refine ⟨table.set (place n) (f n), dif_pos hn, fun j hj => ?_⟩
  rcases Nat.lt_succ_iff_lt_or_eq.1 hj with hlt | rfl
  · rw [Vector.getElem?_set_ne _ (hne j hlt), h j hlt]
  · rw [Vector.getElem?_set_self]

/-- Sixteen bits double as the field does. -/
theorem next_toUInt16 (a : GF256) : next a.byte.toUInt16 = a.double.byte.toUInt16 := by
  have key : ∀ b : UInt8, next b.toUInt16 = (double ⟨b⟩).byte.toUInt16 := by
    rw [Mode.forall_byte_iff]
    decide +kernel
  exact key a.byte

/-- **A step of the first pass** enters the next power and its logarithm. -/
theorem enter?_eq {n : Nat} {tables : Tables} (h : tables.Holds n n) (hn : n < 255) :
    ∃ tables', enter? (tables, (power n).byte.toUInt16) n =
        some (tables', (power (n + 1)).byte.toUInt16) ∧ tables'.Holds (n + 1) (n + 1) := by
  obtain ⟨exp, hexp, hpowers⟩ := exists_put? (fun j => j) (fun j => (power j).byte) h.exp
    (hn.trans (by decide)) fun j hj => Nat.ne_of_gt hj
  -- no earlier logarithm is lost, because the first 255 powers differ
  have hplaces : ∀ j < n, (power n).byte.toNat ≠ (power j).byte.toNat := fun j hj heq =>
    Nat.ne_of_gt hj (power_injOn hn (hj.trans hn) (ext (UInt8.toNat_inj.1 heq)))
  obtain ⟨log, hlog, hlogarithms⟩ := exists_put? (fun j => (power j).byte.toNat) UInt8.ofNat h.log
    (power n).byte.toNat_lt hplaces
  refine ⟨⟨exp, log⟩, ?_, hpowers, hlogarithms⟩
  have hnext : next (power n).byte.toUInt16 = (power (n + 1)).byte.toUInt16 :=
    next_toUInt16 (power n)
  unfold enter?
  rw [UInt8.toUInt8_toUInt16, UInt8.toNat_toUInt16, hexp, hlog, hnext]
  rfl

/-- **A step of the second pass** enters the next power. -/
theorem again?_eq {n : Nat} {tables : Tables} (h : tables.Holds n 255) (hfirst : 255 ≤ n)
    (hn : n < 510) :
    ∃ tables', again? tables n = some tables' ∧ tables'.Holds (n + 1) 255 := by
  obtain ⟨exp, hexp, hpowers⟩ := exists_put? (fun j => j) (fun j => (power j).byte) h.exp hn
    fun j hj => Nat.ne_of_gt hj
  have hbefore : tables.exp[n - 255]? = some (power n).byte := by
    rw [h.exp _ (by omega), ← power_add_255, Nat.sub_add_cancel hfirst]
  refine ⟨{ tables with exp }, ?_, hpowers, h.log⟩
  unfold again?
  rw [hbefore]
  show (put? tables.exp n (power n).byte >>= fun exp => pure { tables with exp }) = _
  rw [hexp]
  rfl

/-- **The first pass misses no place**, and holds a power and a logarithm for each step. -/
theorem exists_firstPass {n : Nat} (hn : n ≤ 255) :
    ∃ tables, firstPass? n = some (tables, (power n).byte.toUInt16) ∧ tables.Holds n n := by
  induction n with
  | zero => exact ⟨blank, rfl, nofun, nofun⟩
  | succ n ih =>
    obtain ⟨tables, hrun, hholds⟩ := ih (by omega)
    obtain ⟨tables', hstep, hholds'⟩ := enter?_eq hholds (by omega)
    refine ⟨tables', ?_, hholds'⟩
    rw [firstPass?, List.range_succ, List.foldlM_append]
    exact Option.bind_eq_some_iff.2 ⟨_, hrun, Option.bind_eq_some_iff.2 ⟨_, hstep, rfl⟩⟩

/-- **The second pass misses no place either**, and holds a power more for each step. -/
theorem exists_secondPass {tables : Tables} (h : tables.Holds 255 255) {n : Nat} (hn : n ≤ 255) :
    ∃ tables', secondPass? tables n = some tables' ∧ tables'.Holds (255 + n) 255 := by
  induction n with
  | zero => exact ⟨tables, rfl, h⟩
  | succ n ih =>
    obtain ⟨tables', hrun, hholds⟩ := ih (by omega)
    obtain ⟨tables'', hstep, hholds'⟩ := again?_eq hholds (by omega) (by omega)
    refine ⟨tables'', ?_, hholds'⟩
    rw [secondPass?] at hrun ⊢
    rw [List.range'_1_concat, List.foldlM_append, hrun, Option.bind_eq_bind, Option.bind_some,
      List.foldlM_cons, hstep, Option.bind_eq_bind, Option.bind_some, List.foldlM_nil, Option.pure_def]

/-- **Both passes succeed**, and enter every power twice and the logarithms of all elements but
zero. -/
theorem exists_built : ∃ tables, built? = some tables ∧ tables.Holds 510 255 := by
  obtain ⟨tables, hfirst, hholds⟩ := exists_firstPass (Nat.le_refl 255)
  obtain ⟨tables', hsecond, hholds'⟩ := exists_secondPass hholds (Nat.le_refl 255)
  exact ⟨tables', Option.bind_eq_some_iff.2 ⟨_, hfirst, hsecond⟩, hholds'⟩

/-! ### Arithmetic with the tables -/

/-- The product of two bytes, if all places that are looked up exist (`GaloisField::mul`). -/
def mul? (tables : Tables) (a b : UInt8) : Option UInt8 :=
  if a = 0 ∨ b = 0 then some 0
  else do
    let i ← tables.log[a.toNat]?
    let j ← tables.log[b.toNat]?
    tables.exp[i.toNat + j.toNat]?

/-- A polynomial, highest coefficient first, at a point: Horner's scheme (`GaloisField::eval_poly`). -/
def eval? (tables : Tables) (p : List UInt8) (x : UInt8) : Option UInt8 :=
  p.foldlM (fun acc c => do return (← tables.mul? acc x) ^^^ c) 0

/-- A coefficient of the product of two polynomials. -/
def coefficient? (tables : Tables) (p q : List UInt8) (k : Nat) : Option UInt8 :=
  (List.range (k + 1)).foldlM (fun acc i => do
    return acc ^^^ (← tables.mul? (p.getD i 0) (q.getD (k - i) 0))) 0

/-- The product of two polynomials. -/
def convolve? (tables : Tables) (p q : List UInt8) : Option (List UInt8) :=
  (List.range (p.length + q.length - 1)).mapM (tables.coefficient? p q)

variable {tables : Tables}

/-- The logarithm of a power is its exponent. -/
theorem Holds.log_exp (h : tables.Holds 510 255) {i : Nat} (hi : i < 255) :
    tables.log[(power i).byte.toNat]? = some (UInt8.ofNat i) ∧ (UInt8.ofNat i).toNat = i :=
  ⟨h.log i hi, UInt8.toNat_ofNat_of_lt' (hi.trans (by decide))⟩

/-- **The tables multiply as the field does.**  The sum of two logarithms is a place of the
powers. -/
theorem Holds.mul?_eq (h : tables.Holds 510 255) (a b : GF256) :
    tables.mul? a.byte b.byte = some (a * b).byte := by
  have hbyte : ∀ c : GF256, c.byte = 0 ↔ c = 0 := fun c => ⟨fun hc => ext hc, fun hc => by rw [hc]; rfl⟩
  simp only [mul?, hbyte]
  by_cases hzero : a = 0 ∨ b = 0
  · rw [if_pos hzero]
    rcases hzero with rfl | rfl
    · rw [zero_mul]
      rfl
    · rw [mul_zero]
      rfl
  · rw [if_neg hzero]
    obtain ⟨hne, hne'⟩ := not_or.1 hzero
    obtain ⟨i, hi, rfl⟩ := exists_exp hne
    obtain ⟨j, hj, rfl⟩ := exists_exp hne'
    obtain ⟨hlog, hnat⟩ := h.log_exp hi
    obtain ⟨hlog', hnat'⟩ := h.log_exp hj
    rw [exp_mul_exp, exp_eq_power, exp_eq_power, exp_eq_power, hlog, hlog']
    show tables.exp[(UInt8.ofNat i).toNat + (UInt8.ofNat j).toNat]? = _
    rw [hnat, hnat']
    exact h.exp _ (by omega)

/-- **Horner's scheme with full tables gives the value of a polynomial.** -/
theorem Holds.eval?_eq (h : tables.Holds 510 255) (p : List UInt8) (x : UInt8) :
    tables.eval? p x = some (GF256.eval (ofBytes p) ⟨x⟩).byte := by
  -- for any value of the coefficients before, since every step changes it
  have run : ∀ acc : GF256, p.foldlM (fun acc c => do return (← tables.mul? acc x) ^^^ c) acc.byte =
      some ((ofBytes p).foldl (fun acc c => acc * ⟨x⟩ + c) acc).byte := by
    induction p with
    | nil => intro acc; rfl
    | cons c p ih =>
      intro acc
      have hstep := h.mul?_eq acc ⟨x⟩
      simp only [List.foldlM_cons, hstep, Option.bind_eq_bind, Option.bind_some, Option.pure_def]
      exact ih (acc * ⟨x⟩ + ⟨c⟩)
  exact run 0

/-- A coefficient of a product is computed with full tables. -/
theorem Holds.coefficient?_eq (h : tables.Holds 510 255) (p q : List UInt8) (k : Nat) :
    tables.coefficient? p q k = some (coefficient (ofBytes p) (ofBytes q) k).byte := by
  have hbyte : ∀ (p : List UInt8) (i : Nat), p.getD i 0 = ((ofBytes p).getD i 0).byte := fun p i =>
    (congrArg byte (List.getD_map p 0 GF256.mk)).symm
  have run : ∀ n, (List.range n).foldlM (fun acc i => do
      return acc ^^^ (← tables.mul? (p.getD i 0) (q.getD (k - i) 0))) 0 =
      some (∑ i ∈ Finset.range n, (ofBytes p).getD i 0 * (ofBytes q).getD (k - i) 0).byte := by
    intro n
    induction n with
    | zero => rfl
    | succ n ih =>
      rw [List.range_succ, List.foldlM_append, ih, Finset.sum_range_succ, byte_add]
      simp only [hbyte, h.mul?_eq, List.foldlM_cons, List.foldlM_nil, Option.bind_eq_bind,
        Option.bind_some, Option.pure_def]
  exact run (k + 1)

/-- So is the whole product. -/
theorem Holds.convolve?_eq (h : tables.Holds 510 255) (p q : List UInt8) :
    tables.convolve? p q = some (toBytes (convolve (ofBytes p) (ofBytes q))) := by
  have hcoefficient : tables.coefficient? p q =
      fun k => pure (coefficient (ofBytes p) (ofBytes q) k).byte := funext (h.coefficient?_eq p q)
  rw [convolve?, hcoefficient, List.mapM_pure, toBytes, convolve, List.map_map,
    ReedSolomon.length_ofBytes, ReedSolomon.length_ofBytes]
  rfl

end Tables

/-! ### Values of polynomials -/

/-- The powers of an element, as products of polynomials. -/
def polynomialPower (x : GF256) : Nat → GF256
  | 0 => 1
  | n + 1 => polynomialProduct (polynomialPower x n) x

/-- Powers as products of polynomials are powers in the field. -/
theorem polynomialPower_eq (x : GF256) (n : Nat) : polynomialPower x n = x ^ n := by
  induction n with
  | zero => rfl
  | succ n ih => rw [polynomialPower, ih, ← mul_eq_polynomialProduct, pow_succ]

/-- The value of a polynomial, term by term: a coefficient times a power, as products of
polynomials. -/
def valueByTerms (p : Poly) (x : GF256) : GF256 :=
  ∑ i : Fin p.length, polynomialProduct (p.get i) (polynomialPower x (p.length - 1 - i))

/-- **Horner's scheme adds up the terms.** -/
theorem eval_eq_valueByTerms (p : Poly) (x : GF256) : eval p x = valueByTerms p x := by
  rw [ReedSolomon.eval_eq_sum, valueByTerms]
  refine Finset.sum_congr rfl fun i _ => ?_
  rw [polynomialPower_eq, mul_eq_polynomialProduct]
  rfl

/-- Places after the last coefficient count for nothing. -/
theorem sum_range_getD (p : Poly) (f : Nat → GF256) {n : Nat} (h : p.length ≤ n) :
    ∑ i ∈ Finset.range n, p.getD i 0 * f i = ∑ i ∈ Finset.range p.length, p.getD i 0 * f i := by
  refine (Finset.sum_subset (Finset.range_subset_range.2 h) fun i _ hi => ?_).symm
  rw [Finset.mem_range, not_lt] at hi
  rw [List.getD_eq_default _ _ hi, zero_mul]

/-- The value of a polynomial is the sum of its terms. -/
theorem eval_eq_sum_range (p : Poly) (x : GF256) :
    eval p x = ∑ i ∈ Finset.range p.length, p.getD i 0 * x ^ (p.length - 1 - i) := by
  rw [ReedSolomon.eval_eq_sum, ← Fin.sum_univ_eq_sum_range fun i => p.getD i 0 * x ^ (p.length - 1 - i)]
  refine Finset.sum_congr rfl fun i _ => ?_
  rw [List.getD_eq_getElem _ _ i.isLt]
  rfl

/-- The value of a product, by the places of the coefficients that are multiplied. -/
theorem eval_convolve_eq_sum (p q : Poly) (x : GF256) : eval (convolve p q) x =
    ∑ i ∈ Finset.range (p.length + q.length - 1), ∑ j ∈ Finset.range (p.length + q.length - 1 - i),
      p.getD i 0 * (q.getD j 0 * x ^ (p.length + q.length - 1 - 1 - (i + j))) := by
  rw [← Finset.sum_range_diag_flip _ fun i j =>
    p.getD i 0 * (q.getD j 0 * x ^ (p.length + q.length - 1 - 1 - (i + j)))]
  have hlength : (convolve p q).length = p.length + q.length - 1 := by
    rw [convolve, List.length_map, List.length_range]
  rw [eval_eq_sum_range, hlength]
  refine Finset.sum_congr rfl fun k hk => ?_
  have hk' : k < (convolve p q).length := hlength ▸ Finset.mem_range.1 hk
  have hcoefficient : (convolve p q).getD k 0 = coefficient p q k := by
    rw [List.getD_eq_getElem _ _ hk']
    simp only [convolve, List.getElem_map, List.getElem_range]
  rw [hcoefficient, coefficient, Finset.sum_mul]
  refine Finset.sum_congr rfl fun i hi => ?_
  rw [Nat.add_sub_of_le (Nat.lt_succ_iff.1 (Finset.mem_range.1 hi)), mul_assoc]

/-- What one coefficient contributes to the value of a product. -/
theorem sum_row (p q : Poly) (x : GF256) (i : Nat) :
    ∑ j ∈ Finset.range (p.length + q.length - 1 - i),
      p.getD i 0 * (q.getD j 0 * x ^ (p.length + q.length - 1 - 1 - (i + j))) =
    p.getD i 0 * (x ^ (p.length - 1 - i) * eval q x) := by
  rcases Nat.lt_or_ge i p.length with hi | hi
  · rw [← Finset.mul_sum, sum_range_getD q _ (by omega), eval_eq_sum_range q,
      Finset.mul_sum _ _ (x ^ (p.length - 1 - i))]
    refine congrArg (p.getD i 0 * ·) (Finset.sum_congr rfl fun j hj => ?_)
    rw [Finset.mem_range] at hj
    have hexponent : p.length + q.length - 1 - 1 - (i + j) =
        (p.length - 1 - i) + (q.length - 1 - j) := by omega
    rw [hexponent, pow_add, mul_left_comm]
  · simp only [List.getD_eq_default _ _ hi, zero_mul, Finset.sum_const_zero]

/-- **The value of a product is the product of the values.** -/
theorem eval_convolve (p q : Poly) (x : GF256) : eval (convolve p q) x = eval p x * eval q x := by
  rw [eval_convolve_eq_sum, Finset.sum_congr rfl fun i _ => sum_row p q x i]
  rcases q.eq_nil_or_concat with rfl | ⟨q', c, rfl⟩
  · -- Without coefficients there are fewer places than `p` has, but nothing is added up.
    have hzero : eval [] x = 0 := rfl
    simp only [hzero, mul_zero, Finset.sum_const_zero]
  · rw [sum_range_getD p _ (by rw [List.length_concat]; omega),
      eval_eq_sum_range p, Finset.sum_mul]
    exact Finset.sum_congr rfl fun i _ => (mul_assoc _ _ _).symm

/-- **Tables that two passes fill evaluate polynomials in the field** of polynomials modulo
`x⁸ + x⁴ + x³ + x² + 1`.  No place is missing, products are reduced, Horner's scheme gives the
sum of the terms, and the convolution of two polynomials has the product of their values. -/
theorem tables_evaluate : ∃ tables, Tables.built? = some tables ∧
    (∀ a b : GF256, tables.mul? a.byte b.byte = some (polynomialProduct a b).byte ∧
      ∃ quotient < 2 ^ 7, carrylessProduct a.byte.toNat b.byte.toNat =
        carrylessProduct 0x11D quotient ^^^ (polynomialProduct a b).byte.toNat) ∧
    ∀ p q x,
      eval (ofBytes p) ⟨x⟩ = valueByTerms (ofBytes p) ⟨x⟩ ∧
      tables.eval? p x = some (valueByTerms (ofBytes p) ⟨x⟩).byte ∧
      ∃ product, tables.convolve? p q = some product ∧
        ofBytes product = convolve (ofBytes p) (ofBytes q) ∧
        tables.eval? product x = (do tables.mul? (← tables.eval? p x) (← tables.eval? q x)) := by
  obtain ⟨tables, hbuilt, hholds⟩ := Tables.exists_built
  refine ⟨tables, hbuilt, fun a b => ?_, fun p q x => ⟨?_, ?_, ?_⟩⟩
  · rw [← mul_eq_polynomialProduct]
    exact ⟨hholds.mul?_eq a b, exists_quotient_mul a b⟩
  · exact eval_eq_valueByTerms _ _
  · rw [hholds.eval?_eq, eval_eq_valueByTerms]
  · have hproduct : ofBytes (toBytes (convolve (ofBytes p) (ofBytes q))) =
        convolve (ofBytes p) (ofBytes q) := Block.ofBytes_toBytes _
    refine ⟨_, hholds.convolve?_eq p q, hproduct, ?_⟩
    rw [hholds.eval?_eq, hholds.eval?_eq, hholds.eval?_eq, hproduct, eval_convolve]
    exact (hholds.mul?_eq _ _).symm

end GF256
end QRCode
