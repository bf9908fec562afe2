/-
# Encoding is division with remainder

A list of elements, highest coefficient first, is a polynomial (`toPolynomial`).
Appending, adding, scaling and multiplying by `x - r` are what they should be, so
the generator of degree `n` is the product of `x - αⁱ` for `i < n`
(`toPolynomial_generator`).  The register of an encoder is congruent to what it was
fed, shifted up by `n` places (`exists_quotient_feed`); hence data followed by its
remainder is a multiple of the generator (`exists_quotient_remainder`), and vanishes
where the generator does (`syndromes_append_remainder`).

What a generator cache holds does not matter, as long as it holds generators
(`GeneratorCache.Valid`): an encoder answers with the remainder (`encode_eq`).
-/

import QRCode.Proofs.Field
import Mathlib.Algebra.CharP.Lemmas
import Mathlib.Algebra.Polynomial.Eval.Defs
import Mathlib.Algebra.Polynomial.Eval.Degree
import Mathlib.Algebra.Polynomial.Expand
import Mathlib.Tactic.LinearCombination

namespace QRCode
namespace ReedSolomon

open Polynomial

/-- The polynomial with given coefficients, highest first. -/
noncomputable def toPolynomial (p : Poly) : GF256[X] := p.foldl (fun acc c => acc * X + C c) 0

/-- Elements behind a polynomial shift it up by as many places. -/
theorem foldl_toPolynomial (p : Poly) (acc : GF256[X]) :
    p.foldl (fun acc c => acc * X + C c) acc = acc * X ^ p.length + toPolynomial p := by
  induction p generalizing acc with
  | nil => simp [toPolynomial]
  | cons c p ih =>
    have h₀ : toPolynomial (c :: p) = (0 * X + C c) * X ^ p.length + toPolynomial p := ih _
    rw [List.foldl_cons, ih, h₀, List.length_cons, pow_succ]
    ring

@[simp] theorem toPolynomial_nil : toPolynomial [] = 0 := rfl

/-- A list behind another one shifts it up. -/
theorem toPolynomial_append (p q : Poly) :
    toPolynomial (p ++ q) = toPolynomial p * X ^ q.length + toPolynomial q := by
  rw [toPolynomial, List.foldl_append, foldl_toPolynomial]
  rfl

/-- The first element is the coefficient of the highest power. -/
theorem toPolynomial_cons (c : GF256) (p : Poly) :
    toPolynomial (c :: p) = C c * X ^ p.length + toPolynomial p := by
  rw [toPolynomial, List.foldl_cons, foldl_toPolynomial, zero_mul, zero_add]

/-- Zeros are the zero polynomial. -/
theorem toPolynomial_replicate (n : Nat) : toPolynomial (List.replicate n 0) = 0 := by
  induction n with
  | zero => rfl
  | succ n ih => rw [List.replicate_succ, toPolynomial_cons, ih, map_zero, zero_mul, add_zero]

/-- Scaling a list scales its polynomial. -/
theorem toPolynomial_map_mul (p : Poly) (r : GF256) :
    toPolynomial (p.map (· * r)) = toPolynomial p * C r := by
  induction p with
  | nil => simp
  | cons c p ih =>
    rw [List.map_cons, toPolynomial_cons, toPolynomial_cons, ih, List.length_map, C_mul]
    ring

/-- Adding two lists of one length adds their polynomials. -/
theorem toPolynomial_zipWith {p q : Poly} (h : p.length = q.length) :
    toPolynomial (List.zipWith (· + ·) p q) = toPolynomial p + toPolynomial q := by
  induction p generalizing q with
  | nil =>
    obtain rfl := List.eq_nil_of_length_eq_zero h.symm
    simp
  | cons c p ih =>
    cases q with
    | nil => cases h
    | cons d q =>
      have hlen : p.length = q.length := Nat.succ.inj h
      have hzip : (List.zipWith (· + ·) p q).length = q.length := by
        rw [List.length_zipWith, hlen, Nat.min_self]
      rw [List.zipWith_cons_cons, toPolynomial_cons, toPolynomial_cons, toPolynomial_cons, ih hlen,
        hzip, hlen, C_add]
      ring

/-- **Horner's scheme evaluates the polynomial.** -/
theorem eval_toPolynomial (p : Poly) (x : GF256) : (toPolynomial p).eval x = GF256.eval p x := by
  have key : ∀ (p : Poly) (acc : GF256[X]), (p.foldl (fun acc c => acc * X + C c) acc).eval x =
      p.foldl (fun acc c => acc * x + c) (acc.eval x) := by
    intro p
    induction p with
    | nil => intro _; rfl
    | cons c p ih => intro acc; rw [List.foldl_cons, ih]; simp
  rw [toPolynomial, key, eval_zero]
  rfl

/-! ### Generators -/

/-- The degree grows by one. -/
theorem length_timesRoot (p : Poly) (r : GF256) : (timesRoot p r).length = p.length + 1 := by
  simp [timesRoot]

/-- A polynomial times `x - r` is what its name says. -/
theorem toPolynomial_timesRoot (p : Poly) (r : GF256) :
    toPolynomial (timesRoot p r) = toPolynomial p * (X - C r) := by
  have hroot : toPolynomial (0 :: p.map (· * r)) = toPolynomial p * C r := by
    rw [toPolynomial_cons, toPolynomial_map_mul, map_zero, zero_mul, zero_add]
  rw [timesRoot, toPolynomial_zipWith (by simp), toPolynomial_append, hroot, CharTwo.sub_eq_add]
  simp [toPolynomial_cons]
  ring

/-- The generator of degree `n` has `n + 1` coefficients. -/
theorem length_generator (n : Nat) : (generator n).length = n + 1 := by
  induction n with
  | zero => rfl
  | succ n ih => rw [generator, length_timesRoot, ih]

/-- **The generator is the product of `x - αⁱ`.** -/
theorem toPolynomial_generator (n : Nat) :
    toPolynomial (generator n) = ∏ i ∈ Finset.range n, (X - C (GF256.exp i)) := by
  induction n with
  | zero => simp [generator, toPolynomial_cons]
  | succ n ih => rw [generator, toPolynomial_timesRoot, ih, Finset.prod_range_succ]

/-- A generator begins with `1`. -/
theorem generator_eq_cons (n : Nat) : generator n = 1 :: (generator n).drop 1 := by
  induction n with
  | zero => rfl
  | succ n ih =>
    rw [generator, ih, timesRoot]
    simp

/-- The generator vanishes at the powers below its degree. -/
theorem eval_generator {i n : Nat} (h : i < n) : GF256.eval (generator n) (GF256.exp i) = 0 := by
  rw [← eval_toPolynomial, toPolynomial_generator, eval_prod]
  exact Finset.prod_eq_zero (Finset.mem_range.2 h) (by simp)

/-! ### The register -/

/-- A register keeps its length when it is fed. -/
theorem length_feed {tail register : Poly} (h : register.length = tail.length) (h₀ : 0 < tail.length)
    (d : GF256) : (feed tail register d).length = tail.length := by
  simp only [feed, List.length_zipWith, List.length_append, List.length_drop, List.length_map,
    List.length_cons, List.length_nil]
  omega

/-- Shifting a register loses its first element. -/
theorem toPolynomial_shift {register : Poly} (h : 0 < register.length) :
    toPolynomial (register.drop 1 ++ [0]) =
      toPolynomial register * X - C (register.headD 0) * X ^ register.length := by
  cases register with
  | nil => cases h
  | cons c register =>
    rw [List.drop_one, List.tail_cons, toPolynomial_append, toPolynomial_cons c, List.headD_cons,
      List.length_cons, pow_succ]
    simp [toPolynomial_cons]
    ring

/-- **One element more** keeps the register congruent to what it was fed. -/
theorem toPolynomial_feed {tail register : Poly} (h : register.length = tail.length)
    (h₀ : 0 < tail.length) (d : GF256) :
    toPolynomial (feed tail register d) = toPolynomial register * X + C d * X ^ tail.length +
      C (register.headD 0 + d) * toPolynomial (1 :: tail) := by
  have hlen : (register.drop 1 ++ [0]).length = (tail.map (· * (register.headD 0 + d))).length := by
    simp only [List.length_append, List.length_drop, List.length_map, List.length_cons, List.length_nil]
    omega
  have htwo : (C d + C d : GF256[X]) = 0 := CharTwo.add_self_eq_zero _
  rw [feed, toPolynomial_zipWith hlen, toPolynomial_shift (by omega), toPolynomial_map_mul,
    toPolynomial_cons 1, h, C_add, C_1]
  linear_combination -(X ^ tail.length) * htwo -
    X ^ tail.length * CharTwo.add_self_eq_zero (C (register.headD 0) : GF256[X])

/-- It keeps its length however long the data is. -/
theorem length_foldl_feed {tail register : Poly} (h : register.length = tail.length)
    (h₀ : 0 < tail.length) (data : Poly) : (data.foldl (feed tail) register).length = tail.length := by
  induction data generalizing register with
  | nil => exact h
  | cons d data ih => exact ih (length_feed h h₀ d)

/-- The register and what it was fed, shifted up, add up to a multiple of the generator. -/
theorem exists_quotient_feed {tail register : Poly} (h : register.length = tail.length)
    (h₀ : 0 < tail.length) (data : Poly) :
    ∃ q, toPolynomial (data.foldl (feed tail) register) + toPolynomial data * X ^ tail.length =
      toPolynomial register * X ^ data.length + q * toPolynomial (1 :: tail) := by
  induction data generalizing register with
  | nil => exact ⟨0, by simp⟩
  | cons d data ih =>
    obtain ⟨q, hq⟩ := ih (length_feed h h₀ d)
    refine ⟨q + C (register.headD 0 + d) * X ^ data.length, ?_⟩
    have htwo := CharTwo.add_self_eq_zero (C d * X ^ tail.length * X ^ data.length : GF256[X])
    rw [toPolynomial_feed h h₀ d] at hq
    rw [List.foldl_cons, toPolynomial_cons d, List.length_cons, pow_succ]
    linear_combination hq + htwo

/-- The remainder is as long as the degree of the generator. -/
theorem length_remainder {n : Nat} (h : 0 < n) (data : Poly) :
    (remainder (generator n) data).length = n := by
  have htail : ((generator n).drop 1).length = n := by rw [List.length_drop, length_generator]; omega
  rw [remainder, length_foldl_feed _ (by omega), htail]
  rw [List.length_replicate, htail, length_generator]; omega

/-- **Data and its remainder are a multiple of the generator.** -/
theorem exists_quotient_remainder {n : Nat} (h : 0 < n) (data : Poly) :
    ∃ q, toPolynomial data * X ^ n + toPolynomial (remainder (generator n) data) =
      q * toPolynomial (generator n) := by
  have htail : ((generator n).drop 1).length = n := by rw [List.length_drop, length_generator]; omega
  have hreg : (List.replicate ((generator n).length - 1) (0 : GF256)).length =
      ((generator n).drop 1).length := by
    rw [List.length_replicate, htail, length_generator]; omega
  obtain ⟨q, hq⟩ := exists_quotient_feed hreg (by omega) data
  rw [← generator_eq_cons, htail, toPolynomial_replicate] at hq
  refine ⟨q, ?_⟩
  rw [remainder]
  linear_combination hq

/-- **A word of the code vanishes at the first `n` powers.** -/
theorem syndromes_append_remainder {n : Nat} (h : 0 < n) (data : Poly) :
    syndromes (data ++ remainder (generator n) data) n = List.replicate n 0 := by
  obtain ⟨q, hq⟩ := exists_quotient_remainder h data
  refine List.eq_replicate_iff.2 ⟨by simp [syndromes], fun c hc => ?_⟩
  obtain ⟨i, hi, rfl⟩ := List.mem_map.1 hc
  rw [← eval_toPolynomial, toPolynomial_append, length_remainder h, hq, eval_mul, eval_toPolynomial,
    eval_generator (List.mem_range.1 hi), mul_zero]

/-! ### Encoders -/

end ReedSolomon

namespace GeneratorCache

/-- A cache holds a generator of each degree below its size, and at least the first. -/
structure Valid (cache : GeneratorCache) : Prop where
  size_pos : 0 < cache.known.size
  known_eq : ∀ d < cache.known.size, cache.known[d]? = some (ReedSolomon.generator d)

/-- A fresh cache holds the generator of degree zero. -/
theorem valid_fresh : fresh.Valid where
  size_pos := by decide
  known_eq d hd := by
    obtain rfl : d = 0 := Nat.lt_one_iff.1 hd
    rfl

/-- A cache grows by one generator at a time. -/
theorem size_extend (cache : GeneratorCache) : cache.extend.known.size = cache.known.size + 1 := by
  simp [extend]

/-- What it grows by is the next generator. -/
theorem Valid.extend {cache : GeneratorCache} (h : cache.Valid) : cache.extend.Valid := by
  have hpos := h.size_pos
  have hlast : cache.known.back?.getD [1] = ReedSolomon.generator (cache.known.size - 1) := by
    rw [Array.back?_eq_getElem?, h.known_eq _ (by omega), Option.getD_some]
  refine ⟨by rw [size_extend]; omega, fun d hd => ?_⟩
  rw [size_extend] at hd
  simp only [GeneratorCache.extend, Array.getElem?_push, hlast]
  split
  · rename_i heq
    obtain ⟨k, hk⟩ := Nat.exists_eq_add_of_le' hpos
    rw [heq, hk]
    rfl
  · exact h.known_eq d (by omega)

/-- A valid cache stays valid, however far it grows. -/
theorem Valid.extendBy {cache : GeneratorCache} (h : cache.Valid) (k : Nat) :
    (cache.extendBy k).Valid ∧ (cache.extendBy k).known.size = cache.known.size + k := by
  induction k generalizing cache with
  | zero => exact ⟨h, rfl⟩
  | succ k ih =>
    obtain ⟨hv, hsize⟩ := ih h.extend
    refine ⟨hv, ?_⟩
    rw [GeneratorCache.extendBy, hsize, size_extend]
    omega

/-- The cache up to a degree has the generator of that degree. -/
theorem Valid.upTo {cache : GeneratorCache} (h : cache.Valid) (degree : Nat) :
    (cache.upTo degree).Valid ∧
      (cache.upTo degree).known[degree]? = some (ReedSolomon.generator degree) := by
  obtain ⟨hv, hsize⟩ := h.extendBy (degree + 1 - cache.known.size)
  exact ⟨hv, hv.known_eq degree (by rw [hsize]; omega)⟩

end GeneratorCache

namespace ReedSolomon

variable {cache : GeneratorCache}

/-- An encoder knows every generator of a positive degree. -/
theorem getGenerator_eq (h : cache.Valid) {degree : Nat} (hpos : 0 < degree) :
    getGenerator degree cache = .ok (generator degree) (cache.upTo degree) := by
  rw [getGenerator, if_neg (by omega)]
  simp only [(h.upTo degree).2, Option.getD_some]

/-- **An encoder answers with the remainder**, whatever it has built before. -/
theorem encode_eq (h : cache.Valid) {checks : Nat} (hpos : 0 < checks) (data : Poly) :
    encode data checks cache = .ok (remainder (generator checks) data) (cache.upTo checks) :=
  bind_of_ok (getGenerator_eq h hpos)

end ReedSolomon
end QRCode
