/-
# Long division, and the only check codewords

`ReedSolomonEncoder::encode` as the loop over one buffer that it is.

An encoder can divide in one buffer, which holds the data with zeros behind it: place
after place, a multiple of the generator is subtracted that makes the place zero, and
what the last places hold in the end are the check codewords (`longDivision`).  The
register that data is fed into is the part of such a buffer that was touched and is still
to be read, so both divisions agree (`longDivision_eq`).

| fact | statement |
| --- | --- |
| what a division leaves is the remainder of polynomials | `toPolynomial_remainder` |
| up to `255` syndromes determine as many bytes | `eq_of_syndromes` |
-/

import QRCode.Proofs.Products
import QRCode.Proofs.Detection
import Mathlib.Algebra.Polynomial.BigOperators
import Mathlib.Algebra.Polynomial.Div

namespace QRCode
namespace ReedSolomon

open Polynomial

/-! ### Division in one buffer -/

/-- A list with the elements of another added to its first ones; what the other has
beyond its end is lost. -/
def addFront : Poly → Poly → Poly
  | [], _ => []
  | p, [] => p
  | x :: p, y :: q => (x + y) :: addFront p q

/-- One step of a division: what is at a place of the buffer is cancelled by a multiple of
the generator, without its leading coefficient, in the places behind. -/
def cancelAt (tail : Poly) (buffer : Poly) (i : Nat) : Poly :=
  let lead := buffer.getD i 0
  if lead = 0 then buffer
  else buffer.take (i + 1) ++ addFront (buffer.drop (i + 1)) (tail.map (· * lead))

/-- Long division of data, shifted up by the degree of a generator: a step for every element of data
(`ReedSolomonEncoder::encode`).  The remainder is what stands behind the data in the end. -/
def longDivision (gen data : Poly) : Poly :=
  ((List.range data.length).foldl (cancelAt (gen.drop 1))
    (data ++ List.replicate (gen.length - 1) 0)).drop data.length

/-- Nothing added changes nothing. -/
theorem addFront_nil (p : Poly) : addFront p [] = p := by cases p <;> rfl

/-- Nor do zeros. -/
theorem addFront_replicate (p : Poly) (n : Nat) : addFront p (List.replicate n 0) = p := by
  induction p generalizing n with
  | nil => rfl
  | cons x p ih =>
    cases n with
    | zero => rfl
    | succ n => rw [List.replicate_succ, addFront, ih, add_zero]

/-- Zeros with a list added to them are that list. -/
theorem replicate_addFront (p : Poly) : addFront (List.replicate p.length 0) p = p := by
  induction p with
  | nil => rfl
  | cons x p ih => rw [List.length_cons, List.replicate_succ, addFront, ih, zero_add]

/-- A zero at the end of what is added does not count. -/
theorem addFront_append_zero (p q : Poly) : addFront p (q ++ [0]) = addFront p q := by
  induction p generalizing q with
  | nil => rfl
  | cons x p ih =>
    cases q with
    | nil => rw [List.nil_append, addFront_nil, addFront, add_zero, addFront_nil]
    | cons y q => rw [List.cons_append, addFront, addFront, ih]

/-- Two lists of one length can be added first. -/
theorem addFront_addFront (p : Poly) {q r : Poly} (h : q.length = r.length) :
    addFront (addFront p q) r = addFront p (List.zipWith (· + ·) q r) := by
  induction p generalizing q r with
  | nil => rfl
  | cons x p ih =>
    cases q with
    | nil =>
      obtain rfl := List.eq_nil_of_length_eq_zero h.symm
      rfl
    | cons y q =>
      cases r with
      | nil => cases h
      | cons z r => rw [addFront, addFront, List.zipWith_cons_cons, addFront, ih (Nat.succ.inj h), add_assoc]

/-- Nothing has to be skipped: to cancel a zero changes nothing. -/
theorem cancelAt_append (tail done : Poly) (lead : GF256) (rest : Poly) :
    cancelAt tail (done ++ lead :: rest) done.length =
      (done ++ [lead]) ++ addFront rest (tail.map (· * lead)) := by
  have hget : (done ++ lead :: rest).getD done.length 0 = lead := by simp
  have htake : (done ++ lead :: rest).take (done.length + 1) = done ++ [lead] := by simp [List.take_append]
  have hdrop : (done ++ lead :: rest).drop (done.length + 1) = rest := by simp
  unfold cancelAt
  simp only [hget, htake, hdrop]
  split
  · next hzero =>
    have hmap : tail.map (· * lead) = List.replicate tail.length 0 := by
      simp only [hzero, mul_zero, List.map_const']
    rw [hmap, addFront_replicate, List.append_assoc]
    rfl
  · rfl

/-- A step leaves the next register added to what was not read yet. -/
theorem addFront_feed {tail : Poly} {c : GF256} {register : Poly} (h : (c :: register).length = tail.length)
    (d : GF256) (p : Poly) :
    addFront (addFront p register) (tail.map (· * (d + c))) = addFront p (feed tail (c :: register) d) := by
  have hlen : (register ++ [0]).length = (tail.map (· * (d + c))).length := by
    rw [List.length_append, List.length_map, ← h]
    rfl
  rw [← addFront_append_zero p register, addFront_addFront p hlen, add_comm d c]
  rfl

/-- **The buffer holds the register**: with a register added to the data that is still to
be read, and zeros behind it, the steps of a division lead to the register that was fed
these data. -/
theorem foldl_cancelAt (tail : Poly) (h₀ : 0 < tail.length) (data : Poly) :
    ∀ done register : Poly, register.length = tail.length →
      ∃ done' : Poly, done'.length = done.length + data.length ∧
        (List.range' done.length data.length).foldl (cancelAt tail)
          (done ++ addFront (data ++ List.replicate tail.length 0) register) =
            done' ++ data.foldl (feed tail) register := by
  induction data with
  | nil =>
    intro done register h
    refine ⟨done, rfl, ?_⟩
    rw [List.nil_append, ← h, replicate_addFront]
    rfl
  | cons d data ih =>
    intro done register h
    cases register with
    | nil => rw [← h] at h₀; cases h₀
    | cons c register =>
      -- the first place is done, and the register has been fed what stood there
      obtain ⟨done', hlen, hrun⟩ := ih (done ++ [d + c]) (feed tail (c :: register) d) (length_feed h h₀ d)
      rw [List.length_append, List.length_singleton] at hlen hrun
      refine ⟨done', by rw [hlen, List.length_cons]; omega, ?_⟩
      rw [List.length_cons, List.range'_succ, List.foldl_cons, List.cons_append, addFront, cancelAt_append,
        addFront_feed h, hrun]
      rfl

/-- **Both divisions agree.** -/
theorem longDivision_eq {gen : Poly} (h : 1 < gen.length) (data : Poly) :
    longDivision gen data = remainder gen data := by
  have htail : (gen.drop 1).length = gen.length - 1 := List.length_drop
  obtain ⟨done, hlen, hrun⟩ := foldl_cancelAt (gen.drop 1) (by omega) data []
    (List.replicate (gen.length - 1) 0) (by rw [List.length_replicate, htail])
  rw [List.length_nil, Nat.zero_add] at hlen
  rw [List.length_nil, List.nil_append, addFront_replicate, htail, ← List.range_eq_range'] at hrun
  rw [longDivision, hrun, List.drop_left' hlen, remainder]

/-! ### Remainders of polynomials -/

/-- A list of elements is a polynomial of lower degree than its length. -/
theorem degree_toPolynomial_lt (p : Poly) : (toPolynomial p).degree < p.length := by
  induction p with
  | nil => simp
  | cons c p ih =>
    have hlt : (p.length : WithBot ℕ) < (c :: p).length := by
      rw [List.length_cons]
      exact_mod_cast Nat.lt_succ_self _
    have hlead : (C c * X ^ p.length : GF256[X]).degree < (c :: p).length :=
      (degree_C_mul_X_pow_le _ _).trans_lt hlt
    rw [toPolynomial_cons]
    exact (degree_add_le _ _).trans_lt (max_lt hlead (ih.trans hlt))

/-- Generators begin with one. -/
theorem monic_toPolynomial_generator (n : Nat) : (toPolynomial (generator n)).Monic := by
  rw [toPolynomial_generator]
  exact monic_prod_of_monic _ _ fun i _ => monic_X_sub_C _

/-- The degree of a generator is the one it is called by. -/
theorem degree_toPolynomial_generator (n : Nat) : (toPolynomial (generator n)).degree = n := by
  rw [toPolynomial_generator, degree_prod]
  simp

/-- **What a division leaves is the remainder of polynomials.** -/
theorem toPolynomial_remainder {n : Nat} (h : 0 < n) (data : Poly) :
    toPolynomial (remainder (generator n) data) =
      (toPolynomial data * X ^ n) %ₘ toPolynomial (generator n) := by
  obtain ⟨q, hq⟩ := exists_quotient_remainder h data
  refine ((div_modByMonic_unique q _ (monic_toPolynomial_generator n) ⟨?_, ?_⟩).2).symm
  · have htwo := CharTwo.add_self_eq_zero (toPolynomial (remainder (generator n) data))
    linear_combination htwo - hq
  · have hlt := degree_toPolynomial_lt (remainder (generator n) data)
    rwa [length_remainder h, ← degree_toPolynomial_generator] at hlt

/-- The powers of `x` are those of the byte `2`. -/
theorem exp_eq_pow_two (i : Nat) : GF256.exp i = (⟨2⟩ : GF256) ^ i := by
  have htwo : GF256.exp 1 = ⟨2⟩ := by decide +kernel
  rw [GF256.exp_eq_pow, htwo]

/-- The powers of `x` wrap after `255`. -/
theorem exp_eq_two_pow (i : Nat) : GF256.exp i = (⟨2⟩ : GF256) ^ (i % 255) := by
  rw [← GF256.exp_mod, exp_eq_pow_two]

/-! ### Check codewords of bytes -/

theorem ofBytes_append (a b : List UInt8) : GF256.ofBytes (a ++ b) = GF256.ofBytes a ++ GF256.ofBytes b :=
  List.map_append

theorem length_ofBytes (bytes : List UInt8) : (GF256.ofBytes bytes).length = bytes.length := List.length_map _

/-- The error correction codewords of a block are the remainder of its data. -/
theorem ofBytes_ecc_ofData (checks : Nat) (data : List UInt8) :
    GF256.ofBytes (Block.ofData checks data).ecc = remainder (generator checks) (GF256.ofBytes data) :=
  Block.ofBytes_toBytes _

variable {cache : GeneratorCache} {checks : Nat}

/-- **Check codewords are the remainder of a division.**  In the field, products of bytes are
products of polynomials modulo `x⁸ + x⁴ + x³ + x² + 1`.  With a positive number of check
codewords, an encoder answers with that many; they are what long division leaves, they
complete the data to a multiple of the product of `x - aⁱ`, and all syndromes of data and
check codewords are zero.  Without check codewords there is nothing to divide by. -/
theorem encode_is_division (hcache : cache.Valid) (data : List UInt8) (checks : Nat) :
    (∀ a b : GF256, a * b = GF256.polynomialProduct a b) ∧
    (1 ≤ checks → ∃ ecc cache',
      encode (GF256.ofBytes data) checks cache = .ok (GF256.ofBytes ecc) cache' ∧ cache'.Valid ∧
      ecc.length = checks ∧
      longDivision (generator checks) (GF256.ofBytes data) = GF256.ofBytes ecc ∧
      (∃ q, toPolynomial (GF256.ofBytes data) * X ^ checks + toPolynomial (GF256.ofBytes ecc) =
        q * ∏ i ∈ Finset.range checks, (X - C ((⟨2⟩ : GF256) ^ (i % 255)))) ∧
      toPolynomial (GF256.ofBytes ecc) =
        (toPolynomial (GF256.ofBytes data) * X ^ checks) %ₘ toPolynomial (generator checks) ∧
      syndromes (GF256.ofBytes (data ++ ecc)) checks = List.replicate checks 0) ∧
    encode (GF256.ofBytes data) 0 cache = .error (.field .generatorOfDegreeZero) cache := by
  refine ⟨GF256.mul_eq_polynomialProduct, ?_, rfl⟩
  intro hchecks
  have hecc := ofBytes_ecc_ofData checks data
  have hdegree : 1 < (generator checks).length := by rw [length_generator]; omega
  refine ⟨(Block.ofData checks data).ecc, cache.upTo checks, ?_, (hcache.upTo checks).1,
    Block.length_ecc_ofData hchecks data, ?_, ?_, ?_, isCodeword_iff.1 (isCodeword_ofData hchecks data)⟩
  · rw [encode_eq hcache hchecks, hecc]
  · rw [longDivision_eq hdegree, hecc]
  · obtain ⟨q, hq⟩ := exists_quotient_remainder hchecks (GF256.ofBytes data)
    refine ⟨q, ?_⟩
    simp only [← exp_eq_two_pow]
    rw [hecc, hq, toPolynomial_generator]
  · rw [hecc, toPolynomial_remainder hchecks]

/-- Data that begin with a zero, with more check codewords than there are powers of `x`. -/
theorem encode_is_division_beyond :
    ∃ ecc cache', encode (GF256.ofBytes [0, 0x12]) 300 .fresh = .ok (GF256.ofBytes ecc) cache' ∧
      ecc.length = 300 ∧ syndromes (GF256.ofBytes ([0, 0x12] ++ ecc)) 300 = List.replicate 300 0 := by
  obtain ⟨ecc, cache', hrun, -, hlen, -, -, -, hzero⟩ :=
    (encode_is_division GeneratorCache.valid_fresh [0, 0x12] 300).2.1 (by decide)
  exact ⟨ecc, cache', hrun, hlen, hzero⟩

/-! ### The only check codewords -/

/-- A polynomial behind another one lifts it by as many powers as it has coefficients. -/
theorem eval_append (p q : Poly) (x : GF256) :
    GF256.eval (p ++ q) x = GF256.eval p x * x ^ q.length + GF256.eval q x := by
  rw [← eval_toPolynomial, toPolynomial_append, eval_add, eval_mul, eval_pow, eval_X, eval_toPolynomial,
    eval_toPolynomial]

/-- What stands before words of one length does not tell them apart. -/
theorem syndromes_eq_of_append {data a b : Poly} (hlen : a.length = b.length) {n : Nat}
    (h : syndromes (data ++ a) n = syndromes (data ++ b) n) : syndromes a n = syndromes b n := by
  refine List.map_congr_left fun i hi => ?_
  have hvalue := List.map_inj_left.1 h i hi
  rw [eval_append, eval_append, hlen] at hvalue
  exact add_left_cancel hvalue

/-- **Syndromes determine as many bytes**, up to `255`. -/
theorem eq_of_syndromes {a b : List UInt8} {n : Nat} (hlen : a.length = b.length) (hshort : a.length ≤ n)
    (hmax : n ≤ 255) (h : syndromes (GF256.ofBytes a) n = syndromes (GF256.ofBytes b) n) : a = b := by
  by_contra hne
  have hfar := lt_distance_of_bytes hlen (hshort.trans hmax) h hne
  have hnear := distance_le_length a b
  omega

/-- **Zero syndromes tell a word of the code.**  Behind given data, exactly one word of up to
`255` bytes makes as many syndromes zero: the one that an encoder answers with. -/
theorem isCodeword_append_iff (hcache : cache.Valid) (hchecks : 1 ≤ checks) (hmax : checks ≤ 255)
    (data : List UInt8) :
    ∃ ecc cache', encode (GF256.ofBytes data) checks cache = .ok (GF256.ofBytes ecc) cache' ∧
      cache'.Valid ∧ ecc.length = checks ∧
      ∀ tail : List UInt8, tail.length = checks → (IsCodeword checks (data ++ tail) ↔ tail = ecc) := by
  have hlen := Block.length_ecc_ofData hchecks data
  have hword := isCodeword_ofData hchecks data
  refine ⟨(Block.ofData checks data).ecc, cache.upTo checks, ?_, (hcache.upTo checks).1, hlen, ?_⟩
  · rw [encode_eq hcache hchecks, ofBytes_ecc_ofData]
  · intro tail htail
    constructor
    · intro hzero
      have hsame := (isCodeword_iff.1 hzero).trans (isCodeword_iff.1 hword).symm
      rw [ofBytes_append, ofBytes_append] at hsame
      have htails := syndromes_eq_of_append (by rw [length_ofBytes, length_ofBytes, htail, hlen]) hsame
      exact eq_of_syndromes (htail.trans hlen.symm) htail.le hmax htails
    · rintro rfl
      exact hword

/-- Ten check codewords for three of data: no other ten do. -/
theorem isCodeword_append_iff_ten :
    ∃ ecc cache', encode (GF256.ofBytes [1, 2, 3]) 10 .fresh = .ok (GF256.ofBytes ecc) cache' ∧
      ∀ tail : List UInt8, tail.length = 10 → (IsCodeword 10 ([1, 2, 3] ++ tail) ↔ tail = ecc) := by
  have hten : 1 ≤ 10 := by decide
  obtain ⟨ecc, cache', hrun, -, -, hiff⟩ :=
    isCodeword_append_iff GeneratorCache.valid_fresh hten (by decide) [1, 2, 3]
  exact ⟨ecc, cache', hrun, hiff⟩

end ReedSolomon
end QRCode
