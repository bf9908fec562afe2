/-
# The distance between two words of a code

A non-zero word of at most `255` elements that vanishes at the first `k` powers of
`x` has more than `k` non-zero elements (`ReedSolomon.lt_weight_of_syndromes`): its
values at those powers are a Vandermonde system in its non-zero elements, whose
nodes differ because `x` has order `255`.  The sum of two words that have the same
values there is such a word, so two different words differ in more than `k` places
(`ReedSolomon.lt_distance_of_syndromes`).
-/

import QRCode.Proofs.Remainder
import Mathlib.LinearAlgebra.Vandermonde

namespace QRCode

/-- The number of places in which two words differ. -/
def distance {α : Type} [DecidableEq α] (a b : List α) : Nat := (a.zip b).countP fun e => e.1 ≠ e.2

section Distance

variable {α : Type} [DecidableEq α]

/-- Each place adds to the distance where it differs. -/
theorem distance_cons (x y : α) (a b : List α) :
    distance (x :: a) (y :: b) = distance a b + if x = y then 0 else 1 := by
  by_cases h : x = y <;> simp [distance, h]

/-- The distance is the same from either side. -/
theorem distance_comm (a b : List α) : distance a b = distance b a := by
  induction a generalizing b with
  | nil => simp [distance]
  | cons x a ih =>
    cases b with
    | nil => simp [distance]
    | cons y b => rw [distance_cons, distance_cons, ih, if_congr eq_comm rfl rfl]

/-- **The triangle inequality.** -/
theorem distance_triangle {a b c : List α} (hab : a.length = b.length) (hbc : b.length = c.length) :
    distance a c ≤ distance a b + distance b c := by
  induction a generalizing b c with
  | nil => simp [distance]
  | cons x a ih =>
    cases b with
    | nil => cases hab
    | cons y b =>
      cases c with
      | nil => cases hbc
      | cons z c =>
        have hrest := ih (Nat.succ.inj hab) (Nat.succ.inj hbc)
        rw [distance_cons, distance_cons, distance_cons]
        by_cases hxy : x = y
        · by_cases hyz : y = z
          · rw [if_pos (hxy.trans hyz)]; omega
          · rw [if_neg hyz]; split <;> omega
        · rw [if_neg hxy]; split <;> omega

/-- A list has no distance from itself. -/
theorem distance_self (a : List α) : distance a a = 0 := by
  induction a with
  | nil => rfl
  | cons x a ih => rw [distance_cons, ih, if_pos rfl]

/-- Words of one length that differ nowhere are equal. -/
theorem eq_of_distance_eq_zero {a b : List α} (hlen : a.length = b.length) (h : distance a b = 0) :
    a = b := by
  induction a generalizing b with
  | nil => exact (List.eq_nil_of_length_eq_zero hlen.symm).symm
  | cons x a ih =>
    cases b with
    | nil => cases hlen
    | cons y b =>
      rw [distance_cons] at h
      split at h
      · rename_i hxy
        rw [hxy, ih (Nat.succ.inj hlen) h]
      · cases h

/-- **Words of one length are different exactly when they differ somewhere.** -/
theorem distance_pos_iff {a b : List α} (hlen : a.length = b.length) : 0 < distance a b ↔ a ≠ b := by
  rw [Nat.pos_iff_ne_zero]
  constructor
  · rintro h rfl
    exact h (distance_self a)
  · exact fun hne h => hne (eq_of_distance_eq_zero hlen h)

/-- A one-to-one change of alphabet keeps distances. -/
theorem distance_map {β : Type} [DecidableEq β] {f : α → β} (hf : Function.Injective f) (a b : List α) :
    distance (a.map f) (b.map f) = distance a b := by
  induction a generalizing b with
  | nil => rfl
  | cons x a ih =>
    cases b with
    | nil => simp [distance]
    | cons y b =>
      rw [List.map_cons, List.map_cons, distance_cons, distance_cons, ih, if_congr hf.eq_iff rfl rfl]

end Distance

namespace ReedSolomon

/-- The first coefficient belongs to the highest power. -/
theorem eval_cons (c : GF256) (p : Poly) (x : GF256) :
    GF256.eval (c :: p) x = c * x ^ p.length + GF256.eval p x := by
  rw [← eval_toPolynomial, toPolynomial_cons, ← eval_toPolynomial]
  simp

/-- The value of a polynomial, coefficient by coefficient. -/
theorem eval_eq_sum (p : Poly) (x : GF256) :
    GF256.eval p x = ∑ i : Fin p.length, p[i] * x ^ (p.length - 1 - i) := by
  induction p with
  | nil => rfl
  | cons c p ih =>
    rw [eval_cons, ih]
    simp only [List.length_cons, Fin.sum_univ_succ]
    congr 1
    refine Finset.sum_congr rfl fun i _ => ?_
    have hexp : p.length + 1 - 1 - (i.val + 1) = p.length - 1 - i.val := by omega
    simp only [Fin.val_succ, hexp]
    rfl

/-- The number of non-zero elements, as the size of a set of places. -/
theorem card_support (word : Poly) :
    (Finset.univ.filter fun i : Fin word.length => word[i] ≠ 0).card = word.countP (· ≠ 0) := by
  rw [Finset.card_filter]
  induction word with
  | nil => rfl
  | cons c word ih =>
    simp only [List.length_cons, Fin.sum_univ_succ, List.countP_cons]
    rw [Nat.add_comm, ← ih]
    congr 1
    by_cases hc : c = 0 <;> simp [hc]

/-- **Weight of a word that vanishes at `k` powers.**  If at most `k` elements were
not zero, they would solve a Vandermonde system with different nodes. -/
theorem lt_weight_of_syndromes {word : Poly} {k : Nat} (hlen : word.length ≤ 255)
    (hzero : syndromes word k = List.replicate k 0) (hne : 0 < word.countP (· ≠ 0)) :
    k < word.countP (· ≠ 0) := by
  by_contra hle
  rw [← card_support] at hle hne
  set S := Finset.univ.filter fun i : Fin word.length => word[i] ≠ 0 with hS
  let place : Fin S.card ≃ S := S.equivFin.symm
  let node (i : Fin word.length) : GF256 := GF256.exp (word.length - 1 - i)
  have hinj : Function.Injective fun j => node (place j) := by
    intro j j' h
    have hexp := GF256.exp_injOn (by omega) (by omega) h
    have hplace : (place j).val = (place j').val := Fin.ext (by omega)
    exact place.injective (Subtype.ext hplace)
  have hsum : ∀ i : Fin S.card, ∑ j, word[(place j).val] * node (place j) ^ i.val = 0 := by
    intro i
    have hval : GF256.eval word (GF256.exp i) = 0 := by
      have hmem : GF256.eval word (GF256.exp i) ∈ syndromes word k :=
        List.mem_map.2 ⟨i, List.mem_range.2 (by omega), rfl⟩
      rw [hzero] at hmem
      exact List.eq_of_mem_replicate hmem
    calc ∑ j, word[(place j).val] * node (place j) ^ i.val
        = ∑ s : S, word[s.val] * node s ^ i.val :=
          Equiv.sum_comp place fun s : S => word[s.val] * node s ^ i.val
      _ = ∑ s ∈ S, word[s] * node s ^ i.val :=
          Finset.sum_coe_sort S fun s => word[s] * node s ^ i.val
      _ = ∑ s : Fin word.length, word[s] * node s ^ i.val := by
          refine Finset.sum_subset (Finset.subset_univ S) fun s _ hs => ?_
          have hs0 : word[s] = 0 := by simpa [hS] using hs
          rw [hs0, zero_mul]
      _ = GF256.eval word (GF256.exp i) := by
          rw [eval_eq_sum]
          refine Finset.sum_congr rfl fun s _ => ?_
          rw [show node s = GF256.exp (word.length - 1 - s) from rfl, GF256.exp_eq_pow,
            GF256.exp_eq_pow i.val, pow_right_comm]
      _ = 0 := hval
  have hv := Matrix.eq_zero_of_forall_pow_sum_mul_pow_eq_zero hinj hsum
  have hmem : ∀ s ∈ S, word[s] ≠ 0 := fun s hs => (Finset.mem_filter.1 hs).2
  exact hmem _ (place ⟨0, hne⟩).property (congrFun hv ⟨0, hne⟩)

/-- The sum of two words is zero where they agree. -/
theorem distance_eq_weight (a b : Poly) :
    distance a b = (List.zipWith (· + ·) a b).countP (· ≠ 0) := by
  induction a generalizing b with
  | nil => rfl
  | cons x a ih =>
    cases b with
    | nil => rfl
    | cons y b =>
      rw [distance_cons, ih, List.zipWith_cons_cons, List.countP_cons]
      have hiff : x + y = 0 ↔ x = y := CharTwo.add_eq_zero
      congr 1
      rw [if_congr hiff.symm rfl rfl]
      by_cases h : x + y = 0 <;> simp [h]

/-- The syndromes of a sum are sums of syndromes. -/
theorem syndromes_zipWith {a b : Poly} (h : a.length = b.length) (k : Nat) :
    syndromes (List.zipWith (· + ·) a b) k =
      List.zipWith (· + ·) (syndromes a k) (syndromes b k) := by
  have heval : ∀ x, GF256.eval (List.zipWith (· + ·) a b) x = GF256.eval a x + GF256.eval b x := by
    intro x
    rw [← eval_toPolynomial, toPolynomial_zipWith h, Polynomial.eval_add, eval_toPolynomial,
      eval_toPolynomial]
  simp only [syndromes, heval, List.zipWith_map, List.zipWith_self]

/-- The sum of two words with the same syndromes is a word of the code. -/
theorem syndromes_sum_eq_zero {a b : Poly} (hlen : a.length = b.length) {k : Nat}
    (h : syndromes a k = syndromes b k) :
    syndromes (List.zipWith (· + ·) a b) k = List.replicate k 0 := by
  have hself : ∀ c ∈ syndromes b k, c + c = 0 := fun c _ => CharTwo.add_self_eq_zero c
  rw [syndromes_zipWith hlen, h, List.zipWith_self, List.map_congr_left hself, List.map_const']
  simp [syndromes]

/-- **Two different words with the same syndromes differ in more than `k` places.** -/
theorem lt_distance_of_syndromes {a b : Poly} {k : Nat} (hlen : a.length = b.length)
    (hmax : a.length ≤ 255) (h : syndromes a k = syndromes b k) (hne : a ≠ b) : k < distance a b := by
  rw [distance_eq_weight]
  refine lt_weight_of_syndromes ?_ (syndromes_sum_eq_zero hlen h) ?_
  · rw [List.length_zipWith]; omega
  · rw [← distance_eq_weight, distance_pos_iff hlen]
    exact hne

/-- **The same for words of bytes.** -/
theorem lt_distance_of_bytes {a b : List UInt8} {k : Nat} (hlen : a.length = b.length)
    (hmax : a.length ≤ 255) (h : syndromes (GF256.ofBytes a) k = syndromes (GF256.ofBytes b) k)
    (hne : a ≠ b) : k < distance a b := by
  have hinj : Function.Injective GF256.mk := fun _ _ h => congrArg GF256.byte h
  have hwords : GF256.ofBytes a ≠ GF256.ofBytes b := fun h => hne (List.map_injective_iff.2 hinj h)
  have hlt := lt_distance_of_syndromes (by simpa [GF256.ofBytes] using hlen)
    (by simpa [GF256.ofBytes] using hmax) h hwords
  rwa [GF256.ofBytes, GF256.ofBytes, distance_map hinj] at hlt

end ReedSolomon
end QRCode
