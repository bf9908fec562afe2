/-
# Calls of an encoder

`ReedSolomonEncoder::generator` and `ReedSolomonEncoder::encode` in any order, and the loop
of `ReedSolomonEncoder::cache_generator`.

An encoder is called for generators and for check elements, of any degrees in any order, and
keeps the generators that it builds on the way.  A call needs the generator of one degree and
leaves the cache with all generators up to there (`Call.left_eq`), so after some calls the
cache holds the generators up to the largest degree that was asked for, and nothing else
(`GeneratorCache.size_after`).  Every answer is made from a generator, which is the same
whatever else the cache holds (`Call.run_eq`).

A generator is built from the one before it in place: its coefficients are copied, with a
zero behind them, and then each of them, times the root, is added one place further on
(`timesRootInPlace`).  No place is read after it was added to, so this is the product with
`x - root` (`timesRootInPlace_eq`).
-/

import QRCode.Proofs.Division

namespace QRCode
namespace ReedSolomon

open Polynomial

/-! ### Products in place -/

/-- A coefficient, times the root, added one place further on. -/
def addShifted (p : Poly) (root : GF256) (next : Poly) (j : Nat) : Poly :=
  next.modify (j + 1) (· + p.getD j 0 * root)

/-- The product of a polynomial with `x - root`, built in a copy of the polynomial
(`ReedSolomonEncoder::cache_generator`). -/
def timesRootInPlace (p : Poly) (root : GF256) : Poly :=
  (List.range p.length).foldl (addShifted p root) (p ++ [0])

/-- After `k` steps, the places from `1` to `k` have been added to, each of them once. -/
theorem getElem?_foldl_addShifted (p : Poly) (root : GF256) (next : Poly) (k i : Nat) :
    ((List.range k).foldl (addShifted p root) next)[i]? =
      next[i]?.map fun c => if 1 ≤ i ∧ i ≤ k then c + p.getD (i - 1) 0 * root else c := by
  induction k with
  | zero =>
    have hnone : (fun c => if 1 ≤ i ∧ i ≤ 0 then c + p.getD (i - 1) 0 * root else c) = id := by
      funext c
      exact if_neg (by omega)
    rw [hnone, Option.map_id]
    rfl
  | succ k ih =>
    rw [List.range_succ, List.foldl_append, List.foldl_cons, List.foldl_nil, addShifted,
      List.getElem?_modify, ih, Option.map_eq_map, Option.map_map]
    congr 1
    funext c
    rw [Function.comp_apply]
    rcases Nat.lt_trichotomy i (k + 1) with hbefore | rfl | hbehind
    · rw [if_neg (by omega)]
      exact if_congr (by omega) rfl rfl
    · rw [if_pos rfl, if_neg (by omega), if_pos (by omega), Nat.add_sub_cancel]
    · rw [if_neg (by omega), if_neg (by omega), if_neg (by omega)]

/-- **The product in place is the product.** -/
theorem timesRootInPlace_eq (p : Poly) (root : GF256) : timesRootInPlace p root = timesRoot p root := by
  refine List.ext_getElem? fun i => ?_
  rw [timesRootInPlace, getElem?_foldl_addShifted, timesRoot, List.getElem?_zipWith]
  cases i with
  | zero => cases p <;> simp
  | succ j =>
    rcases Nat.lt_or_ge j p.length with hj | hj
    · simp [hj, Nat.succ_le_of_lt hj]
    · simp [hj]

/-! ### One call -/

/-- A call of an encoder. -/
inductive Call where
  /-- The generator of a degree. -/
  | generator (degree : Nat)
  /-- So many check elements of data. -/
  | encode (data : Poly) (checks : Nat)
  deriving DecidableEq

namespace Call

/-- The degree of the generator that a call needs. -/
def degree : Call → Nat
  | generator degree => degree
  | encode _ checks => checks

/-- What a call does. -/
def run : Call → Coding Poly
  | generator degree => getGenerator degree
  | encode data checks => ReedSolomon.encode data checks

/-- The answer to a call, or its error. -/
def answer (call : Call) (cache : GeneratorCache) : Except Error Poly :=
  match call.run cache with
  | .ok value _ => .ok value
  | .error e _ => .error e

/-- The cache that a call leaves behind, also when it fails. -/
def left (call : Call) (cache : GeneratorCache) : GeneratorCache :=
  match call.run cache with
  | .ok _ cache' => cache'
  | .error _ cache' => cache'

/-- What a call of positive degree is answered with. -/
def value : Call → Poly
  | generator degree => ReedSolomon.generator degree
  | encode data checks => remainder (ReedSolomon.generator checks) data

variable {call : Call} {cache : GeneratorCache}

/-- There is no generator of degree zero to be had, and asking for it changes nothing. -/
theorem run_of_degree_zero (h : call.degree = 0) (cache : GeneratorCache) :
    call.run cache = .error (.field .generatorOfDegreeZero) cache := by
  cases call with
  | generator degree =>
    obtain rfl : degree = 0 := h
    rfl
  | encode data checks =>
    obtain rfl : checks = 0 := h
    rfl

/-- **A call of positive degree** gets its value, and all generators up to its degree are
built. -/
theorem run_eq (hcache : cache.Valid) (hpos : 0 < call.degree) :
    call.run cache = .ok call.value (cache.upTo call.degree) := by
  cases call with
  | generator degree => exact getGenerator_eq hcache hpos
  | encode data checks => exact encode_eq hcache hpos data

/-- **The answer does not depend on the cache.** -/
theorem answer_eq (hcache : cache.Valid) (call : Call) :
    call.answer cache =
      if call.degree = 0 then .error (.field .generatorOfDegreeZero) else .ok call.value := by
  unfold answer
  split_ifs with hzero
  · rw [run_of_degree_zero hzero]
  · rw [run_eq hcache (Nat.pos_of_ne_zero hzero)]

/-- **The cache after a call** is that up to its degree. -/
theorem left_eq (hcache : cache.Valid) (call : Call) : call.left cache = cache.upTo call.degree := by
  unfold left
  by_cases hzero : call.degree = 0
  · have hpos := hcache.size_pos
    have hnone : 0 + 1 - cache.known.size = 0 := by omega
    rw [run_of_degree_zero hzero, hzero, GeneratorCache.upTo, hnone]
    rfl
  · rw [run_eq hcache (Nat.pos_of_ne_zero hzero)]

end Call

/-- The answers to some calls, one after the other. -/
def answers : List Call → GeneratorCache → List (Except Error Poly)
  | [], _ => []
  | call :: calls, cache => call.answer cache :: answers calls (call.left cache)

end ReedSolomon

/-! ### Any number of calls -/

namespace GeneratorCache

open ReedSolomon (Call)

variable {cache : GeneratorCache}

/-- The cache after some calls, the first of them first. -/
def after (cache : GeneratorCache) (calls : List Call) : GeneratorCache :=
  calls.foldl (fun cache call => call.left cache) cache

/-- Calls can be made in two goes. -/
theorem after_append (cache : GeneratorCache) (calls more : List Call) :
    cache.after (calls ++ more) = (cache.after calls).after more := List.foldl_append

/-- Building up to a degree makes the cache that large, if it is not larger already. -/
theorem Valid.size_upTo (h : cache.Valid) (degree : Nat) :
    (cache.upTo degree).known.size = max cache.known.size (degree + 1) := by
  rw [GeneratorCache.upTo, (h.extendBy _).2]
  omega

/-- A call leaves a cache of generators. -/
theorem Valid.left (h : cache.Valid) (call : Call) : (call.left cache).Valid := by
  rw [Call.left_eq h]
  exact (h.upTo call.degree).1

/-- **Any calls leave a cache of generators.** -/
theorem Valid.after (h : cache.Valid) (calls : List Call) : (cache.after calls).Valid := by
  induction calls generalizing cache with
  | nil => exact h
  | cons call calls ih => exact ih (h.left call)

/-- **The largest degree that was asked for** is the last one in the cache. -/
theorem Valid.size_after (h : cache.Valid) (calls : List Call) :
    (cache.after calls).known.size = (calls.map Call.degree).foldl max (cache.known.size - 1) + 1 := by
  induction calls generalizing cache with
  | nil =>
    have hpos := h.size_pos
    show cache.known.size = cache.known.size - 1 + 1
    omega
  | cons call calls ih =>
    have hpos := h.size_pos
    have hsize : (call.left cache).known.size - 1 = max (cache.known.size - 1) call.degree := by
      rw [Call.left_eq h, h.size_upTo]
      omega
    have hrest := ih (h.left call)
    rw [hsize] at hrest
    exact hrest

end GeneratorCache

namespace ReedSolomon

open Polynomial

variable {cache : GeneratorCache}

/-- **A run of calls is answered call by call** as any cache of generators answers. -/
theorem answers_eq {cache' : GeneratorCache} (h : cache.Valid) (h' : cache'.Valid) (calls : List Call) :
    answers calls cache = calls.map fun call => call.answer cache' := by
  induction calls generalizing cache with
  | nil => rfl
  | cons call calls ih =>
    rw [answers, List.map_cons, ih (h.left call), Call.answer_eq h, Call.answer_eq h']

/-- **What an encoder has built shows in none of its answers.**  However it is called, each
call is answered as a new encoder would answer it.  Meanwhile the cache grows up to the largest
degree that was asked for; at every index it holds the product of as many `x - aⁱ`, with one
coefficient more and the first of them `1`, and what follows it there is its product with the
next factor, built in place.  A call of degree zero fails and leaves the cache as it is. -/
theorem answers_independent (calls : List Call) :
    answers calls .fresh = calls.map (fun call => call.answer .fresh) ∧
    (GeneratorCache.fresh.after calls).known.size = (calls.map Call.degree).foldl max 0 + 1 ∧
    (∀ (d : Nat) (gen : Poly), (GeneratorCache.fresh.after calls).known[d]? = some gen →
      gen.length = d + 1 ∧ gen.head? = some 1 ∧
      toPolynomial gen = ∏ i ∈ Finset.range d, (X - C ((⟨2⟩ : GF256) ^ i)) ∧
      ∀ next, (GeneratorCache.fresh.after calls).known[d + 1]? = some next →
        next = timesRootInPlace gen ((⟨2⟩ : GF256) ^ d)) ∧
    ∀ call : Call, call.answer (.after .fresh calls) = call.answer .fresh ∧
      (0 < call.degree → call.answer (.after .fresh calls) = .ok call.value) ∧
      (call.degree = 0 → call.run (.after .fresh calls) =
        .error (.field .generatorOfDegreeZero) (.after .fresh calls)) := by
  have hfresh := GeneratorCache.valid_fresh
  have hcache := hfresh.after calls
  have hheld : ∀ (d : Nat) (gen : Poly), (GeneratorCache.fresh.after calls).known[d]? = some gen →
      gen = generator d := by
    intro d gen hgen
    obtain ⟨hd, -⟩ := Array.getElem?_eq_some_iff.1 hgen
    exact Option.some.inj (hgen.symm.trans (hcache.known_eq d hd))
  refine ⟨answers_eq hfresh hfresh calls, hfresh.size_after calls, ?_, fun call => ⟨?_, ?_, ?_⟩⟩
  · intro d gen hgen
    obtain rfl := hheld d gen hgen
    refine ⟨length_generator d, ?_, ?_, ?_⟩
    · rw [generator_eq_cons]
      rfl
    · simp only [toPolynomial_generator, exp_eq_pow_two]
    · intro next hnext
      rw [hheld (d + 1) next hnext, timesRootInPlace_eq, ← exp_eq_pow_two]
      rfl
  · rw [Call.answer_eq hcache, Call.answer_eq hfresh]
  · intro hpos
    rw [Call.answer_eq hcache, if_neg (by omega)]
  · exact fun hzero => Call.run_of_degree_zero hzero _

/-- An encoder that was asked for the seventh generator before the second, and for none in
between. -/
theorem answers_independent_backwards :
    (GeneratorCache.fresh.after [.generator 7, .encode [⟨5⟩] 0]).known.size = 8 ∧
      Call.answer (.generator 2) (.after .fresh [.generator 7, .encode [⟨5⟩] 0]) =
        .ok [⟨1⟩, ⟨3⟩, ⟨2⟩] ∧
      Call.run (.encode [⟨5⟩] 0) (.after .fresh [.generator 7]) =
        .error (.field .generatorOfDegreeZero) (.after .fresh [.generator 7]) := by
  obtain ⟨-, hsize, -, hcall⟩ := answers_independent [.generator 7, .encode [⟨5⟩] 0]
  obtain ⟨-, hvalue, -⟩ := hcall (.generator 2)
  obtain ⟨-, -, hzero⟩ := (answers_independent [.generator 7]).2.2.2 (.encode [⟨5⟩] 0)
  have hgenerator : Call.value (.generator 2) = [⟨1⟩, ⟨3⟩, ⟨2⟩] := by decide +kernel
  exact ⟨hsize, (hvalue (by decide)).trans (congrArg Except.ok hgenerator), hzero rfl⟩

end ReedSolomon
end QRCode
