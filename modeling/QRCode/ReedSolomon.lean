/-
# Reed-Solomon codes

`ReedSolomonEncoder`, with the generators that it keeps.

A word of codewords is a polynomial, highest coefficient first.  A code with `n`
check elements consists of the multiples of the generator of degree `n`, the
product of `x - αⁱ` for `i < n`; equivalently, of the words that vanish at these
powers (`syndromes`).  Data is encoded by appending the remainder of its
polynomial, shifted up by `n` places, on division by the generator: one element of
data after the other is fed into a register of `n` elements (`remainder`).

Generators are built one from the other, so an encoder keeps those that it has
built (`GeneratorCache`).  A coding program answers with a value or an error, and
leaves the cache behind; the answers do not depend on what was built before.
-/

import QRCode.GF256

namespace QRCode
namespace ReedSolomon

/-- A polynomial, highest coefficient first. -/
abbrev Poly := List GF256

/-- The product of a polynomial with `x - root`. -/
def timesRoot (p : Poly) (root : GF256) : Poly :=
  List.zipWith (· + ·) (p ++ [0]) (0 :: p.map (· * root))

/-- The generator of a given degree. -/
def generator : Nat → Poly
  | 0 => [1]
  | n + 1 => timesRoot (generator n) (GF256.exp n)

/-- The register after one more element of data: the element that falls out at the
top, together with the data, tells how much of the generator to subtract.  The
leading coefficient of the generator is left out. -/
def feed (tail : Poly) (register : Poly) (d : GF256) : Poly :=
  let lead := register.headD 0 + d
  List.zipWith (· + ·) (register.drop 1 ++ [0]) (tail.map (· * lead))

/-- The remainder of data, shifted up by the degree of a generator, on division by
that generator. -/
def remainder (gen : Poly) (data : Poly) : Poly :=
  data.foldl (feed (gen.drop 1)) (List.replicate (gen.length - 1) 0)

/-- A word at the first `n` powers of `x`: all zero for a word of the code
(`ReedSolomonEncoder::syndromes`). -/
def syndromes (word : Poly) (n : Nat) : Poly :=
  (List.range n).map fun i => GF256.eval word (GF256.exp i)

end ReedSolomon

/-- The generators that were built so far, by degree. -/
structure GeneratorCache where
  known : Array ReedSolomon.Poly

/-- A program that encodes; the generators that it has built stay, also when it fails. -/
abbrev Coding := EStateM Error GeneratorCache

namespace GeneratorCache

/-- The cache of an encoder that has not been used: the generator of degree zero. -/
def fresh : GeneratorCache := ⟨#[[1]]⟩

/-- One generator more, built from the largest one. -/
def extend (cache : GeneratorCache) : GeneratorCache :=
  let largest := cache.known.back?.getD [1]
  ⟨cache.known.push (ReedSolomon.timesRoot largest (GF256.exp (cache.known.size - 1)))⟩

/-- So many generators more. -/
def extendBy (cache : GeneratorCache) : Nat → GeneratorCache
  | 0 => cache
  | k + 1 => cache.extend.extendBy k

/-- The cache with all generators up to a degree (`ReedSolomonEncoder::cache_generator`). -/
def upTo (cache : GeneratorCache) (degree : Nat) : GeneratorCache :=
  cache.extendBy (degree + 1 - cache.known.size)

end GeneratorCache

namespace ReedSolomon

/-- The generator of a positive degree (`ReedSolomonEncoder::generator`). -/
def getGenerator (degree : Nat) : Coding Poly := fun cache =>
  if degree = 0 then .error (.field .generatorOfDegreeZero) cache
  else
    let cache := cache.upTo degree
    .ok (cache.known[degree]?.getD []) cache

/-- The check elements of data, a positive number of them (`ReedSolomonEncoder::encode`). -/
def encode (data : Poly) (checks : Nat) : Coding Poly := do
  let gen ← getGenerator checks
  return remainder gen data

end ReedSolomon
end QRCode
