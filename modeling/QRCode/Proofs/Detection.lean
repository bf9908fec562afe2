/-
# What check codewords detect

Two words of a code with `n` check codewords differ in at least `n + 1` places, so a
word that differs from one of them in `1` to `n` places is not a word of the code:
some syndrome tells (`ReedSolomon.IsCodeword.exists_syndrome`).  The bound is attained at every
length: data that differ in a single codeword have check codewords that differ
everywhere (`Block.distance_ofData_of_single`).
-/

import QRCode.Proofs.Blocks

namespace QRCode

section Distance

variable {α : Type} [DecidableEq α]

/-- Distances of parts add up. -/
theorem distance_append {a b : List α} (h : a.length = b.length) (c d : List α) :
    distance (a ++ c) (b ++ d) = distance a b + distance c d := by
  rw [distance, List.zip_append h, List.countP_append]
  rfl

/-- There are no more differences than places. -/
theorem distance_le_length (a b : List α) : distance a b ≤ a.length := by
  calc distance a b ≤ (a.zip b).length := List.countP_le_length
    _ ≤ a.length := by rw [List.length_zip]; exact Nat.min_le_left ..

end Distance

namespace ReedSolomon

/-- A word of the code with so many check codewords: all its syndromes are zero. -/
def IsCodeword (checks : Nat) (word : List UInt8) : Prop :=
  ∀ s ∈ syndromes (GF256.ofBytes word) checks, s = 0

variable {checks : Nat}

/-- A word belongs to the code when all its syndromes are zero. -/
theorem isCodeword_iff {word : List UInt8} :
    IsCodeword checks word ↔
      syndromes (GF256.ofBytes word) checks = List.replicate checks 0 := by
  have hlen : (syndromes (GF256.ofBytes word) checks).length = checks := by simp [syndromes]
  rw [List.eq_replicate_iff]
  exact ⟨fun h => ⟨hlen, h⟩, fun h => h.2⟩

/-- **Words of the code are far apart.** -/
theorem IsCodeword.lt_distance {a b : List UInt8} (ha : IsCodeword checks a)
    (hb : IsCodeword checks b) (hlen : a.length = b.length) (hmax : a.length ≤ 255) (hne : a ≠ b) :
    checks < distance a b :=
  lt_distance_of_bytes hlen hmax ((isCodeword_iff.1 ha).trans (isCodeword_iff.1 hb).symm) hne

/-- **A word of the code that was altered in a few places is none any more.** -/
theorem IsCodeword.exists_syndrome {word sent : List UInt8} (hsent : IsCodeword checks sent)
    (hlen : word.length = sent.length) (hmax : sent.length ≤ 255) (hpos : 0 < distance word sent)
    (hfew : distance word sent ≤ checks) : ∃ s ∈ syndromes (GF256.ofBytes word) checks, s ≠ 0 := by
  by_contra hnone
  have hword : IsCodeword checks word := by
    intro s hs
    by_contra hne
    exact hnone ⟨s, hs, hne⟩
  have hfar := hword.lt_distance hsent hlen (hlen ▸ hmax) ((distance_pos_iff hlen).1 hpos)
  omega

/-- An encoder completes data to a word of the code. -/
theorem isCodeword_ofData (hchecks : 0 < checks) (data : List UInt8) :
    IsCodeword checks (data ++ (Block.ofData checks data).ecc) := by
  have hzero := Block.syndromes_ofData hchecks data
  rw [Block.syndromes, Block.length_ecc_ofData hchecks] at hzero
  exact isCodeword_iff.2 hzero

/-- **Minimum distance.**  Different words of a code have distance more than the number
of check codewords.  So when at least one and at most that many of the codewords that an
encoder makes are altered, some syndrome is not zero, whatever the encoder has built
before. -/
theorem minimum_distance (hchecks : 1 ≤ checks) :
    (∀ a b : List UInt8, a.length = b.length → a.length ≤ 255 → IsCodeword checks a →
      IsCodeword checks b → a ≠ b → checks + 1 ≤ distance a b) ∧
    ∀ (data : List UInt8) (cache : GeneratorCache), cache.Valid → data.length + checks ≤ 255 →
      ∃ ecc cache', encode (GF256.ofBytes data) checks cache = .ok (GF256.ofBytes ecc) cache' ∧
        cache'.Valid ∧ ecc.length = checks ∧ IsCodeword checks (data ++ ecc) ∧
        ∀ word : List UInt8, word.length = data.length + checks →
          1 ≤ distance word (data ++ ecc) → distance word (data ++ ecc) ≤ checks →
          ∃ s ∈ syndromes (GF256.ofBytes word) checks, s ≠ 0 := by
  refine ⟨fun a b hlen hmax ha hb hne => ha.lt_distance hb hlen hmax hne, ?_⟩
  intro data cache hcache hmax
  have hecc := Block.length_ecc_ofData hchecks data
  have hsent := isCodeword_ofData hchecks data
  have hlength : (data ++ (Block.ofData checks data).ecc).length = data.length + checks := by
    rw [List.length_append, hecc]
  refine ⟨(Block.ofData checks data).ecc, cache.upTo checks, ?_, (hcache.upTo checks).1, hecc, hsent, ?_⟩
  · rw [encode_eq hcache hchecks, Block.ofData, Block.ofBytes_toBytes]
  · intro word hword hpos hfew
    exact hsent.exists_syndrome (hword.trans hlength.symm) (hlength ▸ hmax) hpos hfew

/-- Ten check codewords for three of data: `1` to `10` altered codewords show. -/
theorem minimum_distance_ten :
    ∃ ecc cache, encode (GF256.ofBytes [1, 2, 3]) 10 .fresh = .ok (GF256.ofBytes ecc) cache ∧
      ∀ word : List UInt8, word.length = 13 → 1 ≤ distance word ([1, 2, 3] ++ ecc) →
        distance word ([1, 2, 3] ++ ecc) ≤ 10 →
        ∃ s ∈ syndromes (GF256.ofBytes word) 10, s ≠ 0 := by
  have hten : 1 ≤ 10 := by decide
  obtain ⟨ecc, cache, hrun, -, -, -, hdetect⟩ :=
    (minimum_distance hten).2 [1, 2, 3] .fresh GeneratorCache.valid_fresh (by decide)
  exact ⟨ecc, cache, hrun, hdetect⟩

end ReedSolomon

/-- **Data that differ in one codeword have check codewords that differ everywhere.** -/
theorem Block.distance_ofData_of_single {checks : Nat} (hchecks : 0 < checks) {data data' : List UInt8}
    (hlen : data.length = data'.length) (hmax : data.length + checks ≤ 255)
    (hsingle : distance data data' = 1) :
    distance (ofData checks data).ecc (ofData checks data').ecc = checks := by
  have hecc := length_ecc_ofData hchecks data
  have hecc' := length_ecc_ofData hchecks data'
  have hne : data ≠ data' := (distance_pos_iff hlen).1 (by omega)
  have hwords : data ++ (ofData checks data).ecc ≠ data' ++ (ofData checks data').ecc :=
    fun h => hne (List.append_inj h hlen).1
  have hfar : checks < distance (data ++ (ofData checks data).ecc) (data' ++ (ofData checks data').ecc) :=
    (ReedSolomon.isCodeword_ofData hchecks data).lt_distance
      (ReedSolomon.isCodeword_ofData hchecks data') (by simp only [List.length_append]; omega)
      (by simp only [List.length_append]; omega) hwords
  have hnear := distance_le_length (ofData checks data).ecc (ofData checks data').ecc
  rw [distance_append hlen, hsingle] at hfar
  omega

end QRCode
