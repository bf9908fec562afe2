/-
# Blocks with every precondition checked

`QRBuilder::construct_payload` with its slices and assertions.

Dividing the codewords of a version, cutting the data, encoding the blocks and
arranging them, with a test before every step that could have no meaning:

| step | what is tested |
| --- | --- |
| a subtraction | the result is not negative |
| cutting data | the front lies inside, and no piece is empty |
| a product | the sum of the logarithms lies in the table of powers |
| a generator | there is one to build it from, and it has been built |
| a block | its parts lie inside, and the check elements fill the rest |
| appending bytes | the bit string is aligned |

No test fails for the plan of a version: with the tests in place, `protect` is still
`protect` (`protect_eq`), for any data.
-/

import QRCode.Proofs.Blocks
import QRCode.Proofs.Checked.Encoding

namespace QRCode
namespace Checked

open ReedSolomon (Poly)

/-! ### Plans -/

/-- The plan for `total` codewords (`BlockLayout::split`). -/
def divide (total data blocks : Nat) : Checked BlockPlan :=
  if blocks = 0 then throw (.malformed .zeroBlocks)
  else do
    let short ← sub blocks (total % blocks)
    let plan : BlockPlan :=
      ⟨⟨short, total / blocks, data / blocks⟩, ⟨total % blocks, total / blocks + 1, data / blocks + 1⟩⟩
    if plan.short.total ≤ plan.short.data then throw (.malformed .noCorrection)
    else if plan.totalLength ≠ total ∨ plan.dataLength ≠ data then
      throw (.malformed .uncoveredCodewords)
    else pure plan

/-- The plan of a version at a level (`BlockLayout::new`). -/
def planOf (v : Version) (level : Level) : Checked BlockPlan := do
  let data ← sub v.totalCodewords (v.ecCodewords level)
  divide v.totalCodewords data (v.blockCount level)

/-- Data cut into the data of the blocks (`BlockLayout::blockify`). -/
def cut (plan : BlockPlan) (data : List UInt8) : Checked (List (List UInt8)) :=
  if data.length ≠ plan.dataLength then throw (.malformed .dataLength)
  else do
    require (plan.short.data * plan.short.count ≤ data.length)
      (.range (plan.short.data * plan.short.count) data.length)
    require (plan.short.data ≠ 0) .emptyPieces
    require (plan.long.count = 0 ∨ plan.long.data ≠ 0) .emptyPieces
    return slices plan.dataLengths data

/-- Dividing has no faults, for any numbers. -/
theorem divide_eq (total data blocks : Nat) :
    divide total data blocks = lift (BlockPlan.divide total data blocks) := by
  unfold divide BlockPlan.divide
  split
  · rfl
  · rename_i hblocks
    have hmod : total % blocks < blocks := Nat.mod_lt _ (Nat.pos_of_ne_zero hblocks)
    rw [sub_eq (Nat.le_of_lt hmod), pure_bind]
    dsimp only
    split
    · rfl
    · split <;> rfl

/-- Every version and level has a plan. -/
theorem planOf_eq (v : Version) (level : Level) :
    planOf v level = lift (BlockPlan.ofVersion v level) := by
  rw [planOf, sub_eq (Nat.le_of_lt (v.ecCodewords_lt_total level)), pure_bind, divide_eq]
  rfl

/-- Cutting has no faults where no piece is empty. -/
theorem cut_eq {plan : BlockPlan} (hpos : 0 < plan.short.data)
    (hlong : plan.long.data = plan.short.data + 1) (data : List UInt8) :
    cut plan data = lift (plan.cut data) := by
  unfold cut BlockPlan.cut
  split
  · rfl
  · rename_i hlen
    have hrange : plan.short.data * plan.short.count ≤ data.length := by
      rw [Decidable.not_not.1 hlen, BlockPlan.dataLength, Nat.mul_comm]
      exact Nat.le_add_right _ _
    rw [require_eq hrange, pure_bind, require_eq (by omega), pure_bind, require_eq (by omega), pure_bind,
      if_neg (by omega)]
    rfl

/-! ### Check elements -/

/-- The product of two elements, read from the table of powers (`GaloisField::mul`). -/
def multiply (a b : GF256) : Checked GF256 :=
  if a = 0 ∨ b = 0 then pure 0
  else do
    require (a.log + b.log < 510) (.index (a.log + b.log) 510)
    return GF256.exp (a.log + b.log)

/-- The product of a polynomial with `x - root`. -/
def timesRoot (p : Poly) (root : GF256) : Checked Poly := do
  let products ← p.mapM fun c => multiply c root
  return List.zipWith (· + ·) (p ++ [0]) (0 :: products)

/-- So many generators more, each built from the largest one
(`ReedSolomonEncoder::cache_generator`). -/
def extendBy : Nat → GeneratorCache → Checked GeneratorCache
  | 0, cache => pure cache
  | k + 1, cache => do
    let last ← sub cache.known.size 1
    match cache.known[last]? with
    | none => ExceptT.mk (.error (.index last cache.known.size))
    | some largest =>
      let next ← timesRoot largest (GF256.exp last)
      extendBy k ⟨cache.known.push next⟩

/-- The generator of a positive degree (`ReedSolomonEncoder::generator`). -/
def getGenerator (degree : Nat) (cache : GeneratorCache) : Checked (Poly × GeneratorCache) :=
  if degree = 0 then throw (.field .generatorOfDegreeZero)
  else do
    let cache ← extendBy (degree + 1 - cache.known.size) cache
    match cache.known[degree]? with
    | none => ExceptT.mk (.error (.index degree cache.known.size))
    | some gen => return (gen, cache)

/-- The register after one more element of data. -/
def feed (tail register : Poly) (d : GF256) : Checked Poly := do
  let products ← tail.mapM fun c => multiply c (register.headD 0 + d)
  return List.zipWith (· + ·) (register.drop 1 ++ [0]) products

/-- The check elements of data (`ReedSolomonEncoder::encode`). -/
def checkElements (data : Poly) (checks : Nat) (cache : GeneratorCache) :
    Checked (Poly × GeneratorCache) := do
  let (gen, cache) ← getGenerator checks cache
  require (1 ≤ gen.length) (.range 1 gen.length)
  let register ← data.foldlM (feed (gen.drop 1)) (List.replicate (gen.length - 1) 0)
  return (register, cache)

/-- Logarithms of non-zero elements lie below `255`, so two of them add up to less than `510`. -/
theorem log_lt {a : GF256} (h : a ≠ 0) : a.log < 255 := by
  obtain ⟨i, hi, rfl⟩ := GF256.exists_exp h
  rw [GF256.log_exp]
  exact Nat.mod_lt _ (by decide)

/-- **The table of powers is long enough** for every product. -/
theorem multiply_eq (a b : GF256) : multiply a b = pure (a * b) := by
  rw [multiply, GF256.mul_eq]
  split
  · rfl
  · rename_i h
    rw [not_or] at h
    have ha := log_lt h.1
    have hb := log_lt h.2
    rw [require_eq (by omega), pure_bind]

/-- The next generator is computed without faults. -/
theorem timesRoot_eq (p : Poly) (root : GF256) :
    timesRoot p root = pure (ReedSolomon.timesRoot p root) := by
  simp only [timesRoot, multiply_eq, List.mapM_pure, pure_bind]
  rfl

/-- A register is fed without faults. -/
theorem feed_eq (tail register : Poly) (d : GF256) :
    feed tail register d = pure (ReedSolomon.feed tail register d) := by
  simp only [feed, multiply_eq, List.mapM_pure, pure_bind]
  rfl

/-- A cache that holds generators can be extended by any number of them. -/
theorem extendBy_eq {cache : GeneratorCache} (h : cache.Valid) (k : Nat) :
    extendBy k cache = pure (cache.extendBy k) := by
  induction k generalizing cache with
  | zero => rfl
  | succ k ih =>
    have hpos := h.size_pos
    have hlast := h.known_eq (cache.known.size - 1) (by omega)
    have hback : cache.known.back?.getD [1] = ReedSolomon.generator (cache.known.size - 1) := by
      rw [Array.back?_eq_getElem?, hlast, Option.getD_some]
    rw [extendBy, sub_eq hpos, pure_bind, hlast]
    dsimp only
    rw [timesRoot_eq, pure_bind, GeneratorCache.extendBy, ← ih h.extend, GeneratorCache.extend, hback]

/-- Check elements are found without faults, whatever the cache holds. -/
theorem checkElements_eq {cache : GeneratorCache} (h : cache.Valid) {checks : Nat} (hpos : 0 < checks)
    (data : Poly) :
    checkElements data checks cache =
      pure (ReedSolomon.remainder (ReedSolomon.generator checks) data, cache.upTo checks) := by
  have hknown := (h.upTo checks).2
  unfold GeneratorCache.upTo at hknown
  have hget : getGenerator checks cache = pure (ReedSolomon.generator checks, cache.upTo checks) := by
    rw [getGenerator, if_neg (by omega), extendBy_eq h, pure_bind, hknown]
    rfl
  have hfold : ∀ (data register : Poly),
      data.foldlM (feed ((ReedSolomon.generator checks).drop 1)) register =
        (pure (data.foldl (ReedSolomon.feed ((ReedSolomon.generator checks).drop 1)) register) :
          Checked Poly) := by
    intro data
    induction data with
    | nil => intro register; rfl
    | cons d data ih => intro register; rw [List.foldlM_cons, feed_eq, pure_bind, ih]; rfl
  rw [checkElements, hget, pure_bind]
  dsimp only
  rw [require_eq (by rw [ReedSolomon.length_generator]; omega), pure_bind, hfold, pure_bind]
  rfl

/-! ### Blocks -/

/-- The block of given length that starts with given data (`Block::new`). -/
def encodeBlock (data : List UInt8) (length : Nat) (cache : GeneratorCache) :
    Checked (Block × GeneratorCache) :=
  if Block.maxLength < length ∨ length ≤ data.length then throw (.malformed .blockWithoutRoom)
  else do
    require (data.length ≤ Block.maxLength) (.range data.length Block.maxLength)
    let checks ← sub length data.length
    let (ecc, cache) ← checkElements (GF256.ofBytes data) checks cache
    require (data.length ≤ length ∧ length ≤ Block.maxLength) (.range length Block.maxLength)
    require (ecc.length = length - data.length) (.copy ecc.length (length - data.length))
    return (⟨data, GF256.toBytes ecc⟩, cache)

/-- Slices of data made into blocks (`BlockLayout::encode`). -/
def encodeSlices (ecc : Nat) : List (List UInt8) → GeneratorCache → Checked (List Block × GeneratorCache)
  | [], cache => pure ([], cache)
  | slice :: rest, cache => do
    let (block, cache) ← encodeBlock slice (slice.length + ecc) cache
    let (blocks, cache) ← encodeSlices ecc rest cache
    return (block :: blocks, cache)

/-- Bytes appended to a bit string all at once (`BitStream::extend`). -/
def extend (bytes : List UInt8) (s : BitString) : Checked BitString := do
  require (s.isAligned = true) .unaligned
  return s.appendBytes bytes

/-- The bits of a symbol with given data codewords (`QRBuilder::construct_payload`). -/
def protect (v : Version) (level : Level) (data : List UInt8) : Checked BitString := do
  let plan ← planOf v level
  let parts ← cut plan data
  let ecc ← sub plan.short.total plan.short.data
  let (blocks, _) ← encodeSlices ecc parts .fresh
  let bits ← extend (interleave (blocks.map Block.data)) .empty
  let bits ← extend (interleave (blocks.map Block.ecc)) bits
  if bits.byteSize ≠ v.totalCodewords then throw (.malformed .payloadLength)
  else pure bits

/-- A block that is not too long is encoded without faults. -/
theorem encodeBlock_eq {cache : GeneratorCache} (hcache : cache.Valid) {ecc : Nat} (hecc : 0 < ecc)
    {data : List UInt8} (hlen : data.length + ecc ≤ Block.maxLength) :
    encodeBlock data (data.length + ecc) cache = pure (Block.ofData ecc data, cache.upTo ecc) := by
  have hcopy : (ReedSolomon.remainder (ReedSolomon.generator ecc) (GF256.ofBytes data)).length =
      data.length + ecc - data.length := by
    rw [ReedSolomon.length_remainder hecc]; omega
  rw [encodeBlock, if_neg (by omega), require_eq (by omega), pure_bind, sub_eq (by omega), pure_bind,
    Nat.add_sub_cancel_left, checkElements_eq hcache hecc, pure_bind]
  dsimp only
  rw [require_eq (by omega), pure_bind, require_eq (by omega), pure_bind]
  rfl

/-- So are all the slices of a plan, one after the other. -/
theorem encodeSlices_eq {cache : GeneratorCache} (hcache : cache.Valid) {ecc : Nat} (hecc : 0 < ecc)
    {parts : List (List UInt8)} (hlen : ∀ part ∈ parts, part.length + ecc ≤ Block.maxLength) :
    ∃ cache', encodeSlices ecc parts cache = pure (parts.map (Block.ofData ecc), cache') := by
  induction parts generalizing cache with
  | nil => exact ⟨cache, rfl⟩
  | cons part parts ih =>
    obtain ⟨cache', hrest⟩ :=
      ih (hcache.upTo ecc).1 fun p hp => hlen p (List.mem_cons_of_mem _ hp)
    refine ⟨cache', ?_⟩
    rw [encodeSlices, encodeBlock_eq hcache hecc (hlen part List.mem_cons_self), pure_bind]
    dsimp only
    rw [hrest, pure_bind]
    rfl

/-- Bytes can be appended where the last byte is full. -/
theorem extend_eq {s : BitString} (h : s.isAligned = true) (bytes : List UInt8) :
    extend bytes s = pure (s.appendBytes bytes) := by
  rw [extend, require_eq h, pure_bind]

/-- Behind whole bytes a bit string is aligned. -/
theorem isAligned_appendBytes (bytes : List UInt8) :
    (BitString.empty.appendBytes bytes).isAligned = true := by
  rw [BitString.isAligned, BitString.length_appendBytes]
  simp [BitString.empty]

/-- Arranged blocks, appended in two parts. -/
theorem appendBytes_arrange (blocks : List Block) :
    (BitString.empty.appendBytes (interleave (blocks.map Block.data))).appendBytes
        (interleave (blocks.map Block.ecc)) =
      BitString.empty.appendBytes (arrange blocks) := List.foldl_append.symm

/-- Data of the right length is protected without faults. -/
theorem protect_eq_of_length {v : Version} {level : Level} {data : List UInt8}
    (hlen : data.length = v.dataCodewords level) :
    protect v level data = lift (QRCode.protect v level data).result := by
  obtain ⟨plan, hplan, hcovers⟩ := BlockPlan.exists_plan v level
  have hpos := hcovers.short_data_pos
  have hcut : plan.cut data = .ok (slices plan.dataLengths data) := by
    rw [BlockPlan.cut, if_neg (by rw [hlen, hcovers.dataLength_eq, Decidable.not_not]), if_neg (by omega)]
  have hecc := hcovers.ecc_pos
  have hsub : plan.short.data ≤ plan.short.total := by unfold BlockPlan.eccPerBlock at hecc; omega
  obtain ⟨cache', hslices⟩ :=
    encodeSlices_eq GeneratorCache.valid_fresh hecc (hcovers.slice_length_le hlen)
  have hsize : (BitString.empty.appendBytes (arrange (plan.blocks data))).byteSize =
      v.totalCodewords := by
    rw [BitString.byteSize, BitString.length_appendBytes, hcovers.length_arrange hlen]
    simp only [BitString.empty]
    omega
  rw [protect, planOf_eq, hplan, lift_ok, pure_bind, cut_eq hpos hcovers.long_data, hcut, lift_ok,
    pure_bind, sub_eq hsub, pure_bind]
  show (encodeSlices plan.eccPerBlock (slices plan.dataLengths data) .fresh >>= _) = _
  rw [hslices, pure_bind]
  show (do
    let bits ← extend (interleave ((plan.blocks data).map Block.data)) .empty
    let bits ← extend (interleave ((plan.blocks data).map Block.ecc)) bits
    if bits.byteSize ≠ v.totalCodewords then throw (Error.malformed .payloadLength) else pure bits) = _
  rw [extend_eq rfl, pure_bind, extend_eq (isAligned_appendBytes _), pure_bind, appendBytes_arrange,
    if_neg (Decidable.not_not.2 hsize), QRCode.protect_eq hplan hlen]
  rfl

/-- **Protecting has no faults**, whatever the data. -/
theorem protect_eq (v : Version) (level : Level) (data : List UInt8) :
    protect v level data = lift (QRCode.protect v level data).result := by
  by_cases hlen : data.length = v.dataCodewords level
  · exact protect_eq_of_length hlen
  · obtain ⟨plan, hplan, hcovers⟩ := BlockPlan.exists_plan v level
    have hcut : plan.cut data = .error (.malformed .dataLength) := by
      rw [BlockPlan.cut, if_pos (by rwa [hcovers.dataLength_eq])]
    have hrun : plan.encode data .fresh = .error (.malformed .dataLength) .fresh := by
      rw [BlockPlan.encode, hcut]
      rfl
    rw [protect, planOf_eq, hplan, lift_ok, pure_bind, cut_eq hcovers.short_data_pos hcovers.long_data,
      hcut, lift_error_bind]
    unfold QRCode.protect
    rw [hplan]
    show _ = lift (Traced.ofProgram (plan.encode data) .fresh >>= _).result
    rw [Traced.ofProgram_of_error hrun, Traced.error_bind]

end Checked
end QRCode
