/-
# Blocks of a version

`BlockLayout::new` and `BlockLayout::encode` for the versions, and
`QRBuilder::construct_payload`.

A plan that is made covers its codewords exactly (`BlockPlan.Covers`), and the plan
of a version at a level is always made (`BlockPlan.exists_plan`), with room for
error correction in every block and no block longer than a code allows.  So data of
the right length is always cut and protected: block `k` is slice `k` with its
remainder (`BlockPlan.encode_eq`), its syndromes are zero
(`Block.syndromes_ofData`), and all codewords together fill the symbol
(`protect_eq`).  The arranged codewords are taken apart by the plan alone
(`Reader.blocksOf_arrange`).
-/

import QRCode.Proofs.Distance
import QRCode.Proofs.Interleaving

namespace QRCode

/-! ### One block -/

namespace Block

/-- The block of given data with so many error correction codewords. -/
def ofData (ecc : Nat) (data : List UInt8) : Block :=
  ⟨data, GF256.toBytes (ReedSolomon.remainder (ReedSolomon.generator ecc) (GF256.ofBytes data))⟩

/-- A block has as many error correction codewords as asked for. -/
theorem length_ecc_ofData {ecc : Nat} (h : 0 < ecc) (data : List UInt8) :
    (ofData ecc data).ecc.length = ecc := by
  rw [ofData, GF256.toBytes, List.length_map, ReedSolomon.length_remainder h]

/-- Elements survive the way to bytes and back. -/
theorem ofBytes_toBytes (elements : List GF256) :
    GF256.ofBytes (GF256.toBytes elements) = elements := by
  rw [GF256.ofBytes, GF256.toBytes, List.map_map]
  exact List.map_id elements

/-- **A block of data and its remainder is a word of the code.** -/
theorem syndromes_ofData {ecc : Nat} (h : 0 < ecc) (data : List UInt8) :
    (ofData ecc data).syndromes = List.replicate ecc 0 := by
  have hword : GF256.ofBytes (ofData ecc data).codewords = GF256.ofBytes data ++
      ReedSolomon.remainder (ReedSolomon.generator ecc) (GF256.ofBytes data) := by
    rw [codewords, ofData, GF256.ofBytes, List.map_append]
    exact congrArg _ (ofBytes_toBytes _)
  rw [syndromes, hword, length_ecc_ofData h, ReedSolomon.syndromes_append_remainder h]

/-- A block that is not too long is encoded. -/
theorem encode_eq {cache : GeneratorCache} (hcache : cache.Valid) {ecc : Nat} (hecc : 0 < ecc)
    {data : List UInt8} (hlen : data.length + ecc ≤ maxLength) :
    Block.encode data (data.length + ecc) cache = .ok (ofData ecc data) (cache.upTo ecc) := by
  have hroom : ¬(maxLength < data.length + ecc ∨ data.length + ecc ≤ data.length) := by omega
  have hdata : data.length + ecc - data.length = ecc := Nat.add_sub_cancel_left ..
  unfold Block.encode
  rw [if_neg hroom, hdata]
  exact bind_of_ok (ReedSolomon.encode_eq hcache hecc (GF256.ofBytes data))

end Block

/-! ### All blocks -/

namespace BlockPlan

/-- The blocks of a plan hold its data. -/
theorem sum_dataLengths (plan : BlockPlan) : plan.dataLengths.sum = plan.dataLength := by
  simp [dataLengths, dataLength]

/-- There is one length for each block of a plan. -/
theorem length_dataLengths (plan : BlockPlan) : plan.dataLengths.length = plan.blockCount := by
  simp [dataLengths, blockCount]

/-- Slices are encoded one after the other. -/
theorem encodeSlices_eq {cache : GeneratorCache} (hcache : cache.Valid) {ecc : Nat} (hecc : 0 < ecc)
    {parts : List (List UInt8)} (hlen : ∀ part ∈ parts, part.length + ecc ≤ Block.maxLength) :
    ∃ cache', encodeSlices ecc parts cache = .ok (parts.map (Block.ofData ecc)) cache' ∧
      cache'.Valid := by
  induction parts generalizing cache with
  | nil => exact ⟨cache, rfl, hcache⟩
  | cons part parts ih =>
    obtain ⟨cache', hrun, hvalid⟩ :=
      ih (hcache.upTo ecc).1 fun p hp => hlen p (List.mem_cons_of_mem _ hp)
    have hblock := Block.encode_eq hcache hecc (hlen part List.mem_cons_self)
    refine ⟨cache', ?_, hvalid⟩
    exact (bind_of_ok hblock).trans (bind_of_ok hrun)

/-- What is true of every plan that is made for `total` codewords, `data` of them
data, in a number of blocks. -/
structure Covers (plan : BlockPlan) (total data blocks : Nat) : Prop where
  blockCount_eq : plan.blockCount = blocks
  totalLength_eq : plan.totalLength = total
  dataLength_eq : plan.dataLength = data
  ecc_pos : 0 < plan.eccPerBlock
  long_data : plan.long.data = plan.short.data + 1
  long_total : plan.long.total = plan.short.total + 1
  short_total : plan.short.total = total / blocks
  short_data : plan.short.data = data / blocks

/-- **A plan that is made covers its codewords exactly.** -/
theorem divide_eq_ok {total data blocks : Nat} {plan : BlockPlan} (h : divide total data blocks = .ok plan) :
    plan.Covers total data blocks := by
  unfold divide at h
  split at h
  · cases h
  · rename_i hblocks
    simp only at h
    split at h
    · cases h
    · rename_i hecc
      split at h
      · cases h
      · rename_i hcover
        rw [not_or, Decidable.not_not, Decidable.not_not] at hcover
        obtain rfl := Except.ok.inj h
        have hlong : total % blocks < blocks := Nat.mod_lt _ (Nat.pos_of_ne_zero hblocks)
        refine ⟨?_, hcover.1, hcover.2, ?_, rfl, rfl, rfl, rfl⟩
        · simp only [blockCount]; omega
        · simp only [eccPerBlock]; omega

section Covers

variable {plan : BlockPlan} {total data blocks : Nat}

/-- A short block is its data and its error correction codewords. -/
theorem Covers.short_total_eq (h : plan.Covers total data blocks) :
    plan.short.total = plan.short.data + plan.eccPerBlock := by
  have hecc := h.ecc_pos
  unfold eccPerBlock at hecc ⊢
  omega

/-- So is a long block, with as many error correction codewords. -/
theorem Covers.long_total_eq (h : plan.Covers total data blocks) :
    plan.long.total = plan.long.data + plan.eccPerBlock := by
  rw [h.long_total, h.long_data, h.short_total_eq, Nat.add_right_comm]

/-- The error correction codewords of all blocks are what is not data. -/
theorem Covers.ecc_mul (h : plan.Covers total data blocks) : data + plan.eccPerBlock * blocks = total := by
  rw [← h.blockCount_eq, ← h.totalLength_eq, ← h.dataLength_eq, blockCount, totalLength, dataLength,
    h.short_total_eq, h.long_total_eq]
  ring

end Covers

/-- The plan of a version at a level. -/
theorem exists_plan (v : Version) (level : Level) :
    ∃ plan, ofVersion v level = .ok plan ∧
      plan.Covers v.totalCodewords (v.dataCodewords level) (v.blockCount level) := by
  have hok := ofVersion_isOk v level
  cases hplan : ofVersion v level with
  | error e => rw [hplan] at hok; cases hok
  | ok plan => exact ⟨plan, rfl, divide_eq_ok hplan⟩

variable {v : Version} {level : Level} {plan : BlockPlan}

/-- The plan of a version protects every block as its table says. -/
theorem Covers.eccPerBlock_eq
    (h : plan.Covers v.totalCodewords (v.dataCodewords level) (v.blockCount level)) :
    plan.eccPerBlock = v.eccPerBlock level := by
  have hmul := h.ecc_mul
  rw [← v.dataCodewords_add_ecCodewords level] at hmul
  exact Nat.eq_of_mul_eq_mul_right (v.blockCount_pos level) (Nat.add_left_cancel hmul)

/-- Blocks are never longer than a word of the code may be. -/
theorem block_le (v : Version) (level : Level) :
    v.totalCodewords / v.blockCount level + 1 ≤ 255 := by
  revert v; cases level <;> decide

/-- **No block of a version is longer than `255` codewords.** -/
theorem Covers.length_le
    (h : plan.Covers v.totalCodewords (v.dataCodewords level) (v.blockCount level)) {k : Nat}
    (hk : k ∈ plan.dataLengths) : k + plan.eccPerBlock ≤ 255 := by
  have hmax := block_le v level
  rw [← h.short_total] at hmax
  rw [dataLengths, List.mem_append] at hk
  rcases hk with hk | hk
  · obtain rfl := List.eq_of_mem_replicate hk
    rw [← h.short_total_eq]
    omega
  · obtain rfl := List.eq_of_mem_replicate hk
    rw [← h.long_total_eq, h.long_total]
    exact hmax

/-- No block is without data. -/
theorem Covers.short_data_pos
    (h : plan.Covers v.totalCodewords (v.dataCodewords level) (v.blockCount level)) :
    0 < plan.short.data := by
  rw [h.short_data]
  exact Nat.div_pos (v.blockCount_le_dataCodewords level) (v.blockCount_pos level)

/-- No slice of data is too long for a block. -/
theorem Covers.slice_length_le
    (h : plan.Covers v.totalCodewords (v.dataCodewords level) (v.blockCount level)) {data : List UInt8}
    (hlen : data.length = v.dataCodewords level) :
    ∀ part ∈ slices plan.dataLengths data, part.length + plan.eccPerBlock ≤ Block.maxLength := by
  intro part hpart
  have hsum : plan.dataLengths.sum = data.length := by rw [sum_dataLengths, h.dataLength_eq, hlen]
  have hmem : part.length ∈ plan.dataLengths := by
    rw [← slices_map_length hsum]
    exact List.mem_map_of_mem hpart
  exact Nat.le_trans (h.length_le hmem) (by decide)

/-- The blocks that a plan makes of data. -/
def blocks (plan : BlockPlan) (data : List UInt8) : List Block :=
  (slices plan.dataLengths data).map (Block.ofData plan.eccPerBlock)

/-- Data of the right length is cut into slices, when no block is without data. -/
theorem cut_eq_slices {plan : BlockPlan} {data : List UInt8} (hpos : 0 < plan.short.data)
    (hlen : data.length = plan.dataLength) : plan.cut data = .ok (slices plan.dataLengths data) := by
  rw [cut, if_neg (Decidable.not_not.2 hlen), if_neg (Nat.pos_iff_ne_zero.1 hpos)]

/-- **Data of the right length is cut and protected**, block by block. -/
theorem encode_eq {cache : GeneratorCache} (hcache : cache.Valid)
    (h : plan.Covers v.totalCodewords (v.dataCodewords level) (v.blockCount level)) {data : List UInt8}
    (hlen : data.length = v.dataCodewords level) :
    ∃ cache', plan.encode data cache = .ok (plan.blocks data) cache' ∧ cache'.Valid := by
  have hcut := cut_eq_slices h.short_data_pos (hlen.trans h.dataLength_eq.symm)
  obtain ⟨cache', hrun, hvalid⟩ := encodeSlices_eq hcache h.ecc_pos (h.slice_length_le hlen)
  refine ⟨cache', ?_, hvalid⟩
  rw [blocks, ← hrun, encode, hcut]
  rfl

/-- Every block is a word of the code. -/
theorem Covers.syndromes_eq
    (h : plan.Covers v.totalCodewords (v.dataCodewords level) (v.blockCount level)) {data : List UInt8}
    {b : Block} (hb : b ∈ plan.blocks data) :
    b.syndromes = List.replicate (v.eccPerBlock level) 0 := by
  obtain ⟨part, -, rfl⟩ := List.mem_map.1 hb
  rw [Block.syndromes_ofData h.ecc_pos, h.eccPerBlock_eq]

section Blocks

variable (h : plan.Covers v.totalCodewords (v.dataCodewords level) (v.blockCount level))
  {data : List UInt8} (hlen : data.length = v.dataCodewords level)

include h hlen

/-- Data of the right length is cut without a rest. -/
theorem Covers.sum_eq : plan.dataLengths.sum = data.length := by
  rw [sum_dataLengths, h.dataLength_eq, hlen]

/-- The data of the blocks are slices of the lengths that the plan says. -/
theorem Covers.map_length_data : (plan.blocks data).map (fun b => b.data.length) = plan.dataLengths := by
  have hslices := slices_map_length (h.sum_eq hlen)
  rw [blocks, List.map_map]
  exact hslices

/-- Data is cut into as many blocks as the version has. -/
theorem Covers.length_blocks : (plan.blocks data).length = v.blockCount level := by
  have hlengths := congrArg List.length (h.map_length_data hlen)
  rw [List.length_map, length_dataLengths, h.blockCount_eq] at hlengths
  exact hlengths

/-- Every block has its share of error correction codewords. -/
theorem Covers.map_length_ecc :
    (plan.blocks data).map (fun b => b.ecc.length) =
      List.replicate (v.blockCount level) (v.eccPerBlock level) := by
  refine List.eq_replicate_iff.2 ⟨by rw [List.length_map, h.length_blocks hlen], fun k hk => ?_⟩
  obtain ⟨b, hb, rfl⟩ := List.mem_map.1 hk
  obtain ⟨part, -, rfl⟩ := List.mem_map.1 hb
  rw [Block.length_ecc_ofData h.ecc_pos, h.eccPerBlock_eq]

/-- Every block has the error correction codewords of the version. -/
theorem Covers.length_ecc {b : Block} (hb : b ∈ plan.blocks data) :
    b.ecc.length = v.eccPerBlock level := by
  have hmem := List.mem_map_of_mem (f := fun b : Block => b.ecc.length) hb
  rw [h.map_length_ecc hlen] at hmem
  exact List.eq_of_mem_replicate hmem

/-- The data of the blocks, one after the other, is the data. -/
theorem Covers.flatMap_data : (plan.blocks data).flatMap Block.data = data := by
  rw [blocks, List.flatMap_map]
  have hdata : (fun part => (Block.ofData plan.eccPerBlock part).data) = id := rfl
  rw [hdata, List.flatMap_id, slices_flatten (h.sum_eq hlen)]

/-- Interleaving keeps the number of data codewords. -/
theorem Covers.length_interleave_data :
    (interleave ((plan.blocks data).map Block.data)).length = v.dataCodewords level := by
  rw [length_interleave, List.map_map]
  show ((plan.blocks data).map fun b => b.data.length).sum = _
  rw [h.map_length_data hlen, h.sum_eq hlen, hlen]

/-- **The arranged codewords fill the symbol.** -/
theorem Covers.length_arrange : (arrange (plan.blocks data)).length = v.totalCodewords := by
  have hecc : ((plan.blocks data).map fun b => b.ecc.length).sum = v.ecCodewords level := by
    rw [h.map_length_ecc hlen, List.sum_replicate, smul_eq_mul, Nat.mul_comm]
    rfl
  rw [arrange, List.length_append, h.length_interleave_data hlen, length_interleave, List.map_map]
  show _ + ((plan.blocks data).map fun b => b.ecc.length).sum = _
  rw [hecc, v.dataCodewords_add_ecCodewords]

end Blocks

end BlockPlan

/-! ### Taking blocks apart -/

/-- Blocks are put together again from their two parts. -/
theorem zipWith_mk (blocks : List Block) :
    List.zipWith Block.mk (blocks.map Block.data) (blocks.map Block.ecc) = blocks := by
  rw [List.zipWith_map, List.zipWith_self]
  exact List.map_id blocks

/-- **Arranged blocks are recovered by their plan.** -/
theorem Reader.blocksOf_arrange {plan : BlockPlan} {blocks : List Block} {ecc : Nat}
    (hecc : plan.eccPerBlock = ecc)
    (hdata : blocks.map (fun b => b.data.length) = plan.dataLengths)
    (hcheck : blocks.map (fun b => b.ecc.length) = List.replicate plan.blockCount ecc) :
    Reader.blocksOf plan (arrange blocks) = blocks := by
  have hdata' : (blocks.map Block.data).map List.length = plan.dataLengths := by
    rw [List.map_map]; exact hdata
  have hcheck' : (blocks.map Block.ecc).map List.length = List.replicate plan.blockCount ecc := by
    rw [List.map_map]; exact hcheck
  have hlen : (interleave (blocks.map Block.data)).length = plan.dataLength := by
    rw [length_interleave, hdata', BlockPlan.sum_dataLengths]
  rw [Reader.blocksOf, arrange, List.take_left' hlen, List.drop_left' hlen, hecc, ← hdata', ← hcheck',
    deinterleave_interleave, deinterleave_interleave, zipWith_mk]

/-! ### The bits of a symbol -/

/-- **The codewords of a symbol**: the arranged blocks of its data, as bits. -/
theorem protect_eq {v : Version} {level : Level} {plan : BlockPlan}
    (hplan : BlockPlan.ofVersion v level = .ok plan) {data : List UInt8}
    (hlen : data.length = v.dataCodewords level) :
    protect v level data = ⟨.ok (BitString.empty.appendBytes (arrange (plan.blocks data))),
      [.interleaved (v.blockCount level) (v.eccPerBlock level) v.totalCodewords]⟩ := by
  have h := BlockPlan.divide_eq_ok hplan
  obtain ⟨cache', hrun, -⟩ := BlockPlan.encode_eq GeneratorCache.valid_fresh h hlen
  have hsize : (BitString.empty.appendBytes (arrange (plan.blocks data))).byteSize = v.totalCodewords := by
    rw [BitString.byteSize, BitString.length_appendBytes, h.length_arrange hlen]
    simp only [BitString.empty]
    omega
  unfold protect
  rw [hplan]
  show Traced.ofProgram (plan.encode data) .fresh >>= _ = _
  rw [Traced.ofProgram_of_ok hrun]
  simp only [Traced.ok_bind, hsize, h.blockCount_eq, h.eccPerBlock_eq, ne_eq, not_true_eq_false, if_false]
  rfl

end QRCode
