/-
# Cutting data into blocks

`BlockLayout::blockify`, `Block::new`, and `BlockLayout::encode` with an encoder in any state.

A plan cuts data in two regions, which end where the short blocks end: each region is cut into
pieces of one size, and as both are filled exactly, no piece is shorter than the others
(`BlockPlan.cut_eq_chunks`).  Every piece is then given to an encoder, which may have been
called before.  The pieces are encoded by one call each (`BlockPlan.encodeSlices_served`) until
one of them is too long for a block (`BlockPlan.encodeSlices_refused`), which can only be so
when the longest block of the plan is (`BlockPlan.forall_length_le_iff`).

A block is kept in a buffer of fixed size, first the data, then the error correction
codewords; both are read back from there (`Block.buffer_eq`).
-/

import QRCode.Proofs.EncoderCalls
import QRCode.Proofs.EvenShares
import QRCode.Segment

namespace QRCode

open ReedSolomon (Call)

/-! ### Slices and chunks -/

section Slices

variable {α : Type}

/-- The lengths of a front and of the rest cut a list into a front and the rest. -/
theorem slices_append (front rest : List Nat) (xs : List α) :
    slices (front ++ rest) xs = slices front (xs.take front.sum) ++ slices rest (xs.drop front.sum) := by
  induction front generalizing xs with
  | nil => simp [slices]
  | cons k front ih =>
    have htake : (xs.take (k + front.sum)).take k = xs.take k := by
      rw [List.take_take, Nat.min_eq_left (Nat.le_add_right k front.sum)]
    have hdrop : (xs.take (k + front.sum)).drop k = (xs.drop k).take front.sum := by
      rw [List.drop_take, Nat.add_sub_cancel_left]
    rw [List.cons_append, slices, ih, List.sum_cons, slices, htake, hdrop, List.drop_drop, List.cons_append]

/-- **Chunks of a list that they fill** are slices of one length. -/
theorem chunks_eq_slices {size count : Nat} (hsize : 0 < size) {xs : List α}
    (hlen : xs.length = count * size) : chunks size xs = slices (List.replicate count size) xs := by
  obtain ⟨k, rfl⟩ := Nat.exists_eq_add_of_le' hsize
  induction count generalizing xs with
  | zero =>
    obtain rfl := List.eq_nil_of_length_eq_zero (by rwa [Nat.zero_mul] at hlen)
    rw [chunks]
    rfl
  | succ count ih =>
    rw [Nat.succ_mul] at hlen
    cases xs with
    | nil => rw [List.length_nil] at hlen; omega
    | cons x xs =>
      rw [List.length_cons] at hlen
      rw [chunks, Nat.add_sub_cancel, ih (by rw [List.length_drop]; omega), List.replicate_succ, slices,
        List.take_succ_cons, List.drop_succ_cons]

end Slices

/-! ### Blocks in a buffer -/

/-- A buffer with some bytes copied to a place. -/
def copyTo (start : Nat) (bytes buffer : List UInt8) : List UInt8 :=
  buffer.take start ++ bytes ++ buffer.drop (start + bytes.length)

namespace Block

variable {b : Block} {ecc length : Nat} {data : List UInt8} {cache : GeneratorCache}

/-- A block in a buffer for the longest block: data copied to its front, and the error correction
codewords behind them (`Block::new`). -/
def buffer (b : Block) : List UInt8 :=
  copyTo b.data.length b.ecc (copyTo 0 b.data (List.replicate maxLength 0))

/-- **A buffer holds the codewords of a block**, and zeros behind them. -/
theorem buffer_eq (h : b.length ≤ maxLength) :
    b.buffer = b.data ++ b.ecc ++ List.replicate (maxLength - b.length) 0 := by
  unfold length at h ⊢
  have hfront : copyTo 0 b.data (List.replicate maxLength 0) =
      b.data ++ List.replicate (maxLength - b.data.length) 0 := by
    rw [copyTo, List.take_zero, List.nil_append, Nat.zero_add, List.drop_replicate]
  rw [buffer, hfront, copyTo, List.take_left, List.drop_append, List.drop_replicate,
    List.drop_eq_nil_of_le (Nat.le_add_right _ _), List.nil_append]
  congr 2
  omega

/-- A block that is intact: it has so many error correction codewords, no syndromes, and a
place in a buffer from which it is read back. -/
structure Intact (ecc : Nat) (b : Block) : Prop where
  length_ecc : b.ecc.length = ecc
  syndromes_eq : ReedSolomon.syndromes (GF256.ofBytes (b.data ++ b.ecc)) ecc = List.replicate ecc 0
  length_buffer : b.buffer.length = 256
  data_eq : b.buffer.take b.data.length = b.data
  ecc_eq : (b.buffer.take (b.data.length + ecc)).drop b.data.length = b.ecc

/-- **Data and their remainder are an intact block**, unless they are too long. -/
theorem intact_ofData (hecc : 0 < ecc) (hroom : data.length + ecc ≤ maxLength) :
    Intact ecc (ofData ecc data) := by
  have hlen := length_ecc_ofData hecc data
  have hblock : (ofData ecc data).length = data.length + ecc := congrArg (data.length + ·) hlen
  have hbuffer := buffer_eq (hblock.trans_le hroom)
  have hcodewords : ((ofData ecc data).data ++ (ofData ecc data).ecc).length =
      (ofData ecc data).data.length + ecc := by
    rw [List.length_append, hlen]
  refine ⟨hlen, ReedSolomon.isCodeword_iff.1 (ReedSolomon.isCodeword_ofData hecc data), ?_, ?_, ?_⟩
  · rw [hbuffer, List.length_append, hcodewords, List.length_replicate, hblock]
    exact Nat.add_sub_cancel' hroom
  · rw [hbuffer, List.append_assoc]
    exact List.take_left
  · rw [hbuffer, List.take_left' hcodewords]
    exact List.drop_left

/-- A block that is short enough is encoded by one call. -/
theorem encode_served (hcache : cache.Valid) (hecc : 0 < ecc) (hroom : data.length + ecc ≤ maxLength) :
    Block.encode data (data.length + ecc) cache =
      .ok (ofData ecc data) (Call.left (.encode (GF256.ofBytes data) ecc) cache) := by
  rw [Call.left_eq hcache]
  exact encode_eq hcache hecc hroom

/-- A block that would be too long is refused before anything is encoded. -/
theorem encode_tooLong (h : maxLength < length) (data : List UInt8) (cache : GeneratorCache) :
    Block.encode data length cache = .error (.malformed .blockWithoutRoom) cache := by
  unfold Block.encode
  rw [if_pos (.inl h)]
  rfl

end Block

namespace BlockPlan

variable {plan : BlockPlan} {total data blocks ecc : Nat} {bytes : List UInt8} {cache : GeneratorCache}

/-! ### Cutting -/

/-- **Data are cut in two regions**, each of them into chunks of one size. -/
theorem cut_eq_chunks (h : plan.Covers total data blocks) (hpos : 0 < plan.short.data)
    (hlen : bytes.length = plan.dataLength) :
    plan.cut bytes = .ok (chunks plan.short.data (bytes.take (plan.short.count * plan.short.data)) ++
      chunks plan.long.data (bytes.drop (plan.short.count * plan.short.data))) := by
  have hlong : 0 < plan.long.data := by rw [h.long_data]; omega
  have hsum : (List.replicate plan.short.count plan.short.data).sum =
      plan.short.count * plan.short.data := by simp
  have hfront : (bytes.take (plan.short.count * plan.short.data)).length =
      plan.short.count * plan.short.data := by
    rw [List.length_take, hlen, dataLength, Nat.min_eq_left (Nat.le_add_right _ _)]
  have hrest : (bytes.drop (plan.short.count * plan.short.data)).length =
      plan.long.count * plan.long.data := by
    rw [List.length_drop, hlen, dataLength, Nat.add_sub_cancel_left]
  rw [cut_eq_slices hpos hlen, dataLengths, slices_append, hsum, chunks_eq_slices hpos hfront,
    chunks_eq_slices hlong hrest]

/-! ### Encoding the pieces -/

/-- The codewords of the longest block. -/
def longestBlock (plan : BlockPlan) : Nat :=
  if plan.long.count = 0 then plan.short.total else plan.long.total

/-- **The longest block** says whether all blocks are short enough. -/
theorem forall_length_le_iff (h : plan.Covers total data blocks) (hcount : 0 < plan.short.count)
    (limit : Nat) :
    (∀ k ∈ plan.dataLengths, k + plan.eccPerBlock ≤ limit) ↔ plan.longestBlock ≤ limit := by
  have htotal := h.long_total
  simp only [dataLengths, List.mem_append, List.mem_replicate, longestBlock]
  constructor
  · intro hall
    split_ifs with hnone
    · exact h.short_total_eq.trans_le (hall _ (.inl ⟨hcount.ne', rfl⟩))
    · exact h.long_total_eq.trans_le (hall _ (.inr ⟨hnone, rfl⟩))
  · rintro hle k (⟨-, rfl⟩ | ⟨hsome, rfl⟩)
    · rw [← h.short_total_eq]
      split_ifs at hle <;> omega
    · rwa [if_neg hsome, h.long_total_eq] at hle

/-- The calls by which pieces are encoded, one for each. -/
def calls (ecc : Nat) (parts : List (List UInt8)) : List Call :=
  parts.map fun part => .encode (GF256.ofBytes part) ecc

/-- **Pieces that are all short enough** are made into blocks, by one call each. -/
theorem encodeSlices_served (hcache : cache.Valid) (hecc : 0 < ecc) {parts : List (List UInt8)}
    (hroom : ∀ part ∈ parts, part.length + ecc ≤ Block.maxLength) :
    encodeSlices ecc parts cache =
      .ok (parts.map (Block.ofData ecc)) (cache.after (calls ecc parts)) := by
  induction parts generalizing cache with
  | nil => rfl
  | cons part parts ih =>
    have hblock := Block.encode_served hcache hecc (hroom part List.mem_cons_self)
    have hrest := ih (hcache.left (.encode (GF256.ofBytes part) ecc)) fun p hp =>
      hroom p (List.mem_cons_of_mem _ hp)
    exact (bind_of_ok hblock).trans (bind_of_ok hrest)

/-- **The first piece that is too long** ends the encoding, after the calls for those before it. -/
theorem encodeSlices_refused (hcache : cache.Valid) (hecc : 0 < ecc) {parts : List (List UInt8)}
    (hlong : ∃ part ∈ parts, Block.maxLength < part.length + ecc) :
    ∃ front, encodeSlices ecc parts cache =
      .error (.malformed .blockWithoutRoom) (cache.after (calls ecc front)) := by
  induction parts generalizing cache with
  | nil =>
    obtain ⟨part, hmem, -⟩ := hlong
    cases hmem
  | cons part parts ih =>
    by_cases hroom : part.length + ecc ≤ Block.maxLength
    · have hblock := Block.encode_served hcache hecc hroom
      have hrest : ∃ p ∈ parts, Block.maxLength < p.length + ecc :=
        ((List.exists_mem_cons_iff ..).1 hlong).resolve_left (Nat.not_lt.2 hroom)
      obtain ⟨front, hrun⟩ := ih (hcache.left (.encode (GF256.ofBytes part) ecc)) hrest
      exact ⟨part :: front, (bind_of_ok hblock).trans (bind_of_error hrun)⟩
    · exact ⟨[], bind_of_error (Block.encode_tooLong (Nat.lt_of_not_le hroom) part cache)⟩

/-- Data that are cut are encoded piece by piece. -/
theorem encode_of_cut {parts : List (List UInt8)} (h : plan.cut bytes = .ok parts) :
    plan.encode bytes cache = encodeSlices plan.eccPerBlock parts cache := by
  rw [encode, h]
  rfl

/-- Data that are not cut do not reach an encoder. -/
theorem encode_of_uncut {e : Error} (h : plan.cut bytes = .error e) :
    plan.encode bytes cache = .error e cache := by
  rw [encode, h]
  rfl

/-! ### What becomes of data -/

/-- **Data are cut into blocks and protected**, for every plan whose short blocks have data, and
whatever the encoder was called for before.  Data of another length than that of the plan are
refused.  All others are cut into as many pieces as there are blocks, one behind the other and
the short ones first; these are the chunks of two regions.  If the longest block has at most
`256` codewords, the pieces are the data of as many intact blocks with the error correction
codewords of the plan.  Otherwise they are refused as malformed. -/
theorem cuts_and_protects (hplan : divide total data blocks = .ok plan) (hpos : 0 < plan.short.data)
    (served : List Call) (bytes : List UInt8) :
    (bytes.length ≠ plan.dataLength →
      plan.cut bytes = .error (.malformed .dataLength) ∧
      plan.encode bytes (.after .fresh served) =
        .error (.malformed .dataLength) (.after .fresh served)) ∧
    (bytes.length = plan.dataLength → ∃ parts : List (List UInt8),
      plan.cut bytes = .ok parts ∧ parts.length = plan.blockCount ∧ parts.flatten = bytes ∧
      parts.map List.length = List.replicate plan.short.count plan.short.data ++
        List.replicate plan.long.count (plan.short.data + 1) ∧
      parts = chunks plan.short.data (bytes.take (plan.short.count * plan.short.data)) ++
        chunks plan.long.data (bytes.drop (plan.short.count * plan.short.data)) ∧
      (256 < plan.longestBlock → ∃ more, plan.encode bytes (.after .fresh served) =
        .error (.malformed .blockWithoutRoom) (.after .fresh (served ++ more))) ∧
      (plan.longestBlock ≤ 256 → ∃ made, plan.encode bytes (.after .fresh served) =
          .ok made (.after .fresh (served ++ calls plan.eccPerBlock parts)) ∧
        made.map Block.data = parts ∧ ∀ b ∈ made, b.Intact plan.eccPerBlock)) := by
  have h := divide_eq_ok hplan
  have hcache := GeneratorCache.valid_fresh.after served
  constructor
  · intro hlen
    have hcut : plan.cut bytes = .error (.malformed .dataLength) := by rw [cut, if_pos hlen]
    exact ⟨hcut, encode_of_uncut hcut⟩
  · intro hlen
    have hcut := cut_eq_slices hpos hlen
    have hsum : plan.dataLengths.sum = bytes.length := by rw [sum_dataLengths, hlen]
    have hlengths := slices_map_length hsum
    have hroom := forall_length_le_iff h (short_count_pos hplan) Block.maxLength
    rw [← hlengths, List.forall_mem_map] at hroom
    refine ⟨_, hcut, ?_, slices_flatten hsum, ?_, ?_, fun hlong => ?_, fun hshort => ?_⟩
    · have hcount := congrArg List.length hlengths
      rwa [List.length_map, length_dataLengths] at hcount
    · rw [hlengths, dataLengths, h.long_data]
    · exact Except.ok.inj (hcut.symm.trans (cut_eq_chunks h hpos hlen))
    · have hsome : ∃ part ∈ slices plan.dataLengths bytes, Block.maxLength < part.length + plan.eccPerBlock := by
        by_contra hnone
        refine absurd (hroom.1 fun part hpart => ?_) (Nat.not_le.2 hlong)
        exact Nat.le_of_not_lt fun hlt => hnone ⟨part, hpart, hlt⟩
      obtain ⟨front, hrun⟩ := encodeSlices_refused hcache h.ecc_pos hsome
      exact ⟨calls plan.eccPerBlock front, by rw [encode_of_cut hcut, hrun, GeneratorCache.after_append]⟩
    · have hall := hroom.2 hshort
      refine ⟨(slices plan.dataLengths bytes).map (Block.ofData plan.eccPerBlock), ?_, ?_, ?_⟩
      · rw [encode_of_cut hcut, encodeSlices_served hcache h.ecc_pos hall, GeneratorCache.after_append]
      · rw [List.map_map]
        exact List.map_id _
      · intro b hb
        obtain ⟨part, hpart, rfl⟩ := List.mem_map.1 hb
        exact Block.intact_ofData h.ecc_pos (hall part hpart)

/-- A plan that is in no table, and an encoder that was asked for another generator before. -/
theorem cuts_and_protects_eleven :
    ∃ made, BlockPlan.encode ⟨⟨1, 5, 2⟩, ⟨1, 6, 3⟩⟩ [1, 2, 3, 4, 5] (.after .fresh [.generator 7]) =
        .ok made (.after .fresh [.generator 7, .encode [⟨1⟩, ⟨2⟩] 3, .encode [⟨3⟩, ⟨4⟩, ⟨5⟩] 3]) ∧
      made.map Block.data = [[1, 2], [3, 4, 5]] ∧ ∀ b ∈ made, b.Intact 3 := by
  have hplan : divide 11 5 2 = .ok ⟨⟨1, 5, 2⟩, ⟨1, 6, 3⟩⟩ := by decide
  obtain ⟨-, hcut⟩ := cuts_and_protects hplan (by decide) [.generator 7] [1, 2, 3, 4, 5]
  obtain ⟨parts, hparts, -, -, -, -, -, hmade⟩ := hcut rfl
  obtain rfl : [[1, 2], [3, 4, 5]] = parts := Except.ok.inj hparts
  exact hmade (by decide)

end BlockPlan
end QRCode
