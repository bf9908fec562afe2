/-
# Bit strings under any edits

`BitStream::push_bits` over the bytes of a stream, with `BitStream::push` and
`BitStream::extend`.

Behind a bit string, a number can be written piece by piece, each laid over the byte
that has room for it (`appendPieces`), and bytes can be copied as they are
(`appendWhole`).  Nothing but zeros stands behind the last bit, so a piece that is laid
over a byte is appended (`WellFormed.layOver_eq`), and both come to the same as pushing
bit by bit:

| edit | on packed bytes | bit by bit |
| --- | --- | --- |
| a number | `appendPieces` | `appendBits` (`WellFormed.appendPieces_eq`) |
| a bit | `appendPieces` | `push` |
| whole bytes | `appendWhole` | `appendBytes` (`WellFormed.appendWhole_eq`) |

After any number of edits the bytes are the bits that were appended, filled up with
zeros (`Represents`), however the bits were cut into edits (`represents_of_edits`).
-/

import QRCode.Proofs.Bytes
import QRCode.Proofs.Checked.Blocks

namespace QRCode
namespace BitString

/-- No bits, and room set aside for some; the room does not show (`BitStream::with_capacity`). -/
def withCapacity (bits : Nat) : BitString := ⟨Array.emptyWithCapacity ((bits + 7) / 8), 0⟩

/-! ### Numbers, piece by piece -/

/-- The bytes with room for a bit in the last one. -/
def openBytes (s : BitString) : Array UInt8 := if s.length % 8 = 0 then s.bytes.push 0 else s.bytes

/-- A piece of `count` bits laid over the last byte, which has room for it. -/
def layOver (s : BitString) (piece count : Nat) : BitString :=
  let shifted := UInt8.ofNat (piece <<< (8 - s.length % 8 - count))
  ⟨s.openBytes.modify (s.openBytes.size - 1) (· ||| shifted), s.length + count⟩

/-- The lowest `size` bits of a number, in pieces that do not cross a byte boundary
(`BitStream::push_bits`). -/
def appendPieces (s : BitString) (value size : Nat) : BitString :=
  if size = 0 then s
  else
    let count := min size (8 - s.length % 8)
    (s.layOver (value >>> (size - count) % 2 ^ count) count).appendPieces value (size - count)
termination_by size
decreasing_by omega

/-- Bytes copied behind the others (`BitStream::extend`). -/
def appendWhole (s : BitString) (bytes : List UInt8) : BitString :=
  ⟨s.bytes ++ bytes.toArray, s.length + 8 * bytes.length⟩

variable {s : BitString}

/-- There is always one open byte behind the full ones. -/
theorem size_openBytes (h : s.WellFormed) : s.openBytes.size = s.length / 8 + 1 := by
  have hsize := h.size_eq
  unfold byteSize at hsize
  unfold openBytes
  split
  · rw [Array.size_push]; omega
  · omega

/-- Opening a byte adds nothing but zeros. -/
theorem getD_openBytes (s : BitString) (k : Nat) : s.openBytes.getD k 0 = s.bytes.getD k 0 := by
  unfold openBytes
  split
  · simp only [Array.getD_eq_getD_getElem?, Array.getElem?_push]
    split
    · rename_i hk
      rw [hk, Array.getElem?_eq_none (Nat.le_refl _), Option.getD_some, Option.getD_none]
    · rfl
  · rfl

/-- A piece changes the last byte, and no other. -/
theorem getD_layOver (h : s.WellFormed) (piece count k : Nat) :
    (s.layOver piece count).bytes.getD k 0 =
      if k = s.length / 8 then
        s.bytes.getD k 0 ||| UInt8.ofNat (piece <<< (8 - s.length % 8 - count))
      else s.bytes.getD k 0 := by
  have hlast : s.openBytes.size - 1 = s.length / 8 := by rw [size_openBytes h, Nat.add_sub_cancel]
  have hin : s.length / 8 < s.openBytes.size := by rw [size_openBytes h]; omega
  rw [← getD_openBytes s k, layOver, hlast]
  simp only [Array.getD_eq_getD_getElem?, Array.getElem?_modify]
  by_cases hk : k = s.length / 8
  · rw [if_pos hk.symm, if_pos hk, hk, Array.getElem?_eq_getElem hin]
    rfl
  · rw [if_neg (Ne.symm hk), if_neg hk]

/-- A piece changes the places that it takes, and no other: before them it is zero, and
behind them it ends. -/
theorem bitAt_layOver (h : s.WellFormed) {piece count : Nat} (hcount : count ≤ 8 - s.length % 8)
    (hpiece : piece < 2 ^ count) (i : Nat) :
    (s.layOver piece count).bitAt i =
      if s.length ≤ i ∧ i < s.length + count then piece.testBit (s.length + count - 1 - i)
      else s.bitAt i := by
  have hlt : piece <<< (8 - s.length % 8 - count) < 256 := by
    have hpow : 2 ^ count * 2 ^ (8 - s.length % 8 - count) ≤ 2 ^ 8 := by
      rw [← Nat.pow_add]
      exact Nat.pow_le_pow_right (by decide) (by omega)
    rw [Nat.shiftLeft_eq]
    exact Nat.lt_of_lt_of_le (Nat.mul_lt_mul_of_pos_right hpiece (Nat.two_pow_pos _)) hpow
  unfold bitAt
  rw [getD_layOver h]
  by_cases hi : i / 8 = s.length / 8
  · have hpad : s.length ≤ i → (s.bytes.getD (i / 8) 0).toNat.testBit (7 - i % 8) = false := h.padding i
    rw [if_pos hi, UInt8.toNat_or, Nat.testBit_or, UInt8.toNat_ofNat', Nat.mod_eq_of_lt hlt,
      Nat.testBit_shiftLeft]
    by_cases hin : s.length ≤ i ∧ i < s.length + count
    · have hplace : 7 - i % 8 - (8 - s.length % 8 - count) = s.length + count - 1 - i := by omega
      rw [if_pos hin, hpad hin.1, hplace, decide_eq_true (by omega), Bool.true_and, Bool.false_or]
    · rw [if_neg hin]
      by_cases hbefore : i < s.length
      · have hzero : piece.testBit (7 - i % 8 - (8 - s.length % 8 - count)) = false :=
          Nat.testBit_lt_two_pow (Nat.lt_of_lt_of_le hpiece (Nat.pow_le_pow_right (by decide) (by omega)))
        rw [hzero, Bool.and_false, Bool.or_false]
      · rw [decide_eq_false (by omega), Bool.false_and, Bool.or_false]
  · rw [if_neg hi, if_neg (by omega)]

/-- The bits of a number by their places. -/
theorem bitsOf_eq_map (value size : Nat) :
    bitsOf value size = (List.range size).map fun j => value.testBit (size - 1 - j) := by
  induction size with
  | zero => rfl
  | succ size ih =>
    rw [bitsOf, ih, List.range_succ_eq_map, List.map_cons, List.map_map]
    congr 1
    refine List.map_congr_left fun j _ => ?_
    have hplace : size + 1 - 1 - (j + 1) = size - 1 - j := by omega
    rw [Function.comp_apply, hplace]

/-- The bits of a number are its highest ones, then the rest. -/
theorem bitsOf_split (value : Nat) {count size : Nat} (h : count ≤ size) :
    bitsOf value size = bitsOf (value >>> (size - count) % 2 ^ count) count ++ bitsOf value (size - count) := by
  obtain ⟨rest, rfl⟩ := Nat.exists_eq_add_of_le h
  rw [Nat.add_sub_cancel_left]
  simp only [bitsOf_eq_map, List.range_add, List.map_append, List.map_map]
  congr 1
  · refine List.map_congr_left fun j hj => ?_
    have hj := List.mem_range.1 hj
    have hplace : rest + (count - 1 - j) = count + rest - 1 - j := by omega
    rw [Nat.testBit_mod_two_pow, decide_eq_true (by omega), Bool.true_and, Nat.testBit_shiftRight, hplace]
  · refine List.map_congr_left fun j hj => ?_
    have hplace : count + rest - 1 - (count + j) = rest - 1 - j := by omega
    rw [Function.comp_apply, hplace]

/-- **A piece that fits in the last byte is appended.** -/
theorem WellFormed.layOver_eq (h : s.WellFormed) {piece count : Nat} (hpos : 0 < count)
    (hcount : count ≤ 8 - s.length % 8) (hpiece : piece < 2 ^ count) :
    s.layOver piece count = s.appendBits piece count := by
  have hbit := bitAt_layOver h hcount hpiece
  refine WellFormed.ext ⟨?_, fun i hi => ?_⟩ (h.appendBits _ _) ?_
  · have hsize := size_openBytes h
    simp only [layOver, byteSize, Array.size_modify]
    omega
  · have hi : s.length + count ≤ i := hi
    rw [hbit, if_neg (by omega), h.padding i (by omega)]
  · have hlen : (s.layOver piece count).length = s.length + count := rfl
    rw [toBits_appendBits h, bitsOf_eq_map, toBits, toBits, hlen, List.range_add, List.map_append, List.map_map]
    congr 1
    · refine List.map_congr_left fun i hi => ?_
      have hi := List.mem_range.1 hi
      rw [hbit, if_neg (by omega)]
    · refine List.map_congr_left fun j hj => ?_
      have hj := List.mem_range.1 hj
      have hplace : s.length + count - 1 - (s.length + j) = count - 1 - j := by omega
      rw [Function.comp_apply, hbit, if_pos (by omega), hplace]

/-- **Pieces come to the same as bits one by one.** -/
theorem WellFormed.appendPieces_eq (h : s.WellFormed) (value size : Nat) :
    s.appendPieces value size = s.appendBits value size := by
  induction size using Nat.strong_induction_on generalizing s with
  | _ size ih =>
    rw [appendPieces]
    split
    · rename_i hzero
      rw [hzero]
      rfl
    · rename_i hsize
      dsimp only
      generalize hcount : min size (8 - s.length % 8) = count
      have hpos : 0 < count := by omega
      rw [h.layOver_eq hpos (by omega) (Nat.mod_lt _ (Nat.two_pow_pos _)),
        ih (size - count) (by omega) (h.appendBits _ _)]
      refine WellFormed.ext ((h.appendBits _ _).appendBits _ _) (h.appendBits _ _) ?_
      rw [toBits_appendBits (h.appendBits _ _), toBits_appendBits h, toBits_appendBits h, List.append_assoc,
        ← bitsOf_split value (by omega)]

/-- **Whole bytes come to the same as their bits**, behind whole bytes. -/
theorem WellFormed.appendWhole_eq (h : s.WellFormed) (ha : s.isAligned = true) (bytes : List UInt8) :
    s.appendWhole bytes = s.appendBytes bytes := by
  have hbytes := bytes_appendBytes h (by simpa [isAligned] using ha) bytes
  have hlen := length_appendBytes s bytes
  generalize s.appendBytes bytes = t at hbytes hlen
  obtain ⟨tb, tl⟩ := t
  have htb : s.bytes ++ bytes.toArray = tb := by
    refine Array.toList_inj.1 ?_
    rw [hbytes, Array.toList_append]
  rw [appendWhole, htb, ← hlen]

/-! ### What a bit string represents -/

/-- A bit string is a list of bits: as read, and as packed. -/
structure Represents (s : BitString) (bits : List Bool) : Prop where
  toBits_eq : s.toBits = bits
  length_eq : s.length = bits.length
  size_eq : s.bytes.size = (bits.length + 7) / 8
  /-- The bytes are the bits, filled up with zeros. -/
  bytes_eq : s.bytes.toList.flatMap byteBits =
    bits ++ List.replicate (8 * s.bytes.size - bits.length) false
  /-- The low places of the last byte that no bit takes are zero. -/
  unused_eq : ∀ last, s.bytes.back? = some last → last.toNat % 2 ^ (8 * s.bytes.size - bits.length) = 0
  /-- A bit is read at each place before the end, and at no other. -/
  bit?_eq : ∀ i, s.bit? i = bits[i]?

/-- The bytes of a bit string are its bits, filled up with zeros. -/
theorem WellFormed.flatMap_bytes (h : s.WellFormed) :
    s.bytes.toList.flatMap byteBits =
      s.toBits ++ List.replicate (8 * s.bytes.size - s.length) false := by
  have hsize := h.size_eq
  unfold byteSize at hsize
  -- the same bytes, all their places counted
  have hfull : (⟨s.bytes, 8 * s.bytes.size⟩ : BitString).WellFormed := by
    refine ⟨?_, fun i hi => h.padding i ?_⟩
    · simp only [byteSize]; omega
    · simp only at hi; omega
  have hbits := toBits_eq_flatMap_bytes hfull (Nat.mul_mod_right 8 _)
  obtain ⟨zeros, hzeros⟩ := Nat.exists_eq_add_of_le (by omega : s.length ≤ 8 * s.bytes.size)
  rw [← hbits, toBits, toBits, hzeros, List.range_add, List.map_append, List.map_map, Nat.add_sub_cancel_left]
  congr 1
  refine List.eq_replicate_iff.2 ⟨by rw [List.length_map, List.length_range], fun b hb => ?_⟩
  obtain ⟨j, -, rfl⟩ := List.mem_map.1 hb
  exact h.padding _ (Nat.le_add_right _ _)

/-- What is unused of the last byte is zero. -/
theorem WellFormed.unused_eq (h : s.WellFormed) {last : UInt8} (hlast : s.bytes.back? = some last) :
    last.toNat % 2 ^ (8 * s.bytes.size - s.length) = 0 := by
  have hsize := h.size_eq
  unfold byteSize at hsize
  rw [Array.back?_eq_getElem?] at hlast
  obtain ⟨hlt, rfl⟩ := Array.getElem?_eq_some_iff.1 hlast
  refine Nat.eq_of_testBit_eq fun j => ?_
  rw [Nat.testBit_mod_two_pow, Nat.zero_testBit, Bool.and_eq_false_iff, decide_eq_false_iff_not]
  by_cases hj : j < 8 * s.bytes.size - s.length
  · right
    rw [testBit_byte s hlt (by omega), h.padding _ (by omega)]
  · exact .inl hj

/-- **A well-formed bit string represents its bits.** -/
theorem WellFormed.represents (h : s.WellFormed) : s.Represents s.toBits where
  toBits_eq := rfl
  length_eq := s.length_toBits.symm
  size_eq := by rw [length_toBits]; exact h.size_eq
  bytes_eq := by rw [length_toBits]; exact h.flatMap_bytes
  unused_eq last hlast := by rw [length_toBits]; exact h.unused_eq hlast
  bit?_eq := bit?_eq s

/-! ### Edits -/

/-- An edit appends to a bit string. -/
inductive Edit where
  | number (value size : Nat)
  | bit (bit : Bool)
  | bytes (bytes : List UInt8)

namespace Edit

/-- The bits that an edit appends, highest first. -/
def bits : Edit → List Bool
  | number value size => bitsOf value size
  | bit b => [b]
  | bytes bs => bs.flatMap byteBits

/-- What an edit asks for: at most 32 bits that hold the number, and whole bytes before
whole bytes. -/
def Allowed (s : BitString) : Edit → Prop
  | number value size => size ≤ 32 ∧ value < 2 ^ size
  | bit _ => True
  | bytes _ => s.isAligned = true

/-- A bit string after an edit. -/
def apply (s : BitString) : Edit → BitString
  | number value size => s.appendBits value size
  | bit b => s.push b
  | bytes bs => s.appendBytes bs

/-- An edit of the packed bytes, with what it asks for tested first. -/
def packed (s : BitString) : Edit → Checked BitString
  | number value size => do
    Checked.require (size ≤ 32) (.wide size)
    Checked.require (value < 2 ^ size) (.long value size)
    return s.appendPieces value size
  | bit b => return s.appendPieces b.toNat 1
  | bytes bs => do
    Checked.require (s.isAligned = true) .unaligned
    return s.appendWhole bs

/-- Whether edits one after the other all find what they ask for. -/
def AllAllowed (s : BitString) : List Edit → Prop
  | [] => True
  | e :: rest => e.Allowed s ∧ AllAllowed (e.apply s) rest

instance (s : BitString) : DecidablePred (Allowed s)
  | number value size => inferInstanceAs (Decidable (size ≤ 32 ∧ value < 2 ^ size))
  | bit _ => inferInstanceAs (Decidable True)
  | bytes _ => inferInstanceAs (Decidable (s.isAligned = true))

instance decidableAllAllowed : ∀ (s : BitString) (edits : List Edit), Decidable (AllAllowed s edits)
  | _, [] => inferInstanceAs (Decidable True)
  | s, e :: rest =>
    have := decidableAllAllowed (e.apply s) rest
    inferInstanceAs (Decidable (e.Allowed s ∧ AllAllowed (e.apply s) rest))

variable {e : Edit} {edits : List Edit}

/-- An edit keeps a bit string well-formed. -/
theorem wellFormed_apply (h : s.WellFormed) (e : Edit) : (e.apply s).WellFormed := by
  cases e with
  | number value size => exact h.appendBits value size
  | bit b => exact h.push b
  | bytes bs => exact h.appendBytes bs

/-- **An edit appends its bits.** -/
theorem toBits_apply (h : s.WellFormed) (e : Edit) : (e.apply s).toBits = s.toBits ++ e.bits := by
  cases e with
  | number value size => exact toBits_appendBits h value size
  | bit b => exact toBits_push h b
  | bytes bs => exact toBits_appendBytes h bs

/-- **An allowed edit of packed bytes** fails no test, and appends the same. -/
theorem packed_eq (h : s.WellFormed) (hallowed : e.Allowed s) : e.packed s = pure (e.apply s) := by
  cases e with
  | number value size =>
    rw [packed, Checked.require_eq hallowed.1, pure_bind, Checked.require_eq hallowed.2, pure_bind,
      h.appendPieces_eq]
    rfl
  | bit b =>
    rw [packed, h.appendPieces_eq]
    cases b <;> rfl
  | bytes bs =>
    have haligned : s.isAligned = true := hallowed
    rw [packed, Checked.require_eq haligned, pure_bind, h.appendWhole_eq haligned]
    rfl

/-- So do any number of edits. -/
theorem wellFormed_foldl (h : s.WellFormed) (edits : List Edit) : (edits.foldl apply s).WellFormed := by
  induction edits generalizing s with
  | nil => exact h
  | cons e edits ih => exact ih (wellFormed_apply h e)

/-- **Edits append their bits**, one after the other. -/
theorem toBits_foldl (h : s.WellFormed) (edits : List Edit) :
    (edits.foldl apply s).toBits = s.toBits ++ edits.flatMap bits := by
  induction edits generalizing s with
  | nil => exact (List.append_nil _).symm
  | cons e edits ih =>
    rw [List.foldl_cons, ih (wellFormed_apply h e), toBits_apply h, List.flatMap_cons, List.append_assoc]

/-- **Allowed edits of the packed bytes have no faults**, and come to the same as pushing bit by
bit. -/
theorem foldlM_packed (h : s.WellFormed) (hallowed : AllAllowed s edits) :
    edits.foldlM packed s = pure (edits.foldl apply s) := by
  induction edits generalizing s with
  | nil => rfl
  | cons e edits ih =>
    rw [List.foldlM_cons, packed_eq h hallowed.1, pure_bind, ih (wellFormed_apply h e) hallowed.2,
      List.foldl_cons]

end Edit

/-- A bit string to begin with, whether or not room is set aside. -/
def IsFresh (s : BitString) : Prop := s = empty ∨ ∃ capacity, s = withCapacity capacity

/-- Room that is set aside does not show. -/
theorem IsFresh.eq_empty (h : s.IsFresh) : s = empty := by
  rcases h with rfl | ⟨capacity, rfl⟩ <;> rfl

/-- **A bit string is what was appended to it.**  Allowed edits fail no test; done piece by
piece on packed bytes they give the bit string that represents their bits.  So edits that
append the same bits give the same bit string, however the bits are cut. -/
theorem represents_of_edits {edits : List Edit} (hs : s.IsFresh) (h : Edit.AllAllowed s edits) :
    edits.foldlM Edit.packed s = pure (edits.foldl Edit.apply s) ∧
    (edits.foldl Edit.apply s).Represents (edits.flatMap Edit.bits) ∧
    ∀ (t : BitString) (edits' : List Edit), t.IsFresh → Edit.AllAllowed t edits' →
      edits'.flatMap Edit.bits = edits.flatMap Edit.bits →
      edits'.foldl Edit.apply t = edits.foldl Edit.apply s := by
  obtain rfl := hs.eq_empty
  have hwf := Edit.wellFormed_foldl wellFormed_empty edits
  have hbits := Edit.toBits_foldl wellFormed_empty edits
  refine ⟨Edit.foldlM_packed wellFormed_empty h, ?_, ?_⟩
  · have hrepresents := hwf.represents
    rwa [hbits] at hrepresents
  · intro t edits' ht _ hsame
    obtain rfl := ht.eq_empty
    refine WellFormed.ext (Edit.wellFormed_foldl wellFormed_empty edits') hwf ?_
    rw [hbits, Edit.toBits_foldl wellFormed_empty, hsame]

/-- Three bits, five bits and two bytes are the same as one number of 24 bits. -/
theorem represents_of_edits_recut :
    ([.number 0b101 3, .number 0b11101 5, .bytes [0xBE, 0xEF]].foldl Edit.apply empty).Represents
      (bitsOf 0xBDBEEF 24) ∧
    [.number 0xBDBEEF 24].foldl Edit.apply (withCapacity 100) =
      [.number 0b101 3, .number 0b11101 5, .bytes [0xBE, 0xEF]].foldl Edit.apply empty := by
  have hsame : [Edit.number 0xBDBEEF 24].flatMap Edit.bits =
      [Edit.number 0b101 3, .number 0b11101 5, .bytes [0xBE, 0xEF]].flatMap Edit.bits := by decide
  have hallowed : Edit.AllAllowed empty [.number 0b101 3, .number 0b11101 5, .bytes [0xBE, 0xEF]] := by decide
  obtain ⟨-, hrepresents, hrecut⟩ := represents_of_edits (.inl rfl) hallowed
  refine ⟨?_, hrecut _ _ (.inr ⟨100, rfl⟩) (by decide) hsame⟩
  rwa [← hsame] at hrepresents

end BitString
end QRCode
