/-
# Bit strings that fill their bytes

A bit string whose length is a multiple of eight is a list of bytes, and the two
views agree: its bits are those of its bytes (`BitString.toBits_eq_flatMap_bytes`),
appending bytes to it appends to the bytes (`BitString.bytes_appendBytes`), and a
reader that cuts bits into eights gets the bytes back (`Reader.bytesOf_flatMap_byteBits`).
-/

import QRCode.Reader
import QRCode.Settings

namespace QRCode

/-- A byte has eight bits. -/
theorem length_byteBits (b : UInt8) : (byteBits b).length = 8 := BitString.length_bitsOf _ _

/-- The bits of a byte spell its value. -/
theorem numberOf_byteBits (b : UInt8) : numberOf (byteBits b) = b.toNat := by
  rw [byteBits, numberOf_bitsOf, Nat.mod_eq_of_lt b.toNat_lt]

/-- Bytes have eight bits each. -/
theorem length_flatMap_byteBits (bytes : List UInt8) :
    (bytes.flatMap byteBits).length = 8 * bytes.length := by
  induction bytes with
  | nil => rfl
  | cons b bytes ih =>
    rw [List.flatMap_cons, List.length_append, ih, length_byteBits, List.length_cons]
    omega

/-- The first piece of a list that begins with a whole one. -/
theorem chunks_append {α : Type} {xs : List α} (hxs : xs ≠ []) (ys : List α) :
    chunks xs.length (xs ++ ys) = xs :: chunks xs.length ys := by
  cases xs with
  | nil => exact absurd rfl hxs
  | cons x xs =>
    rw [List.cons_append, chunks, List.length_cons, Nat.add_sub_cancel, List.take_left,
      List.drop_left]

/-! ### Bytes of a bit string -/

namespace BitString

/-- The eight bits of a byte behind whole bytes are that byte. -/
theorem appendBits_byte {s : BitString} (h : s.WellFormed) (ha : s.length % 8 = 0) (b : UInt8) :
    s.appendBits b.toNat 8 = ⟨s.bytes.push b, s.length + 8⟩ := by
  have hsize := h.size_eq
  unfold byteSize at hsize
  have hold : ∀ i < s.length, (⟨s.bytes.push b, s.length + 8⟩ : BitString).bitAt i = s.bitAt i := by
    intro i hi
    have hne : i / 8 ≠ s.bytes.size := by omega
    simp only [bitAt, Array.getD_eq_getD_getElem?, Array.getElem?_push, if_neg hne]
  have hnew : ∀ j < 8, (⟨s.bytes.push b, s.length + 8⟩ : BitString).bitAt (s.length + j) =
      b.toNat.testBit (7 - j) := by
    intro j hj
    have hdiv : (s.length + j) / 8 = s.bytes.size := by omega
    have hmod : (s.length + j) % 8 = j := by omega
    simp [bitAt, hdiv, hmod, Array.getD_eq_getD_getElem?]
  refine WellFormed.ext (h.appendBits _ _) ⟨?_, fun i hi => ?_⟩ ?_
  · simp only [byteSize, Array.size_push]; omega
  · have hge : s.bytes.size + 1 ≤ i / 8 := by
      simp only at hi; omega
    have hnone : (s.bytes.push b)[i / 8]? = none := Array.getElem?_eq_none (by simpa using hge)
    simp [bitAt, Array.getD_eq_getD_getElem?, hnone]
  · have hbits : (List.range 8).map (fun j => b.toNat.testBit (7 - j)) = bitsOf b.toNat 8 := rfl
    rw [toBits_appendBits h, ← hbits]
    unfold toBits
    simp only [List.range_add, List.map_append, List.map_map]
    congr 1
    · exact List.map_congr_left fun i hi => (hold i (List.mem_range.1 hi)).symm
    · exact List.map_congr_left fun j hj => (hnew j (List.mem_range.1 hj)).symm

/-- **Bytes appended to whole bytes stay whole.** -/
theorem bytes_appendBytes {s : BitString} (h : s.WellFormed) (ha : s.length % 8 = 0)
    (bytes : List UInt8) : (s.appendBytes bytes).bytes.toList = s.bytes.toList ++ bytes := by
  induction bytes generalizing s with
  | nil => simp [appendBytes]
  | cons b bytes ih =>
    have hstep : s.appendBytes (b :: bytes) = (s.appendBits b.toNat 8).appendBytes bytes := rfl
    have hrest := ih (h.appendBits b.toNat 8) (by rw [length_appendBits]; omega)
    rw [hstep, hrest, appendBits_byte h ha]
    simp

/-- **A bit string without a partly filled byte has the bits of its bytes.** -/
theorem toBits_eq_flatMap_bytes {s : BitString} (h : s.WellFormed) (ha : s.length % 8 = 0) :
    s.toBits = s.bytes.toList.flatMap byteBits := by
  have hsize := h.size_eq
  unfold byteSize at hsize
  have hbytes := bytes_appendBytes wellFormed_empty rfl s.bytes.toList
  have hlen := length_appendBytes empty s.bytes.toList
  have hs : empty.appendBytes s.bytes.toList = s := by
    generalize empty.appendBytes s.bytes.toList = t at hbytes hlen
    obtain ⟨tb, tl⟩ := t
    obtain ⟨sb, sl⟩ := s
    have hb : tb = sb := by simpa [empty] using hbytes
    have hl : tl = sl := by simp only [empty, Array.length_toList] at hlen hsize ha ⊢; omega
    rw [hb, hl]
  calc s.toBits = (empty.appendBytes s.bytes.toList).toBits := by rw [hs]
    _ = s.bytes.toList.flatMap byteBits := by
      rw [toBits_appendBytes wellFormed_empty, toBits_empty, List.nil_append]

end BitString

/-! ### Reading bytes -/

namespace Reader

/-- **Bits cut into eights are the bytes that they came from.** -/
theorem bytesOf_flatMap_byteBits (bytes : List UInt8) (rest : List Bool) :
    bytesOf (bytes.flatMap byteBits ++ rest) = bytes ++ bytesOf rest := by
  induction bytes with
  | nil => rfl
  | cons b bytes ih =>
    have hne : byteBits b ≠ [] := by
      intro h; have := length_byteBits b; rw [h] at this; cases this
    have hcut := chunks_append hne (bytes.flatMap byteBits ++ rest)
    rw [length_byteBits] at hcut
    unfold bytesOf at ih ⊢
    rw [List.flatMap_cons, List.append_assoc, hcut, List.filterMap_cons, if_pos (length_byteBits b),
      numberOf_byteBits, UInt8.ofNat_toNat]
    simp only [ih, List.cons_append]

end Reader
end QRCode
