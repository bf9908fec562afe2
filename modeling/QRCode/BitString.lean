/-
# Bit strings, packed into bytes

`BitStream`, and the ways of pushing to it.

A bit string grows at its end, one bit at a time, and is kept packed: eight bits
to a byte, the first of them in the highest place, the last byte filled up with
zeros (`BitString.WellFormed`).  Everything else is a loop over `push`: a number
is pushed from its highest bit down (`appendBits`), a byte as eight bits (`appendBytes`).

The view of a bit string is the list of its bits, `toBits`, and each operation is
one equation about that list:

| operation | its effect on `toBits` |
| --- | --- |
| `push b` | `++ [b]` (`toBits_push`) |
| `appendBits value size` | `++ bitsOf value size` (`toBits_appendBits`) |
| `appendBytes bytes` | `++ bytes.flatMap byteBits` (`toBits_appendBytes`) |

A well-formed bit string is determined by its bits (`WellFormed.ext`), so however a
list of bits is cut into pushes, the packed result is the same.
-/

namespace QRCode

-- powers are those of the core library, whatever else is imported
attribute [local instance (high)] instPowNat

/-- A string of bits, packed into bytes from the highest bit down. -/
structure BitString where
  /-- The bytes, the last one filled up with zeros. -/
  bytes : Array UInt8
  /-- The number of bits. -/
  length : Nat
  deriving DecidableEq

/-- The lowest `size` bits of a number, highest first. -/
def bitsOf (value : Nat) : Nat → List Bool
  | 0 => []
  | size + 1 => value.testBit size :: bitsOf value size

/-- The eight bits of a byte, highest first. -/
def byteBits (b : UInt8) : List Bool := bitsOf b.toNat 8

/-- The number that a list of bits spells, highest first. -/
def numberOf (bits : List Bool) : Nat := bits.foldl (fun n b => 2 * n + b.toNat) 0

namespace BitString

/-- No bits. -/
def empty : BitString := ⟨#[], 0⟩

/-- The number of bytes that the bits take (`BitStream::size_in_bytes`). -/
def byteSize (s : BitString) : Nat := (s.length + 7) / 8

/-- Whether the bits fill their bytes (`BitStream::is_byte_aligned`). -/
def isAligned (s : BitString) : Bool := s.length % 8 == 0

/-- The bit at a place of the packed bytes, `false` beyond them. -/
def bitAt (s : BitString) (i : Nat) : Bool := (s.bytes.getD (i / 8) 0).toNat.testBit (7 - i % 8)

/-- The bit at a place, if the string is that long (`BitStream::bit`). -/
def bit? (s : BitString) (i : Nat) : Option Bool := if i < s.length then some (s.bitAt i) else none

/-- The bits, first to last (`BitStream::bits`). -/
def toBits (s : BitString) : List Bool := (List.range s.length).map s.bitAt

/-- A byte with a bit in the place that it takes after `offset` earlier ones. -/
def bitByte (offset : Nat) (bit : Bool) : UInt8 := if bit then UInt8.ofNat (2 ^ (7 - offset)) else 0

/-- One bit more (`BitStream::push`). -/
def push (s : BitString) (bit : Bool) : BitString :=
  let byte := bitByte (s.length % 8) bit
  if s.length % 8 = 0 then ⟨s.bytes.push byte, s.length + 1⟩
  else ⟨s.bytes.modify (s.length / 8) (· ||| byte), s.length + 1⟩

/-- The lowest `size` bits of a number, highest first (`BitStream::push_bits`). -/
def appendBits (s : BitString) (value : Nat) : Nat → BitString
  | 0 => s
  | size + 1 => (s.push (value.testBit size)).appendBits value size

/-- Eight bits for each byte (`BitStream::extend`). -/
def appendBytes (s : BitString) (bytes : List UInt8) : BitString :=
  bytes.foldl (fun s b => s.appendBits b.toNat 8) s

/-- The bit string with given bits. -/
def ofBits (bits : List Bool) : BitString := bits.foldl push empty

/-- The bytes are as many as the bits need, and hold zeros after the last bit. -/
structure WellFormed (s : BitString) : Prop where
  size_eq : s.bytes.size = s.byteSize
  padding : ∀ i, s.length ≤ i → s.bitAt i = false

/-! ### The bits after a push -/

/-- The byte of a bit has that bit in its place and zeros elsewhere. -/
theorem testBit_bitByte (offset i : Nat) (bit : Bool) :
    (bitByte offset bit).toNat.testBit i = (bit && decide (7 - offset = i)) := by
  have h : 2 ^ (7 - offset) < 256 :=
    Nat.lt_of_le_of_lt (Nat.pow_le_pow_right (by decide) (by omega : 7 - offset ≤ 7)) (by decide)
  cases bit
  · simp [bitByte]
  · simp [bitByte, Nat.mod_eq_of_lt h, Nat.testBit_two_pow]

@[simp] theorem length_push (s : BitString) (bit : Bool) : (s.push bit).length = s.length + 1 := by
  unfold push; split <;> rfl

/-- A push sets the place behind the last bit and no other. -/
theorem bitAt_push {s : BitString} (h : s.WellFormed) (bit : Bool) (i : Nat) :
    (s.push bit).bitAt i = if i = s.length then bit else s.bitAt i := by
  have hsize := h.size_eq
  have hpad := h.padding s.length (Nat.le_refl _)
  unfold byteSize at hsize
  unfold push
  split
  · rename_i h8
    by_cases hi : i / 8 = s.bytes.size
    · have hold : s.bitAt i = false := h.padding i (by omega)
      have hget : (s.bytes.push (bitByte (s.length % 8) bit)).getD (i / 8) 0 =
          bitByte (s.length % 8) bit := by
        rw [hi, Array.getD_eq_getD_getElem?]; simp
      simp only [bitAt] at hold ⊢
      rw [hget, testBit_bitByte, hold]
      by_cases he : i = s.length
      · subst he; simp
      · rw [if_neg he, decide_eq_false (by omega), Bool.and_false]
    · have hget : (s.bytes.push (bitByte (s.length % 8) bit)).getD (i / 8) 0 =
          s.bytes.getD (i / 8) 0 := by
        simp only [Array.getD_eq_getD_getElem?, Array.getElem?_push, if_neg hi]
      simp only [bitAt]
      rw [hget, if_neg (by omega)]
  · rename_i h8
    have hlt : s.length / 8 < s.bytes.size := by omega
    by_cases hi : i / 8 = s.length / 8
    · have hget : (s.bytes.modify (s.length / 8) (· ||| bitByte (s.length % 8) bit)).getD (i / 8) 0 =
          s.bytes.getD (i / 8) 0 ||| bitByte (s.length % 8) bit := by
        simp [Array.getD_eq_getD_getElem?, hi, hlt, Array.getElem_modify]
      simp only [bitAt] at hpad ⊢
      rw [hget, UInt8.toNat_or, Nat.testBit_or, testBit_bitByte]
      by_cases he : i = s.length
      · subst he; rw [hpad]; simp
      · rw [if_neg he, decide_eq_false (by omega), Bool.and_false, Bool.or_false]
    · have hget : (s.bytes.modify (s.length / 8) (· ||| bitByte (s.length % 8) bit)).getD (i / 8) 0 =
          s.bytes.getD (i / 8) 0 := by
        have hne : s.length / 8 ≠ i / 8 := fun h => hi h.symm
        simp [Array.getD_eq_getD_getElem?, Array.getElem?_modify, hne]
      simp only [bitAt]
      rw [hget, if_neg (by omega)]

/-- No bits need no bytes. -/
theorem wellFormed_empty : empty.WellFormed :=
  ⟨rfl, fun i _ => by simp [bitAt, empty]⟩

/-- A push keeps a bit string well-formed. -/
theorem WellFormed.push {s : BitString} (h : s.WellFormed) (bit : Bool) : (s.push bit).WellFormed := by
  refine ⟨?_, fun i hi => ?_⟩
  · have := h.size_eq
    unfold byteSize at this ⊢
    unfold BitString.push
    split
    · simp only [Array.size_push]; omega
    · simp only [Array.size_modify]; omega
  · rw [length_push] at hi
    rw [bitAt_push h, if_neg (by omega), h.padding i (by omega)]

/-- **A push appends one bit.** -/
theorem toBits_push {s : BitString} (h : s.WellFormed) (bit : Bool) :
    (s.push bit).toBits = s.toBits ++ [bit] := by
  unfold toBits
  rw [length_push, List.range_succ, List.map_append]
  congr 1
  · refine List.map_congr_left fun i hi => ?_
    rw [bitAt_push h, if_neg (by have := List.mem_range.1 hi; omega)]
  · simp [bitAt_push h]

/-! ### Longer pushes -/

@[simp] theorem length_bitsOf (value size : Nat) : (bitsOf value size).length = size := by
  induction size with
  | zero => rfl
  | succ size ih => simp [bitsOf, ih]

/-- A number takes as many bits as it is given. -/
@[simp] theorem length_appendBits (s : BitString) (value size : Nat) :
    (s.appendBits value size).length = s.length + size := by
  induction size generalizing s with
  | zero => rfl
  | succ size ih => rw [appendBits, ih, length_push]; omega

/-- Numbers keep a bit string well-formed. -/
theorem WellFormed.appendBits {s : BitString} (h : s.WellFormed) (value size : Nat) :
    (s.appendBits value size).WellFormed := by
  induction size generalizing s with
  | zero => exact h
  | succ size ih => exact ih (h.push _)

/-- **Pushing a number appends its lowest bits, highest first.** -/
theorem toBits_appendBits {s : BitString} (h : s.WellFormed) (value size : Nat) :
    (s.appendBits value size).toBits = s.toBits ++ bitsOf value size := by
  induction size generalizing s with
  | zero => simp [BitString.appendBits, bitsOf]
  | succ size ih =>
    rw [BitString.appendBits, ih (h.push _), toBits_push h, bitsOf, List.append_assoc]; rfl

/-- Each byte takes eight bits. -/
@[simp] theorem length_appendBytes (s : BitString) (bytes : List UInt8) :
    (s.appendBytes bytes).length = s.length + 8 * bytes.length := by
  induction bytes generalizing s with
  | nil => rfl
  | cons b bytes ih =>
    have := ih (s.appendBits b.toNat 8)
    rw [length_appendBits] at this
    simp only [appendBytes, List.foldl_cons, List.length_cons] at this ⊢
    omega

/-- Bytes keep a bit string well-formed. -/
theorem WellFormed.appendBytes {s : BitString} (h : s.WellFormed) (bytes : List UInt8) :
    (s.appendBytes bytes).WellFormed := by
  induction bytes generalizing s with
  | nil => exact h
  | cons b bytes ih => exact ih (h.appendBits _ _)

/-- **Extending by bytes appends eight bits for each of them.** -/
theorem toBits_appendBytes {s : BitString} (h : s.WellFormed) (bytes : List UInt8) :
    (s.appendBytes bytes).toBits = s.toBits ++ bytes.flatMap byteBits := by
  induction bytes generalizing s with
  | nil => simp [BitString.appendBytes]
  | cons b bytes ih =>
    have := ih (h.appendBits b.toNat 8)
    rw [toBits_appendBits h] at this
    simpa [BitString.appendBytes, byteBits, List.append_assoc] using this

/-! ### Reading -/

@[simp] theorem length_toBits (s : BitString) : s.toBits.length = s.length := by simp [toBits]

@[simp] theorem toBits_empty : empty.toBits = [] := rfl

/-- A bit is read where the list of bits has it, and nowhere else. -/
theorem bit?_eq (s : BitString) (i : Nat) : s.bit? i = s.toBits[i]? := by
  unfold bit? toBits
  by_cases h : i < s.length <;> simp [h]

/-- Place `7 - j` of byte `k`, counted from the highest, is bit `j` of that byte. -/
theorem testBit_byte (s : BitString) {k j : Nat} (hk : k < s.bytes.size) (hj : j < 8) :
    s.bytes[k].toNat.testBit j = s.bitAt (8 * k + (7 - j)) := by
  have h₁ : (8 * k + (7 - j)) / 8 = k := by omega
  have h₂ : 7 - (8 * k + (7 - j)) % 8 = j := by omega
  rw [bitAt, h₁, h₂, Array.getD_eq_getD_getElem?, Array.getElem?_eq_getElem hk, Option.getD_some]

/-- **A well-formed bit string is determined by its bits.** -/
theorem WellFormed.ext {s t : BitString} (hs : s.WellFormed) (ht : t.WellFormed)
    (h : s.toBits = t.toBits) : s = t := by
  have hlen : s.length = t.length := by rw [← length_toBits, h, length_toBits]
  have hbit : ∀ i, s.bitAt i = t.bitAt i := by
    intro i
    by_cases hi : i < s.length
    · have := (bit?_eq s i).trans (h ▸ (bit?_eq t i).symm)
      unfold bit? at this
      rw [if_pos hi, if_pos (hlen ▸ hi)] at this
      exact Option.some.inj this
    · rw [hs.padding i (by omega), ht.padding i (by omega)]
  have hsize : s.bytes.size = t.bytes.size := by
    rw [hs.size_eq, ht.size_eq, byteSize, byteSize, hlen]
  have hbytes : s.bytes = t.bytes := by
    refine Array.ext hsize fun k h₁ h₂ => UInt8.toNat_inj.1 (Nat.eq_of_testBit_eq fun j => ?_)
    by_cases hj : j < 8
    · rw [testBit_byte s h₁ hj, testBit_byte t h₂ hj, hbit]
    · have h8 : 256 ≤ 2 ^ j := show 2 ^ 8 ≤ 2 ^ j from Nat.pow_le_pow_right (by decide) (by omega)
      rw [Nat.testBit_lt_two_pow (Nat.lt_of_lt_of_le s.bytes[k].toNat_lt h8),
        Nat.testBit_lt_two_pow (Nat.lt_of_lt_of_le t.bytes[k].toNat_lt h8)]
  cases s; cases t; cases hlen; cases hbytes; rfl

end BitString

/-! ### Numbers and their bits -/

/-- Bits behind a number shift it up by as many places. -/
theorem foldl_bits (bits : List Bool) (n : Nat) :
    bits.foldl (fun n b => 2 * n + b.toNat) n = n * 2 ^ bits.length + numberOf bits := by
  induction bits generalizing n with
  | nil => simp [numberOf]
  | cons b bits ih =>
    have hn := ih (2 * n + b.toNat)
    have h₀ : numberOf (b :: bits) = (2 * 0 + b.toNat) * 2 ^ bits.length + numberOf bits :=
      ih (2 * 0 + b.toNat)
    have hp : n * (2 ^ bits.length * 2) = 2 * n * 2 ^ bits.length := by
      rw [Nat.mul_comm 2 n, Nat.mul_assoc, Nat.mul_comm 2]
    rw [List.foldl_cons, hn, h₀, List.length_cons, Nat.pow_succ, hp, Nat.add_mul, Nat.mul_zero,
      Nat.zero_add, Nat.add_assoc]

/-- The first bit of a number counts most. -/
theorem numberOf_cons (b : Bool) (bits : List Bool) :
    numberOf (b :: bits) = b.toNat * 2 ^ bits.length + numberOf bits := by
  rw [numberOf, List.foldl_cons, foldl_bits, Nat.mul_zero, Nat.zero_add]

/-- **The bits of a number spell the number**, as far as they reach. -/
theorem numberOf_bitsOf (value size : Nat) : numberOf (bitsOf value size) = value % 2 ^ size := by
  induction size with
  | zero => rw [bitsOf, Nat.pow_zero, Nat.mod_one]; rfl
  | succ size ih =>
    rw [bitsOf, numberOf_cons, ih, BitString.length_bitsOf, Nat.testBit_eq_decide_div_mod_eq,
      Nat.pow_succ, Nat.mod_mul]
    rcases Nat.mod_two_eq_zero_or_one (value / 2 ^ size) with h | h
    · rw [h]; simp
    · rw [h]; simp [Nat.add_comm]

end QRCode
