/-
# The narrowest mode of a payload

`Mode::select`, as the one pass over the bytes that it is.

The three modes form a chain: a mode with more characters has all the characters of one
with fewer (`Mode.contains_of_base_le`).  So a payload has a narrowest mode, and one pass
over its bytes finds it: the pass remembers whether it has seen digits and whether it has
seen other characters, and ends at the first byte that only the byte mode has
(`Mode.scan_eq`).

A narrower mode takes fewer bits for the characters and more for their count:

| | from one mode to a narrower one |
| --- | --- |
| count field | at most two bits wider, in every tier |
| packed characters | at least two bits shorter, from the first character on |

so a segment is shortest in the narrowest mode, however few characters it has
(`Sizing.segmentBits_le_of_base_le`).  Only the empty payload, which counts as bytes, may
have a shorter header in another mode; it fits in every version all the same.
-/

import QRCode.Proofs.LeastVersion
import QRCode.Proofs.Segments

namespace QRCode

variable {v : Version} {level : Level} {mode mode' : Mode} {payload : List UInt8}

namespace Mode

/-- A digit is an alphanumeric character. -/
theorem alphanumeric_of_numeric {b : UInt8} (h : numeric.contains b = true) :
    alphanumeric.contains b = true := by
  simp only [contains, decide_eq_true_eq] at h ⊢
  exact .inl h

/-- **A mode with more characters has all those of one with fewer.** -/
theorem contains_of_base_le (hle : mode.base ≤ mode'.base) {b : UInt8} (h : mode.contains b = true) :
    mode'.contains b = true := by
  cases mode' with
  | byte => rfl
  | alphanumeric =>
    cases mode with
    | numeric => exact alphanumeric_of_numeric h
    | alphanumeric => exact h
    | byte => exact absurd hle (by decide)
  | numeric =>
    cases mode with
    | numeric => exact h
    | alphanumeric => exact absurd hle (by decide)
    | byte => exact absurd hle (by decide)

/-! ### One pass -/

/-- The mode of a payload in one pass, from what was seen before: whether there were digits, and
whether there were other characters (`Mode::select`). -/
def scan (digits others : Bool) : List UInt8 → Mode
  | [] => if others then alphanumeric else if digits then numeric else byte
  | b :: rest =>
    if numeric.contains b then scan true others rest
    else if alphanumeric.contains b then scan digits true rest
    else byte

/-- What was seen before counts as if it stood in front of the payload. -/
theorem scan_eq (digits others : Bool) (payload : List UInt8) :
    scan digits others payload =
      if !payload.all alphanumeric.contains then byte
      else if others || !payload.all numeric.contains then alphanumeric
      else if digits || !payload.isEmpty then numeric
      else byte := by
  -- the flags change on the way, so the induction is for all of them
  induction payload generalizing digits others with
  | nil => simp [scan]
  | cons b rest ih =>
    rw [scan, List.all_cons, List.all_cons, List.isEmpty_cons]
    split
    · rename_i hdigit
      rw [ih, hdigit, alphanumeric_of_numeric hdigit]
      simp
    · rename_i hdigit
      split
      · rename_i hother
        rw [ih, hother, Bool.eq_false_iff.2 hdigit]
        simp
      · rename_i hbyte
        rw [Bool.eq_false_iff.2 hbyte]
        simp

/-- **One pass finds the mode of a payload.** -/
theorem scan_eq_select (payload : List UInt8) : scan false false payload = select payload := by
  rw [scan_eq, select]
  by_cases hempty : payload.isEmpty = true
  · obtain rfl := List.isEmpty_iff.1 hempty
    rfl
  · by_cases hdigits : payload.all numeric.contains = true
    · have hall : payload.all alphanumeric.contains = true :=
        List.all_eq_true.2 fun b hb => alphanumeric_of_numeric (List.all_eq_true.1 hdigits b hb)
      simp [hempty, hdigits, hall]
    · by_cases hall : payload.all alphanumeric.contains = true
      · simp [hempty, hdigits, hall]
      · simp [hempty, hdigits, hall]

/-! ### The narrowest mode -/

/-- No mode with all the bytes of a payload has fewer characters than the one selected. -/
theorem base_select_le (hne : payload ≠ []) (h : ∀ b ∈ payload, mode.contains b = true) :
    (select payload).base ≤ mode.base := by
  have hall : payload.all mode.contains = true := List.all_eq_true.2 h
  have hempty : ¬payload.isEmpty = true := fun hempty => hne (List.isEmpty_iff.1 hempty)
  cases mode with
  | numeric =>
    rw [select, if_neg hempty, if_pos hall]
  | alphanumeric =>
    rw [select, if_neg hempty, if_pos hall]
    split <;> decide
  | byte => cases select payload <;> decide

/-- **A payload selects the narrowest of the modes that have its bytes.** -/
theorem forall_contains_iff (hne : payload ≠ []) :
    (∀ b ∈ payload, mode.contains b = true) ↔ (select payload).base ≤ mode.base := by
  constructor
  · exact fun h => base_select_le hne h
  · exact fun hle b hb => contains_of_base_le hle (contains_select payload b hb)

/-- A mode is determined by the number of its characters. -/
theorem eq_of_base_eq (h : mode.base = mode'.base) : mode = mode' := by
  revert h
  cases mode <;> cases mode' <;> decide

/-! ### Lengths -/

/-- A narrower mode has a count field that is wider by two bits at most. -/
theorem countBits_le_add (v : Version) (hle : mode.base ≤ mode'.base) :
    mode.countBits v ≤ mode'.countBits v + 2 := by
  revert hle v
  cases mode <;> cases mode' <;> decide

/-- A narrower mode takes no more bits for characters. -/
theorem packedLength_le_of_base_le (hle : mode.base ≤ mode'.base) (count : Nat) :
    mode.packedLength count ≤ mode'.packedLength count := by
  cases mode <;> cases mode' <;> simp only [packedLength, base] at hle ⊢ <;> omega

/-- A narrower mode saves two bits with the first character. -/
theorem packedLength_add_le (hlt : mode.base < mode'.base) {count : Nat} (hpos : 0 < count) :
    mode.packedLength count + 2 ≤ mode'.packedLength count := by
  cases mode <;> cases mode' <;> simp only [packedLength, base] at hlt ⊢ <;> omega

end Mode

namespace Sizing

variable {sizing : Sizing} {count : Nat}

/-- **A segment is no longer in a narrower mode**, in spite of its wider count field. -/
theorem segmentBits_le_of_base_le (v : Version) (hle : mode.base ≤ mode'.base) (hpos : 0 < count) :
    segmentBits mode v count ≤ segmentBits mode' v count := by
  rcases Nat.lt_or_eq_of_le hle with hlt | heq
  · have hwider := Mode.countBits_le_add v hle
    have hsaved := Mode.packedLength_add_le hlt hpos
    unfold segmentBits
    omega
  · rw [Mode.eq_of_base_eq heq]

/-- No characters fit in every version. -/
theorem fits_zero : sizing.fits v level mode 0 = true := by
  rw [fits_iff, Mode.packedLength_zero]
  exact Nat.zero_le _

/-- **Where a payload fits in some mode, it fits in its own.** -/
theorem fits_select (h : ∀ b ∈ payload, mode.contains b = true)
    (hfits : sizing.fits v level mode payload.length = true) :
    sizing.fits v level (.select payload) payload.length = true := by
  by_cases hne : payload = []
  · rw [hne]
    exact fits_zero
  · have hpos := List.length_pos_iff.2 hne
    have hle := Mode.base_select_le hne h
    rcases sizing with _ | _
    · exact fits_iff.2 (le_trans (Mode.packedLength_le_of_base_le hle _) (fits_iff.1 hfits))
    · exact decide_eq_true (le_trans (segmentBits_le_of_base_le v hle hpos) (of_decide_eq_true hfits))

end Sizing

/-! ### Packing in the narrowest mode -/

/-- Encoding never reports a byte that the mode has. -/
theorem encodeIn_ne_invalidCharacter (h : ∀ b ∈ payload, mode.contains b = true) (b : UInt8) :
    (encodeIn v level mode payload).result ≠ .error (.invalidCharacter b) := by
  intro herror
  rw [encodeIn_eq h] at herror
  split at herror
  · cases herror
  · split at herror <;> cases herror

/-- What the selected mode is to a payload. -/
structure SelectsNarrowest (payload : List UInt8) : Prop where
  /-- One pass over the bytes finds it. -/
  onePass : Mode.scan false false payload = Mode.select payload
  /-- It has all the bytes. -/
  contains : ∀ b ∈ payload, (Mode.select payload).contains b = true
  /-- So the payload is packed, behind any bit string. -/
  packs : ∀ s, ∃ t, writePayload (.select payload) payload s = .ok () t
  /-- Encoding in it reports no byte. -/
  noForeign : ∀ v level b,
    (encodeIn v level (.select payload) payload).result ≠ .error (.invalidCharacter b)
  /-- The modes with all the bytes are those with as many characters or more. -/
  narrowest : payload ≠ [] → ∀ mode : Mode,
    (∀ b ∈ payload, mode.contains b = true) ↔ (Mode.select payload).base ≤ mode.base
  /-- None of them has a shorter segment, in any version. -/
  shortest : payload ≠ [] → ∀ (v : Version) (mode : Mode), (∀ b ∈ payload, mode.contains b = true) →
    4 + (Mode.select payload).countBits v + (Mode.select payload).packedLength payload.length ≤
      4 + mode.countBits v + mode.packedLength payload.length
  /-- A payload, also an empty one, is encoded in it wherever it is in any mode. -/
  encodes : ∀ v level mode s, (encodeIn v level mode payload).result = .ok s →
    ∃ t, (encodeIn v level (.select payload) payload).result = .ok t
  /-- Under both rules, it needs the smallest version. -/
  smallest : ∀ (sizing : Sizing) (level : Level) (mode : Mode), (∀ b ∈ payload, mode.contains b = true) →
    sizing.smallestNumber level (.select payload) payload.length ≤
      sizing.smallestNumber level mode payload.length

/-- **Mode selection is optimal**, for every payload. -/
theorem selectsNarrowest (payload : List UInt8) : SelectsNarrowest payload where
  onePass := Mode.scan_eq_select payload
  contains := Mode.contains_select payload
  packs s := exists_writePayload (Mode.contains_select payload) s
  noForeign v level b := encodeIn_ne_invalidCharacter (Mode.contains_select payload) b
  narrowest hne mode := Mode.forall_contains_iff hne
  shortest hne v mode h :=
    Sizing.segmentBits_le_of_base_le v (Mode.base_select_le hne h) (List.length_pos_iff.2 hne)
  encodes v level mode s hs := by
    obtain ⟨-, hbytes⟩ := writable_of_encodeIn hs
    have hfits := (exists_encodeIn_iff hbytes).1 ⟨s, hs⟩
    exact (exists_encodeIn_iff (Mode.contains_select payload)).2 (Sizing.fits_select hbytes hfits)
  smallest sizing level mode h := Sizing.smallestNumber_le fun _ => Sizing.fits_select h

/-- The empty payload counts as bytes, and from version 10 on has a longer header as such
than as digits. -/
example : Mode.select [] = .byte ∧
    Sizing.segmentBits .numeric (.ofIndex 9) 0 < Sizing.segmentBits .byte (.ofIndex 9) 0 := by
  decide

end QRCode
