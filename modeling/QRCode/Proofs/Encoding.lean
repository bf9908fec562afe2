/-
# The data codewords of a payload

`encode_with_version` and `terminate`, as one list of bits.

Behind its segment a bit string is filled up to the data codewords of a version
(`writePadding_eq`), so a payload that fits is encoded as one fixed list of bits,
`dataStream`, and a payload that does not is refused for its length or its count
(`encodeIn_eq`).  Whether it fits is the inequality `segmentBits ≤ dataBits`:

| fact | statement |
| --- | --- |
| a payload that fits has a count that fits | `count_lt_of_segmentBits_le` |
| both sizing rules choose versions in which the payload fits | `Sizing.segmentBits_le_of_fits` |
| the mode of a payload has all its bytes | `Mode.contains_select` |

The first is a fact about the tables: a count that needs one bit more than its
field has belongs to a payload longer than the largest symbol of its tier.
-/

import QRCode.Proofs.Packing

namespace QRCode

/-! ### Filling up -/

/-- The codewords that a closed bit string of some length takes, of `codewords`. -/
def closedCodewords (codewords length : Nat) : Nat := (min (length + 4) (8 * codewords) + 7) / 8

/-- The bits behind a bit string of some length that is filled up to `codewords`. -/
def fillBits (codewords length : Nat) : List Bool :=
  List.replicate (8 * closedCodewords codewords length - length) false ++
    (padCodewords (codewords - closedCodewords codewords length)).flatMap byteBits

/-- The bits of zero are zeros. -/
theorem bitsOf_zero (size : Nat) : bitsOf 0 size = List.replicate size false := by
  induction size with
  | zero => rfl
  | succ size ih => rw [bitsOf, ih, Nat.zero_testBit, List.replicate_succ]

/-- As many pad codewords are written as asked for. -/
@[simp] theorem length_padCodewords (count : Nat) : (padCodewords count).length = count := by
  simp [padCodewords]

/-- A closed bit string holds the one it was made from, and is not longer than its codewords. -/
theorem closedCodewords_le {codewords length : Nat} (h : length ≤ 8 * codewords) :
    length ≤ 8 * closedCodewords codewords length ∧ closedCodewords codewords length ≤ codewords := by
  unfold closedCodewords; omega

/-- The filling takes the room that is left. -/
theorem length_fillBits {codewords length : Nat} (h : length ≤ 8 * codewords) :
    (fillBits codewords length).length = 8 * codewords - length := by
  have := closedCodewords_le h
  rw [fillBits, List.length_append, List.length_replicate, length_flatMap_byteBits,
    length_padCodewords]
  omega

namespace BitString

/-- Closing keeps a bit string well-formed. -/
theorem WellFormed.close {s : BitString} (h : s.WellFormed) (capacity : Nat) :
    (s.close capacity).WellFormed := (h.appendBits _ _).appendBits _ _

/-- A bit string is closed by zeros. -/
theorem toBits_close {s : BitString} (h : s.WellFormed) {codewords : Nat}
    (hlen : s.length ≤ 8 * codewords) :
    (s.close (8 * codewords)).toBits =
      s.toBits ++ List.replicate (8 * closedCodewords codewords s.length - s.length) false := by
  have hopen := h.appendBits 0 (min 4 (8 * codewords - s.length))
  have hzeros : min 4 (8 * codewords - s.length) +
      (8 - (s.length + min 4 (8 * codewords - s.length)) % 8) % 8 =
        8 * closedCodewords codewords s.length - s.length := by
    unfold closedCodewords; omega
  rw [BitString.close, align, toBits_appendBits hopen, toBits_appendBits h, bitsOf_zero, bitsOf_zero,
    length_appendBits, List.append_assoc, List.replicate_append_replicate, hzeros]

/-- The bit string with given bits has those bits. -/
theorem wellFormed_ofBits (bits : List Bool) : (ofBits bits).WellFormed ∧ (ofBits bits).toBits = bits := by
  have key : ∀ (bits : List Bool) (s : BitString), s.WellFormed →
      (bits.foldl push s).WellFormed ∧ (bits.foldl push s).toBits = s.toBits ++ bits := by
    intro bits
    induction bits with
    | nil => intro s hs; exact ⟨hs, (List.append_nil _).symm⟩
    | cons b bits ih =>
      intro s hs
      obtain ⟨hw, hb⟩ := ih (s.push b) (hs.push b)
      refine ⟨hw, ?_⟩
      rw [List.foldl_cons, hb, toBits_push hs, List.append_assoc]
      rfl
  exact key bits empty wellFormed_empty

/-- A bit string that is made from bits has as many. -/
theorem length_ofBits (bits : List Bool) : (ofBits bits).length = bits.length := by
  rw [← length_toBits, (wellFormed_ofBits bits).2]

/-- A well-formed bit string is the one with its bits. -/
theorem WellFormed.eq_ofBits {s : BitString} (h : s.WellFormed) : s = ofBits s.toBits :=
  h.ext (wellFormed_ofBits _).1 (wellFormed_ofBits _).2.symm

end BitString

/-- **Padding fills up to the capacity**, and reports the pad codewords. -/
theorem writePadding_eq {s : BitString} (h : s.WellFormed) {codewords : Nat}
    (hlen : s.length ≤ 8 * codewords) :
    writePadding codewords s = .ok (codewords - closedCodewords codewords s.length)
      (.ofBits (s.toBits ++ fillBits codewords s.length)) := by
  have hle := closedCodewords_le hlen
  have hclosed := h.close (8 * codewords)
  have hlength : (s.close (8 * codewords)).length = 8 * closedCodewords codewords s.length := by
    rw [BitString.close_length hlen, closedCodewords, Nat.mul_comm]
  have hsize : (s.close (8 * codewords)).byteSize = closedCodewords codewords s.length := by
    rw [BitString.byteSize, hlength]; omega
  have hfilled := hclosed.appendBytes (padCodewords (codewords - closedCodewords codewords s.length))
  have hbits := BitString.toBits_appendBytes hclosed
    (padCodewords (codewords - closedCodewords codewords s.length))
  rw [BitString.toBits_close h hlen, List.append_assoc] at hbits
  rw [writePadding, if_neg (by omega)]
  simp only [hsize]
  rw [if_neg (by simp [BitString.isAligned, hlength]), if_neg]
  · rw [hfilled.eq_ofBits, hbits]
    rfl
  · rw [BitString.byteSize, BitString.length_appendBytes, hlength, length_padCodewords]
    omega

/-! ### What fits -/

/-- No symbol holds so many characters that their count needs a wider field. -/
theorem dataBits_lt_segmentBits (mode : Mode) (v : Version) (level : Level) :
    v.dataBits level < Sizing.segmentBits mode v (2 ^ mode.countBits v) := by
  revert v; cases mode <;> cases level <;> decide

/-- **A payload that fits has a count that fits in its field.** -/
theorem count_lt_of_segmentBits_le {mode : Mode} {v : Version} {level : Level} {count : Nat}
    (h : Sizing.segmentBits mode v count ≤ v.dataBits level) : count < 2 ^ mode.countBits v := by
  have hfull := dataBits_lt_segmentBits mode v level
  by_contra hcount
  have := mode.packedLength_mono (Nat.le_of_not_lt hcount)
  unfold Sizing.segmentBits at h hfull
  omega

/-- A count field has sixteen bits at most. -/
theorem countBits_le (mode : Mode) (v : Version) : mode.countBits v ≤ 16 := by
  revert v; cases mode <;> decide

/-- **Both sizing rules are sound**: a version that they accept holds the segment. -/
theorem Sizing.segmentBits_le_of_fits {sizing : Sizing} {v : Version} {level : Level} {mode : Mode}
    {count : Nat} (h : sizing.fits v level mode count = true) :
    segmentBits mode v count ≤ v.dataBits level := by
  cases sizing with
  | conservative =>
    have hcount := countBits_le mode v
    have hfits : (mode.packedLength count + 7) / 8 + 3 ≤ v.dataCodewords level := of_decide_eq_true h
    unfold segmentBits Version.dataBits Mode.indicatorBits
    omega
  | exact => exact of_decide_eq_true h

/-- **The mode of a payload has all its bytes.** -/
theorem Mode.contains_select (payload : List UInt8) :
    ∀ b ∈ payload, (select payload).contains b = true := by
  unfold select
  split
  · intro b _; rfl
  · split
    · rename_i h; exact List.all_eq_true.1 h
    · split
      · rename_i h; exact List.all_eq_true.1 h
      · intro b _; rfl

/-! ### Encoding -/

namespace Traced

variable {α β : Type}

/-- After a result, the events go on. -/
theorem ok_bind (a : α) (events : List Event) (f : α → Traced β) :
    (⟨.ok a, events⟩ : Traced α) >>= f = ⟨(f a).result, events ++ (f a).events⟩ := rfl

/-- After an error, nothing is told any more. -/
theorem error_bind (e : Error) (events : List Event) (f : α → Traced β) :
    (⟨.error e, events⟩ : Traced α) >>= f = ⟨.error e, events⟩ := rfl

/-- An event is told before what follows it. -/
theorem emit_bind (e : Event) (f : Unit → Traced β) :
    emit e >>= f = ⟨(f ()).result, e :: (f ()).events⟩ := rfl

/-- A program that succeeds tells nothing. -/
theorem ofProgram_of_ok {σ : Type} {program : EStateM Error σ α} {s t : σ} {a : α}
    (h : program s = .ok a t) : ofProgram program s = ⟨.ok (a, t), []⟩ := by
  simp [ofProgram, EStateM.run, h]

/-- Nor does one that fails. -/
theorem ofProgram_of_error {σ : Type} {program : EStateM Error σ α} {s t : σ} {e : Error}
    (h : program s = .error e t) : ofProgram program s = ⟨.error e, []⟩ := by
  simp [ofProgram, EStateM.run, h]

end Traced

/-- The bits of the data codewords of a payload: its segment, filled up. -/
def dataStream (v : Version) (level : Level) (mode : Mode) (payload : List UInt8) : List Bool :=
  mode.segment v payload ++
    fillBits (v.dataCodewords level) (Sizing.segmentBits mode v payload.length)

/-- **A payload that fits fills the data codewords.** -/
theorem length_dataStream {v : Version} {level : Level} {mode : Mode} {payload : List UInt8}
    (h : Sizing.segmentBits mode v payload.length ≤ v.dataBits level) :
    (dataStream v level mode payload).length = 8 * v.dataCodewords level := by
  have hfill := length_fillBits h
  unfold Version.dataBits at h
  rw [dataStream, List.length_append, Mode.length_segment, hfill]
  omega

/-- **The outcome of encoding a payload in a version**, in a mode that has its bytes. -/
theorem encodeIn_eq {v : Version} {level : Level} {mode : Mode} {payload : List UInt8}
    (h : ∀ b ∈ payload, mode.contains b = true) :
    encodeIn v level mode payload =
      if Sizing.segmentBits mode v payload.length ≤ v.dataBits level then
        ⟨.ok (.ofBits (dataStream v level mode payload)),
          [.packed payload.length mode (Sizing.segmentBits mode v payload.length),
            .terminated (v.dataCodewords level - closedCodewords (v.dataCodewords level)
              (Sizing.segmentBits mode v payload.length))]⟩
      else if 2 ^ mode.countBits v ≤ payload.length then
        ⟨.error (.countOverflow payload.length (mode.countBits v)), []⟩
      else
        ⟨.error .capacityExceeded,
          [.packed payload.length mode (Sizing.segmentBits mode v payload.length)]⟩ := by
  unfold encodeIn
  by_cases hcount : 2 ^ mode.countBits v ≤ payload.length
  · have hfit : ¬Sizing.segmentBits mode v payload.length ≤ v.dataBits level := fun hfit => by
      have := count_lt_of_segmentBits_le hfit
      omega
    rw [if_neg hfit, if_pos hcount, Traced.ofProgram_of_error (writeSegment_overflow hcount)]
    rfl
  · obtain ⟨t, hrun, ht, hbits⟩ :=
      writeSegment_eq (v := v) BitString.wellFormed_empty (Nat.lt_of_not_le hcount) h
    rw [BitString.toBits_empty, List.nil_append] at hbits
    have hlen : t.length = Sizing.segmentBits mode v payload.length := by
      rw [← BitString.length_toBits, hbits, Mode.length_segment]
    rw [Traced.ofProgram_of_ok hrun]
    simp only [Traced.ok_bind, Traced.emit_bind, List.nil_append]
    by_cases hfit : Sizing.segmentBits mode v payload.length ≤ v.dataBits level
    · have hpad := writePadding_eq ht (show t.length ≤ 8 * v.dataCodewords level by rw [hlen]; exact hfit)
      rw [if_pos hfit, Traced.ofProgram_of_ok hpad, hbits, hlen]
      rfl
    · have hpad : writePadding (v.dataCodewords level) t = .error .capacityExceeded t := by
        unfold Version.dataBits at hfit
        rw [writePadding, if_pos (by omega)]
      rw [if_neg hfit, if_neg hcount, Traced.ofProgram_of_error hpad, hlen]
      rfl

end QRCode
