/-
# What a failed writing leaves behind

`push_header`, `push_segment` and the functions that push a payload, where they fail.

A writer that fails leaves the bit string as it was left at the failure.  A payload is written
chunk by chunk, and a chunk is packed before any of its bits is written.  So when byte `p` is
the first that the mode does not have, the chunks before the one with byte `p` are all that is
written, and these are the first `p - p % chunkSize` bytes of the payload:

| failure | what is left |
| --- | --- |
| the field of the count has no width, or is too narrow | the bit string from before |
| a foreign byte `p` in a payload | the bit string with the whole chunks before byte `p` |
| a foreign byte `p` in a segment | the same behind the whole header |

All of this holds at any length of the bit string from before, also within a byte.
-/

import QRCode.Proofs.Foreign

namespace QRCode

-- powers are those of the core library, whatever else is imported
attribute [local instance (high)] instPowNat

/-! ### Cutting at a whole number of chunks -/

section Chunks

variable {α : Type} {size : Nat}

/-- The first piece is as long as it can be. -/
theorem chunks_eq_cons (hsize : 0 < size) {xs : List α} (hxs : xs ≠ []) :
    chunks size xs = xs.take size :: chunks size (xs.drop size) := by
  obtain ⟨k, rfl⟩ : ∃ k, size = k + 1 := ⟨size - 1, by omega⟩
  cases xs with
  | nil => exact absurd rfl hxs
  | cons x xs => rw [chunks, Nat.add_sub_cancel, List.take_succ_cons, List.drop_succ_cons]

/-- **A list is cut as its parts are**, when the first part fills its pieces. -/
theorem chunks_append_of_length (hsize : 0 < size) (count : Nat) {xs : List α}
    (hlength : xs.length = size * count) (ys : List α) :
    chunks size (xs ++ ys) = chunks size xs ++ chunks size ys := by
  induction count generalizing xs with
  | zero =>
    obtain rfl := List.length_eq_zero_iff.1 hlength
    rw [chunks]
    rfl
  | succ count ih =>
    rw [Nat.mul_succ] at hlength
    have hle : size ≤ xs.length := by omega
    have hxs : xs ≠ [] := by rintro rfl; rw [List.length_nil] at hle; omega
    have hdrop : (xs.drop size).length = size * count := by
      rw [List.length_drop]
      omega
    rw [chunks_eq_cons hsize (List.append_ne_nil_of_left_ne_nil hxs ys), chunks_eq_cons hsize hxs,
      List.take_append_of_le_length hle, List.drop_append_of_le_length hle, ih hdrop]
    rfl

end Chunks

variable {mode : Mode} {s t : BitString} {payload : List UInt8} {b : UInt8} {p : Nat}

/-! ### Writing chunks -/

/-- Chunks behind others are written onto what those leave. -/
theorem writeChunks_append {cs cs' : List (List UInt8)} (h : writeChunks mode cs s = .ok () t) :
    writeChunks mode (cs ++ cs') s = writeChunks mode cs' t := by
  induction cs generalizing s with
  | nil =>
    cases h
    rfl
  | cons chunk cs ih =>
    rw [writeChunks] at h
    rw [List.cons_append, writeChunks]
    cases hpack : mode.packChunk chunk with
    | ok value =>
      rw [hpack] at h
      exact ih h
    | error e =>
      rw [hpack] at h
      cases h

/-! ### Stopping at a foreign byte -/

/-- Writing a payload stops at its first foreign byte, `b` at place `p`, and leaves `t`. -/
structure StopsAt (mode : Mode) (payload : List UInt8) (s : BitString) (p : Nat) (b : UInt8)
    (t : BitString) : Prop where
  byte : payload[p]? = some b
  foreign : mode.contains b = false
  first : ∀ c ∈ payload.take p, mode.contains c = true
  /-- No bit is written but those of the whole chunks before the byte. -/
  left : writePayload mode (payload.take (p - p % mode.chunkSize)) s = .ok () t

/-- The first foreign byte of a payload. -/
theorem exists_first_foreign (h : ∃ b ∈ payload, mode.contains b = false) :
    ∃ p b, payload[p]? = some b ∧ mode.contains b = false ∧ ∀ c ∈ payload.take p, mode.contains c = true := by
  cases hforeign : mode.foreign? payload with
  | none =>
    obtain ⟨b, hb, hfalse⟩ := h
    rw [Mode.foreign?_eq_none.1 hforeign b hb] at hfalse
    cases hfalse
  | some b =>
    obtain ⟨hb, before, after, rfl, hbefore⟩ := Mode.foreign?_eq_some.1 hforeign
    refine ⟨before.length, b, ?_, hb, ?_⟩
    · rw [List.getElem?_append_right (Nat.le_refl _), Nat.sub_self, List.getElem?_cons_zero]
    · rwa [List.take_left]

/-- The chunk with the first foreign byte starts behind whole chunks, and that byte is its first
foreign one. -/
theorem foreign?_failing_chunk (hbyte : payload[p]? = some b) (hforeign : mode.contains b = false)
    (hfirst : ∀ c ∈ payload.take p, mode.contains c = true) :
    mode.foreign? ((payload.drop (p - p % mode.chunkSize)).take mode.chunkSize) = some b := by
  have hmod := Nat.mod_lt p mode.chunkSize_pos
  have hle := Nat.mod_le p mode.chunkSize
  obtain ⟨hp, hb⟩ := List.getElem?_eq_some_iff.1 hbyte
  have hplace : p - p % mode.chunkSize + p % mode.chunkSize = p := Nat.sub_add_cancel hle
  refine List.find?_eq_some_iff_getElem.2 ⟨by rw [hforeign]; rfl, p % mode.chunkSize, ?_, ?_, fun i hi => ?_⟩
  · rw [List.length_take, List.length_drop]
    omega
  · simp only [List.getElem_take, List.getElem_drop, hplace, hb]
  · have hmem : payload[p - p % mode.chunkSize + i] ∈ payload.take p :=
      List.mem_take_iff_getElem.2 ⟨p - p % mode.chunkSize + i, by omega, rfl⟩
    simp only [List.getElem_take, List.getElem_drop, hfirst _ hmem, Bool.not_true]
    decide

/-- **Writing stops at the first foreign byte** with the whole chunks before it. -/
theorem writePayload_foreign (hbyte : payload[p]? = some b) (hforeign : mode.contains b = false)
    (hfirst : ∀ c ∈ payload.take p, mode.contains c = true) :
    ∃ t, StopsAt mode payload s p b t ∧ writePayload mode payload s = .error (.invalidCharacter b) t := by
  have hpos := mode.chunkSize_pos
  have hmod := Nat.mod_lt p hpos
  have hdiv := Nat.div_add_mod p mode.chunkSize
  have hp := (List.getElem?_eq_some_iff.1 hbyte).1
  have hwhole : (payload.take (p - p % mode.chunkSize)).length = mode.chunkSize * (p / mode.chunkSize) := by
    rw [List.length_take]
    omega
  have hrest : payload.drop (p - p % mode.chunkSize) ≠ [] := by
    rw [ne_eq, List.drop_eq_nil_iff]
    omega
  have hcut := chunks_append_of_length hpos _ hwhole (payload.drop (p - p % mode.chunkSize))
  rw [List.take_append_drop, chunks_eq_cons hpos hrest] at hcut
  have hbytes : ∀ c ∈ payload.take (p - p % mode.chunkSize), mode.contains c = true := fun c hc =>
    hfirst c (List.take_subset_take_left payload (Nat.sub_le _ _) hc)
  obtain ⟨t, hrun⟩ := exists_writePayload hbytes s
  refine ⟨t, ⟨hbyte, hforeign, hfirst, hrun⟩, ?_⟩
  rw [writePayload, hcut, writeChunks_append hrun, writeChunks,
    Mode.packChunk_foreign (foreign?_failing_chunk hbyte hforeign hfirst)]

/-- Every failure of a payload is one of these. -/
theorem stopsAt_of_error {e : Error} (h : writePayload mode payload s = .error e t) :
    ∃ p b, e = .invalidCharacter b ∧ StopsAt mode payload s p b t := by
  by_cases hforeign : ∃ b ∈ payload, mode.contains b = false
  · obtain ⟨p, b, hbyte, hb, hfirst⟩ := exists_first_foreign hforeign
    obtain ⟨t', hstop, hrun⟩ := writePayload_foreign (s := s) hbyte hb hfirst
    rw [hrun] at h
    cases h
    exact ⟨p, b, rfl, hstop⟩
  · have hbytes : ∀ b ∈ payload, mode.contains b = true := fun b hb => by
      by_contra hfalse
      exact hforeign ⟨b, hb, Bool.eq_false_iff.2 hfalse⟩
    obtain ⟨t', hrun⟩ := exists_writePayload hbytes s
    rw [hrun] at h
    cases h

/-- **A payload fails exactly at a foreign byte.** -/
theorem writePayload_fails_iff :
    (∃ e t, writePayload mode payload s = .error e t) ↔ ∃ b ∈ payload, mode.contains b = false := by
  constructor
  · rintro ⟨e, t, herror⟩
    obtain ⟨p, b, -, hstop⟩ := stopsAt_of_error herror
    exact ⟨b, List.mem_of_getElem? hstop.byte, hstop.foreign⟩
  · intro hforeign
    obtain ⟨p, b, hbyte, hb, hfirst⟩ := exists_first_foreign hforeign
    obtain ⟨t, -, hrun⟩ := writePayload_foreign (s := s) hbyte hb hfirst
    exact ⟨_, t, hrun⟩

/-- What stands behind the bit string from before, when writing stops. -/
theorem StopsAt.toBits_eq (h : StopsAt mode payload s p b t) (hs : s.WellFormed) :
    t.toBits = s.toBits ++ mode.payloadBits (payload.take (p - p % mode.chunkSize)) := by
  have hbytes : ∀ c ∈ payload.take (p - p % mode.chunkSize), mode.contains c = true := fun c hc =>
    h.first c (List.take_subset_take_left payload (Nat.sub_le _ _) hc)
  obtain ⟨t', hrun, -, hbits⟩ := writeChunks_eq hs (contains_of_mem_chunks hbytes)
  have hsame : EStateM.Result.ok () t = EStateM.Result.ok () t' := h.left.symm.trans hrun
  cases hsame
  exact hbits

/-! ### Headers and segments -/

/-- A header fails when its field has no width or is too narrow. -/
theorem writeHeader_error_iff {width count : Nat} :
    (∃ e t, writeHeader mode width count s = .error e t) ↔ width = 0 ∨ 2 ^ width ≤ count := by
  unfold writeHeader
  split
  · simp [*]
  · split <;> simp [*]

/-- A header that fails leaves the bit string as it was. -/
theorem writeHeader_error {width count : Nat} {e : Error} (h : writeHeader mode width count s = .error e t) :
    t = s ∧ e = if width = 0 then .malformed .zeroWidthCount else .countOverflow count width := by
  unfold writeHeader at h
  split at h
  · cases h
    exact ⟨rfl, (if_pos ‹_›).symm⟩
  · split at h
    · cases h
      exact ⟨rfl, (if_neg ‹_›).symm⟩
    · cases h

/-- A segment fails at a character when its count fits and a byte is foreign. -/
theorem writeSegment_fails_iff {v : Version} :
    (∃ b t, writeSegment mode v payload s = .error (.invalidCharacter b) t) ↔
      payload.length < 2 ^ mode.countBits v ∧ ∃ b ∈ payload, mode.contains b = false := by
  rcases Nat.lt_or_ge payload.length (2 ^ mode.countBits v) with hcount | hcount
  · have hheader : writeHeader mode (mode.countBits v) payload.length s = .ok () _ :=
      writeHeader_eq (mode.countBits_pos v) hcount
    rw [writeSegment, bind_of_ok hheader, ← writePayload_fails_iff]
    constructor
    · rintro ⟨b, t, herror⟩
      exact ⟨hcount, _, t, herror⟩
    · rintro ⟨-, e, t, herror⟩
      obtain ⟨p, b, rfl, -⟩ := stopsAt_of_error herror
      exact ⟨b, t, herror⟩
  · constructor
    · rintro ⟨b, t, herror⟩
      rw [writeSegment_overflow hcount] at herror
      cases herror
    · exact fun h => absurd h.1 (Nat.not_lt.2 hcount)

/-- A segment that stops at a character has its whole header. -/
theorem writeSegment_stops {v : Version}
    (h : writeSegment mode v payload s = .error (.invalidCharacter b) t) :
    ∃ p header, writeHeader mode (mode.countBits v) payload.length s = .ok () header ∧
      StopsAt mode payload header p b t ∧ (s.WellFormed → t.toBits = s.toBits ++
        (bitsOf mode.indicator 4 ++ (bitsOf payload.length (mode.countBits v) ++
          mode.payloadBits (payload.take (p - p % mode.chunkSize))))) := by
  rcases Nat.lt_or_ge payload.length (2 ^ mode.countBits v) with hcount | hcount
  · have hheader : writeHeader mode (mode.countBits v) payload.length s = .ok () _ :=
      writeHeader_eq (mode.countBits_pos v) hcount
    rw [writeSegment, bind_of_ok hheader] at h
    obtain ⟨p, b', he, hstop⟩ := stopsAt_of_error h
    cases he
    refine ⟨p, _, hheader, hstop, fun hs => ?_⟩
    have hindicator := hs.appendBits mode.indicator Mode.indicatorBits
    rw [hstop.toBits_eq (hindicator.appendBits _ _), BitString.toBits_appendBits hindicator,
      BitString.toBits_appendBits hs, List.append_assoc, List.append_assoc]
    rfl
  · rw [writeSegment_overflow hcount] at h
    cases h

/-! ### All failures -/

/-- What writing to a bit string leaves behind when it fails. -/
structure PartialWriting (mode : Mode) (payload : List UInt8) (s : BitString) : Prop where
  /-- A payload fails exactly when the mode does not have all its bytes. -/
  payload_fails : (∃ e t, writePayload mode payload s = .error e t) ↔ ∃ b ∈ payload, mode.contains b = false
  /-- It then stops at the first such byte. -/
  payload_stops : ∀ e t, writePayload mode payload s = .error e t →
    ∃ p b, e = .invalidCharacter b ∧ StopsAt mode payload s p b t
  /-- What is left are the bits from before and those of the whole chunks. -/
  payload_bits : ∀ p b t, StopsAt mode payload s p b t → s.WellFormed →
    t.toBits = s.toBits ++ mode.payloadBits (payload.take (p - p % mode.chunkSize))
  /-- A header fails exactly when its field has no width or cannot hold the count. -/
  header_fails : ∀ width count, (∃ e t, writeHeader mode width count s = .error e t) ↔
    width = 0 ∨ 2 ^ width ≤ count
  /-- It then leaves the bit string as it was. -/
  header_stops : ∀ width count e t, writeHeader mode width count s = .error e t →
    t = s ∧ e = if width = 0 then .malformed .zeroWidthCount else .countOverflow count width
  /-- A segment fails at a character when its count fits and a byte is foreign. -/
  segment_fails : ∀ v, (∃ b t, writeSegment mode v payload s = .error (.invalidCharacter b) t) ↔
    payload.length < 2 ^ mode.countBits v ∧ ∃ b ∈ payload, mode.contains b = false
  /-- Its header is then whole, and its payload stops at the first foreign byte. -/
  segment_stops : ∀ v b t, writeSegment mode v payload s = .error (.invalidCharacter b) t →
    ∃ p header, writeHeader mode (mode.countBits v) payload.length s = .ok () header ∧
      StopsAt mode payload header p b t ∧ (s.WellFormed → t.toBits = s.toBits ++
        (bitsOf mode.indicator 4 ++ (bitsOf payload.length (mode.countBits v) ++
          mode.payloadBits (payload.take (p - p % mode.chunkSize)))))

/-- **A failed writing leaves whole chunks behind**, in chunks of three bytes or of two, on any
bit string: no bit of the failing chunk is written, nor any bit of a header that fails. -/
theorem partialWriting (mode : Mode) (payload : List UInt8) (s : BitString) :
    Mode.numeric.chunkSize = 3 ∧ Mode.alphanumeric.chunkSize = 2 ∧ PartialWriting mode payload s :=
  ⟨rfl, rfl, writePayload_fails_iff, fun _ _ => stopsAt_of_error, fun _ _ _ h hs => h.toBits_eq hs,
    fun _ _ => writeHeader_error_iff, fun _ _ _ _ => writeHeader_error, fun _ => writeSegment_fails_iff,
    fun _ _ _ => writeSegment_stops⟩

/-- Four digits and a letter behind three bits: three of the digits are written. -/
theorem partialWriting_letter :
    ∃ t, writePayload .numeric [0x31, 0x32, 0x33, 0x34, 0x58] (BitString.empty.appendBits 5 3) =
        .error (.invalidCharacter 0x58) t ∧ t.toBits = bitsOf 5 3 ++ bitsOf 123 10 := by
  obtain ⟨-, -, h⟩ := partialWriting .numeric [0x31, 0x32, 0x33, 0x34, 0x58] (BitString.empty.appendBits 5 3)
  obtain ⟨e, t, herror⟩ := h.payload_fails.2 ⟨0x58, by decide, by decide⟩
  obtain ⟨p, b, rfl, hstop⟩ := h.payload_stops e t herror
  have hbits := h.payload_bits p b t hstop (BitString.wellFormed_empty.appendBits 5 3)
  have hp : p < 5 := (List.getElem?_eq_some_iff.1 hstop.byte).1
  have hnone : ([0x31, 0x32, 0x33, 0x34, 0x58][p]?).map Mode.numeric.contains = some false := by
    rw [hstop.byte, Option.map_some, hstop.foreign]
  -- no digit is foreign, so the byte is the letter
  have hletter : ∀ p < 5,
      ([0x31, 0x32, 0x33, 0x34, 0x58][p]?).map Mode.numeric.contains = some false → p = 4 := by decide
  obtain rfl := hletter p hp hnone
  obtain rfl : 0x58 = b := Option.some.inj hstop.byte
  refine ⟨t, herror, ?_⟩
  rw [hbits, BitString.toBits_appendBits BitString.wellFormed_empty]
  decide +kernel

end QRCode
