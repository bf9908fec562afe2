/-
# Segments are read back

`push_segment`, against a reader.

The tables of the format describe what is written: a reader that follows them reads
every list of bits as the reader of `QRCode.SegmentReader` does (`parseSegment_eq`).
Writing a segment succeeds exactly when its count fits in its field and the mode has
all its bytes (`writeSegment_ok_iff`); then what was appended has the length that the
sizing rules count and is read back, whatever stood before it and whatever follows
(`appends_of_writeSegment`).  So no two payloads are encoded alike.
-/

import QRCode.Proofs.Encoding
import QRCode.SegmentFormat

namespace QRCode

/-! ### The tables -/

namespace Grouping

variable {mode : Mode} {g : Grouping}

/-- The largest group of the tables is the chunk of the mode. -/
theorem largest_ofMode (mode : Mode) : (ofMode mode).largest = mode.chunkSize := by cases mode <;> rfl

/-- The characters of the tables are as many as the base of the mode. -/
theorem length_characters_ofMode (mode : Mode) : (ofMode mode).characters.length = mode.base := by
  cases mode with
  | numeric => rfl
  | alphanumeric => rfl
  | byte => exact List.length_map .. |>.trans List.length_range

/-- They have the values that the mode gives them. -/
theorem getElem?_characters_ofMode (mode : Mode) (d : Nat) :
    (ofMode mode).characters[d]? = mode.character? d := by
  cases mode with
  | numeric => rfl
  | alphanumeric => rfl
  | byte =>
    show ((List.range 256).map UInt8.ofNat)[d]? = if d < 256 then some (UInt8.ofNat d) else none
    split <;> rename_i hd
    · rw [List.getElem?_map, List.getElem?_range hd]
      rfl
    · exact List.getElem?_eq_none (by simpa using hd)

/-- The widths of the tables are the packed lengths of the mode. -/
theorem getElem?_widths_ofMode {size : Nat} (hpos : 0 < size) (hsize : size ≤ mode.chunkSize) :
    (ofMode mode).widths[size - 1]? = some (mode.packedLength size) := by
  have key : ∀ k ≤ mode.chunkSize, 0 < k → (ofMode mode).widths[k - 1]? = some (mode.packedLength k) := by
    cases mode <;> decide
  exact key size hsize hpos

/-- Characters are found as a chunk is unpacked. -/
theorem spell_ofMode (mode : Mode) (k n : Nat) : (ofMode mode).spell k n = mode.unpackChunk k n := by
  induction k generalizing n with
  | zero => rfl
  | succ k ih =>
    rw [spell, Mode.unpackChunk, length_characters_ofMode, ih, getElem?_characters_ofMode]

/-- The first group is as large as can be. -/
theorem sizes_of_pos (hlargest : 0 < g.largest) {count : Nat} (hcount : 0 < count) :
    g.sizes count = min count g.largest :: g.sizes (count - min count g.largest) := by
  rcases Nat.lt_or_ge count g.largest with hlt | hge
  · have hnone : g.sizes 0 = [] := by simp [sizes]
    rw [Nat.min_eq_left (Nat.le_of_lt hlt), Nat.sub_self, hnone, sizes, Nat.div_eq_of_lt hlt, Nat.mod_eq_of_lt hlt,
      if_neg (by omega)]
    rfl
  · obtain ⟨rest, rfl⟩ := Nat.exists_eq_add_of_le hge
    rw [Nat.min_eq_right hge, Nat.add_sub_cancel_left, sizes, sizes, Nat.add_div_left _ hlargest,
      Nat.add_mod_left, List.replicate_succ]
    rfl

/-- **Groups are read as chunks are.** -/
theorem read_ofMode (mode : Mode) (count : Nat) (bits : List Bool) :
    (ofMode mode).read ((ofMode mode).sizes count) bits = readCharacters mode count bits := by
  have hlargest : 0 < (ofMode mode).largest := by
    rw [largest_ofMode]
    exact mode.chunkSize_pos
  induction count using Nat.strong_induction_on generalizing bits with
  | _ count ih =>
    rw [readCharacters]
    split
    · rename_i hzero
      subst hzero
      simp [sizes, read]
    · rename_i hcount
      have hpos : 0 < min count mode.chunkSize := by
        have := mode.chunkSize_pos
        omega
      rw [sizes_of_pos hlargest (Nat.pos_of_ne_zero hcount), largest_ofMode, read,
        getElem?_widths_ofMode hpos (Nat.min_le_right ..)]
      simp only [Option.bind_eq_bind, Option.bind_some, spell_ofMode]
      simp only [ih (count - min count mode.chunkSize) (by omega)]

end Grouping

/-- Indicators are read as numbers. -/
theorem parseMode_eq (bits : List Bool) :
    parseMode bits = (takeNumber Mode.indicatorBits bits).bind fun e =>
      (Mode.ofIndicator? e.1).map fun mode => (mode, e.2) := by
  rcases bits with _ | ⟨a, _ | ⟨b, _ | ⟨c, _ | ⟨d, rest⟩⟩⟩⟩
  · rfl
  · cases a <;> rfl
  · cases a <;> cases b <;> rfl
  · cases a <;> cases b <;> cases c <;> rfl
  · have htake : takeNumber Mode.indicatorBits (a :: b :: c :: d :: rest) =
        some (numberOf [a, b, c, d], rest) := by
      rw [takeNumber, if_pos (by simp [Mode.indicatorBits])]
      rfl
    rw [htake]
    cases a <;> cases b <;> cases c <;> cases d <;> rfl

/-- **Both readers of segments read the same.** -/
theorem parseSegment_eq (v : Version) (bits : List Bool) : parseSegment v bits = readSegment v bits := by
  rw [parseSegment, readSegment, parseMode_eq]
  simp only [Grouping.read_ofMode]
  cases takeNumber Mode.indicatorBits bits with
  | none => rfl
  | some e =>
    simp only [Option.bind_some, Option.bind_eq_bind]
    cases Mode.ofIndicator? e.1 <;> rfl

/-! ### What can be written -/

variable {mode : Mode} {v : Version} {payload : List UInt8} {s t : BitString}

/-- Only bytes that the mode has are packed. -/
theorem Mode.contains_of_packChunk {chunk : List UInt8} {n : Nat} (h : mode.packChunk chunk = .ok n) :
    ∀ b ∈ chunk, mode.contains b = true := by
  induction chunk using List.reverseRecOn generalizing n with
  | nil =>
    intro b hb
    cases hb
  | append_singleton front last ih =>
    rw [packChunk_append_singleton] at h
    cases hm : mode.packChunk front with
    | error e => rw [hm] at h; cases h
    | ok m =>
      cases hd : mode.digit last with
      | error e => rw [hm, hd] at h; cases h
      | ok d =>
        intro b hb
        rcases List.mem_append.1 hb with hb | hb
        · exact ih hm b hb
        · rw [List.mem_singleton.1 hb, contains_iff, digit_eq_ok.1 hd]
          rfl

/-- Chunks that were written have only characters of the mode. -/
theorem contains_of_writeChunks {cs : List (List UInt8)} (h : writeChunks mode cs s = .ok () t) :
    ∀ chunk ∈ cs, ∀ b ∈ chunk, mode.contains b = true := by
  induction cs generalizing s with
  | nil =>
    intro chunk hchunk
    cases hchunk
  | cons first cs ih =>
    rw [writeChunks] at h
    cases hn : mode.packChunk first with
    | error e => rw [hn] at h; cases h
    | ok n =>
      rw [hn] at h
      intro chunk hchunk
      rcases List.mem_cons.1 hchunk with rfl | hchunk
      · exact Mode.contains_of_packChunk hn
      · exact ih h chunk hchunk

/-- **When a segment is written**: its count fits in its field, and the mode has all its
bytes. -/
theorem writeSegment_ok_iff (hs : s.WellFormed) :
    (∃ t, writeSegment mode v payload s = .ok () t) ↔
      payload.length < 2 ^ mode.countBits v ∧ ∀ b ∈ payload, mode.contains b = true := by
  constructor
  · rintro ⟨t, h⟩
    rcases Nat.lt_or_ge payload.length (2 ^ mode.countBits v) with hcount | hcount
    · refine ⟨hcount, fun b hb => ?_⟩
      rw [writeSegment, bind_of_ok (writeHeader_eq (mode.countBits_pos v) hcount)] at h
      rw [← chunks_flatten mode.chunkSize payload] at hb
      obtain ⟨chunk, hchunk, hb⟩ := List.mem_flatten.1 hb
      exact contains_of_writeChunks h chunk hchunk b hb
    · rw [writeSegment_overflow hcount] at h
      cases h
  · rintro ⟨hcount, hbytes⟩
    obtain ⟨t, hrun, -⟩ := writeSegment_eq hs hcount hbytes
    exact ⟨t, hrun⟩

/-- What is written when a segment is. -/
theorem toBits_of_writeSegment (hs : s.WellFormed) (h : writeSegment mode v payload s = .ok () t) :
    t.toBits = s.toBits ++ mode.segment v payload := by
  obtain ⟨hcount, hbytes⟩ := (writeSegment_ok_iff hs).1 ⟨t, h⟩
  obtain ⟨t', hrun, -, hbits⟩ := writeSegment_eq hs hcount hbytes
  rw [hrun] at h
  cases h
  exact hbits

/-! ### Round trips -/

/-- A bit string `t` is `s` with a segment behind it. -/
structure AppendsSegment (s t : BitString) (v : Version) (mode : Mode) (payload : List UInt8) : Prop where
  length_eq : t.length = s.length + (4 + mode.countBits v + mode.packedLength payload.length)
  before : t.toBits.take s.length = s.toBits
  parsed : ∀ rest, parseSegment v (t.toBits.drop s.length ++ rest) = some ((mode, payload), rest)

/-- **A segment that was written is read back.** -/
theorem appends_of_writeSegment (hs : s.WellFormed) (h : writeSegment mode v payload s = .ok () t) :
    AppendsSegment s t v mode payload := by
  obtain ⟨hcount, hbytes⟩ := (writeSegment_ok_iff hs).1 ⟨t, h⟩
  have hbits := toBits_of_writeSegment hs h
  have hlen := congrArg List.length hbits
  rw [List.length_append, BitString.length_toBits, BitString.length_toBits, Mode.length_segment] at hlen
  refine ⟨hlen, ?_, fun rest => ?_⟩
  · rw [hbits, List.take_left' s.length_toBits]
  · rw [hbits, List.drop_left' s.length_toBits, parseSegment_eq, readSegment_segment hcount hbytes]

/-- A payload that is encoded has a count that fits in its field, and bytes that the mode has. -/
theorem writable_of_encodeIn {level : Level} {stream : BitString}
    (h : (encodeIn v level mode payload).result = .ok stream) :
    payload.length < 2 ^ mode.countBits v ∧ ∀ b ∈ payload, mode.contains b = true := by
  refine (writeSegment_ok_iff BitString.wellFormed_empty).1 ?_
  cases hrun : writeSegment mode v payload .empty with
  | ok _ t => exact ⟨t, rfl⟩
  | error e t =>
    rw [encodeIn, Traced.ofProgram_of_error hrun] at h
    cases h

/-- An encoding begins with the segment of its payload. -/
theorem parseSegment_of_encodeIn {level : Level} {stream : BitString}
    (h : (encodeIn v level mode payload).result = .ok stream) :
    ∃ rest, parseSegment v stream.toBits = some ((mode, payload), rest) := by
  obtain ⟨hcount, hbytes⟩ := writable_of_encodeIn h
  rw [encodeIn_eq hbytes] at h
  split at h
  · obtain rfl := Except.ok.inj h
    rw [(BitString.wellFormed_ofBits _).2, parseSegment_eq, dataStream, readSegment_segment hcount hbytes]
    exact ⟨_, rfl⟩
  · split at h <;> cases h

/-- **Segments are read back.**  A segment is written behind a bit string exactly when its
count fits in its field and the mode has all its bytes.  It appends an indicator, a count
and the packed payload, keeps what stood before, and is read back by the tables of the
format whatever follows.  So the encodings of a version at a level tell modes and payloads
apart. -/
theorem segments_roundTrip (v : Version) :
    (∀ (mode : Mode) (payload : List UInt8) (s : BitString), s.WellFormed →
      ((∃ t, writeSegment mode v payload s = .ok () t) ↔
        payload.length < 2 ^ mode.countBits v ∧ ∀ b ∈ payload, mode.contains b = true) ∧
      ∀ t, writeSegment mode v payload s = .ok () t → AppendsSegment s t v mode payload) ∧
    ∀ (level : Level) (mode mode' : Mode) (payload payload' : List UInt8) (stream : BitString),
      (encodeIn v level mode payload).result = .ok stream →
      (encodeIn v level mode' payload').result = .ok stream → mode = mode' ∧ payload = payload' := by
  constructor
  · intro mode payload s hs
    exact ⟨writeSegment_ok_iff hs, fun t h => appends_of_writeSegment hs h⟩
  · intro level mode mode' payload payload' stream h h'
    obtain ⟨rest, hparse⟩ := parseSegment_of_encodeIn h
    obtain ⟨rest', hparse'⟩ := parseSegment_of_encodeIn h'
    rw [hparse] at hparse'
    cases hparse'
    exact ⟨rfl, rfl⟩

/-- The digits `42` behind three other bits. -/
theorem segments_roundTrip_digits :
    ∃ t, writeSegment .numeric (.ofIndex 0) [0x34, 0x32] (.ofBits [true, false, true]) = .ok () t ∧
      AppendsSegment (.ofBits [true, false, true]) t (.ofIndex 0) .numeric [0x34, 0x32] := by
  obtain ⟨hok, happends⟩ := (segments_roundTrip (.ofIndex 0)).1 .numeric [0x34, 0x32]
    (.ofBits [true, false, true]) (BitString.wellFormed_ofBits _).1
  have hdigits : [0x34, 0x32].all Mode.numeric.contains = true := by decide
  obtain ⟨t, ht⟩ := hok.2 ⟨by decide, List.all_eq_true.1 hdigits⟩
  exact ⟨t, ht, happends t ht⟩

end QRCode
