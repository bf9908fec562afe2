/-
# What a segment spells

`push_header` and `push_segment`.

A segment is the list of bits `Mode.segment`: the indicator of the mode, the
character count, and one number for each chunk (`Mode.payloadBits`).  Writing a
segment appends these bits and no others (`writeSegment_eq`), they are as many as
the sizing rules count (`Mode.length_segment`), and reading takes them apart again
whatever follows them (`readSegment_segment`).
-/

import QRCode.Proofs.Bytes
import Mathlib.Algebra.Ring.Nat
import Mathlib.Data.List.Induction

namespace QRCode

/-! ### Programs with a state -/

section Programs

variable {σ α β : Type} {program : EStateM Error σ α} {next : α → EStateM Error σ β} {s t : σ}

/-- What follows a program starts where the program ended. -/
theorem bind_of_ok {a : α} (h : program s = .ok a t) : (program >>= next) s = next a t := by
  show EStateM.bind program next s = _
  rw [EStateM.bind, h]

/-- Nothing follows a program that failed. -/
theorem bind_of_error {e : Error} (h : program s = .error e t) :
    (program >>= next) s = .error e t := by
  show EStateM.bind program next s = _
  rw [EStateM.bind, h]

end Programs

namespace Mode

/-- The number that a chunk is packed as, `0` where the mode cannot pack it. -/
def chunkValue (mode : Mode) (chunk : List UInt8) : Nat := (mode.packChunk chunk).toOption.getD 0

/-- The bits of a chunk. -/
def chunkBits (mode : Mode) (chunk : List UInt8) : List Bool :=
  bitsOf (mode.chunkValue chunk) (mode.packedLength chunk.length)

/-- The bits of a payload, chunk by chunk. -/
def payloadBits (mode : Mode) (payload : List UInt8) : List Bool :=
  (chunks mode.chunkSize payload).flatMap mode.chunkBits

/-- The bits of a segment. -/
def segment (mode : Mode) (v : Version) (payload : List UInt8) : List Bool :=
  bitsOf mode.indicator indicatorBits ++
    (bitsOf payload.length (mode.countBits v) ++ mode.payloadBits payload)

/-- No chunk is empty. -/
theorem chunkSize_pos (mode : Mode) : 0 < mode.chunkSize := by cases mode <;> decide

/-- Every count has a field. -/
theorem countBits_pos (mode : Mode) (v : Version) : 0 < mode.countBits v := by
  revert v; cases mode <;> decide

/-- The indicator of a mode fits in its four bits. -/
theorem indicator_lt (mode : Mode) : mode.indicator < 2 ^ indicatorBits := by cases mode <;> decide

/-- Indicators tell modes apart. -/
theorem ofIndicator?_indicator (mode : Mode) : ofIndicator? mode.indicator = some mode := by
  cases mode <;> rfl

/-! ### Characters and their values -/

/-- What is found at a place stands there. -/
theorem getElem?_of_idxOf? {xs : List UInt8} {b : UInt8} {d : Nat} (h : xs.idxOf? b = some d) :
    xs[d]? = some b := by
  obtain ⟨hd, hb, -⟩ := List.idxOf?_eq_some_iff.1 h
  rw [List.getElem?_eq_getElem hd, hb]

/-- The value of a character names the character. -/
theorem character?_of_digit? {mode : Mode} {b : UInt8} {d : Nat} (h : mode.digit? b = some d) :
    mode.character? d = some b := by
  cases mode with
  | numeric => exact getElem?_of_idxOf? h
  | alphanumeric => exact getElem?_of_idxOf? h
  | byte =>
    obtain rfl := Option.some.inj h
    show (if b.toNat < 256 then _ else _) = _
    rw [if_pos b.toNat_lt, UInt8.ofNat_toNat]

/-- A byte is read as a digit when the mode gives it a value. -/
theorem digit_eq_ok {mode : Mode} {b : UInt8} {d : Nat} :
    mode.digit b = .ok d ↔ mode.digit? b = some d := by
  unfold digit
  split
  · rename_i d' hd
    rw [hd, Except.ok.injEq, Option.some.injEq]
  · rename_i hd
    rw [hd]
    constructor <;> intro h <;> cases h

/-- A byte that the mode has is a digit. -/
theorem exists_digit {mode : Mode} {b : UInt8} (h : mode.contains b = true) :
    ∃ d, mode.digit b = .ok d := by
  rw [contains_iff] at h
  obtain ⟨d, hd⟩ := Option.isSome_iff_exists.1 h
  exact ⟨d, digit_eq_ok.2 hd⟩

/-! ### Chunks and their numbers -/

/-- One character more is one digit more. -/
theorem packChunk_append_singleton (mode : Mode) (front : List UInt8) (b : UInt8) :
    mode.packChunk (front ++ [b]) =
      (mode.packChunk front).bind fun n => (mode.digit b).bind fun d => .ok (n * mode.base + d) := by
  unfold packChunk
  rw [List.foldlM_append]
  simp only [List.foldlM_cons, List.foldlM_nil, bind_pure]
  rfl

/-- Bytes that the mode has are packed. -/
theorem packChunk_of_contains {mode : Mode} {chunk : List UInt8}
    (h : ∀ b ∈ chunk, mode.contains b = true) : mode.packChunk chunk = .ok (mode.chunkValue chunk) := by
  have key : ∃ n, mode.packChunk chunk = .ok n := by
    induction chunk using List.reverseRecOn with
    | nil => exact ⟨0, rfl⟩
    | append_singleton front b ih =>
      obtain ⟨n, hn⟩ := ih fun c hc => h c (List.mem_append_left _ hc)
      obtain ⟨d, hd⟩ := exists_digit (h b (List.mem_append_right _ (List.mem_singleton_self b)))
      rw [packChunk_append_singleton, hn, hd]
      exact ⟨_, rfl⟩
  obtain ⟨n, hn⟩ := key
  rw [chunkValue, hn]
  rfl

/-- **A number is unpacked to the chunk that it was packed from.** -/
theorem unpackChunk_of_packChunk {mode : Mode} {chunk : List UInt8} {n : Nat}
    (h : mode.packChunk chunk = .ok n) : mode.unpackChunk chunk.length n = some chunk := by
  induction chunk using List.reverseRecOn generalizing n with
  | nil =>
    obtain rfl := Except.ok.inj h
    rfl
  | append_singleton front b ih =>
    rw [packChunk_append_singleton] at h
    cases hm : mode.packChunk front with
    | error e => rw [hm] at h; cases h
    | ok m =>
      cases hd : mode.digit b with
      | error e => rw [hm, hd] at h; cases h
      | ok d =>
        rw [hm, hd] at h
        obtain rfl := Except.ok.inj h
        have hlt := digit_lt hd
        have hdiv : (m * mode.base + d) / mode.base = m := by
          rw [Nat.mul_comm, Nat.mul_add_div (by omega), Nat.div_eq_of_lt hlt, Nat.add_zero]
        have hmod : (m * mode.base + d) % mode.base = d := by
          rw [Nat.mul_comm, Nat.mul_add_mod, Nat.mod_eq_of_lt hlt]
        rw [List.length_append, List.length_singleton, unpackChunk, hdiv, hmod, ih hm,
          character?_of_digit? (digit_eq_ok.1 hd)]
        rfl

/-! ### Lengths -/

/-- A whole chunk takes as many bits as it adds to the length of the payload. -/
theorem packedLength_add_chunkSize (mode : Mode) (count : Nat) :
    mode.packedLength (mode.chunkSize + count) =
      mode.packedLength mode.chunkSize + mode.packedLength count := by
  cases mode <;> simp only [packedLength, chunkSize] <;> omega

/-- No characters take no bits. -/
theorem packedLength_zero (mode : Mode) : mode.packedLength 0 = 0 := by cases mode <;> rfl

/-- More characters take no fewer bits. -/
theorem packedLength_mono (mode : Mode) {a b : Nat} (h : a ≤ b) :
    mode.packedLength a ≤ mode.packedLength b := by
  cases mode <;> simp only [packedLength] <;> omega

/-- **Chunk after chunk, a payload takes its packed length.** -/
theorem length_payloadBits (mode : Mode) (payload : List UInt8) :
    (mode.payloadBits payload).length = mode.packedLength payload.length := by
  have hpos := mode.chunkSize_pos
  unfold payloadBits
  fun_induction chunks mode.chunkSize payload with
  | case1 => exact (packedLength_zero mode).symm
  | case2 x xs ih =>
    rw [List.flatMap_cons, List.length_append, ih, chunkBits, BitString.length_bitsOf,
      List.length_cons, List.length_take, List.length_drop, List.length_cons]
    rcases Nat.le_total mode.chunkSize (xs.length + 1) with hle | hle
    · have hfirst : min (mode.chunkSize - 1) xs.length + 1 = mode.chunkSize := by omega
      have hcount : xs.length + 1 = mode.chunkSize + (xs.length - (mode.chunkSize - 1)) := by omega
      rw [hfirst, hcount, packedLength_add_chunkSize]
    · have hfirst : min (mode.chunkSize - 1) xs.length + 1 = xs.length + 1 := by omega
      have hrest : xs.length - (mode.chunkSize - 1) = 0 := by omega
      rw [hfirst, hrest, packedLength_zero, Nat.add_zero]

/-- **A segment has the length that the sizing rules count.** -/
theorem length_segment (mode : Mode) (v : Version) (payload : List UInt8) :
    (mode.segment v payload).length = Sizing.segmentBits mode v payload.length := by
  rw [segment, List.length_append, List.length_append, BitString.length_bitsOf,
    BitString.length_bitsOf, length_payloadBits, Sizing.segmentBits, Nat.add_assoc]

end Mode

/-! ### Writing -/

variable {mode : Mode} {s : BitString}

/-- A header in a field that is wide enough. -/
theorem writeHeader_eq {width count : Nat} (hwidth : 0 < width) (hcount : count < 2 ^ width) :
    writeHeader mode width count s =
      .ok () ((s.appendBits mode.indicator Mode.indicatorBits).appendBits count width) := by
  rw [writeHeader, if_neg (by omega), if_neg (by omega)]

/-- A count that its field cannot hold leaves the bit string untouched. -/
theorem writeHeader_overflow {width count : Nat} (hwidth : 0 < width) (hcount : 2 ^ width ≤ count) :
    writeHeader mode width count s = .error (.countOverflow count width) s := by
  rw [writeHeader, if_neg (by omega), if_pos hcount]

/-- Chunks of bytes that the mode has are written, behind any bit string. -/
theorem exists_writeChunks {cs : List (List UInt8)}
    (h : ∀ b ∈ cs.flatten, mode.contains b = true) (s : BitString) :
    ∃ t, writeChunks mode cs s = .ok () t := by
  induction cs generalizing s with
  | nil => exact ⟨s, rfl⟩
  | cons chunk cs ih =>
    rw [List.flatten_cons] at h
    rw [writeChunks, Mode.packChunk_of_contains fun b hb => h b (List.mem_append_left _ hb)]
    exact ih (fun b hb => h b (List.mem_append_right _ hb)) _

/-- A payload whose bytes the mode has is written without an error. -/
theorem exists_writePayload {payload : List UInt8} (h : ∀ b ∈ payload, mode.contains b = true)
    (s : BitString) : ∃ t, writePayload mode payload s = .ok () t :=
  exists_writeChunks (by rwa [chunks_flatten]) s

/-- Chunks that the mode can pack append their bits one after the other. -/
theorem writeChunks_eq {cs : List (List UInt8)} (hs : s.WellFormed)
    (h : ∀ chunk ∈ cs, ∀ b ∈ chunk, mode.contains b = true) :
    ∃ t, writeChunks mode cs s = .ok () t ∧ t.WellFormed ∧
      t.toBits = s.toBits ++ cs.flatMap mode.chunkBits := by
  induction cs generalizing s with
  | nil => exact ⟨s, rfl, hs, by simp⟩
  | cons chunk cs ih =>
    have hchunk := Mode.packChunk_of_contains (h chunk List.mem_cons_self)
    obtain ⟨t, hrun, ht, hbits⟩ :=
      ih (hs.appendBits (mode.chunkValue chunk) (mode.packedLength chunk.length))
        fun c hc => h c (List.mem_cons_of_mem _ hc)
    refine ⟨t, ?_, ht, ?_⟩
    · rw [writeChunks, hchunk]
      exact hrun
    · rw [hbits, BitString.toBits_appendBits hs, List.flatMap_cons, List.append_assoc]
      rfl

/-- Chunks have no other bytes than the payload. -/
theorem contains_of_mem_chunks {payload : List UInt8} (h : ∀ b ∈ payload, mode.contains b = true) :
    ∀ chunk ∈ chunks mode.chunkSize payload, ∀ b ∈ chunk, mode.contains b = true := by
  intro chunk hchunk b hb
  refine h b ?_
  rw [← chunks_flatten mode.chunkSize payload]
  exact List.mem_flatten.2 ⟨chunk, hchunk, hb⟩

/-- **A segment is written as its bits.** -/
theorem writeSegment_eq {v : Version} {payload : List UInt8} (hs : s.WellFormed)
    (hcount : payload.length < 2 ^ mode.countBits v)
    (h : ∀ b ∈ payload, mode.contains b = true) :
    ∃ t, writeSegment mode v payload s = .ok () t ∧ t.WellFormed ∧
      t.toBits = s.toBits ++ mode.segment v payload := by
  have hheader := hs.appendBits mode.indicator Mode.indicatorBits
  obtain ⟨t, hrun, ht, hbits⟩ :=
    writeChunks_eq (hheader.appendBits payload.length (mode.countBits v)) (contains_of_mem_chunks h)
  refine ⟨t, ?_, ht, ?_⟩
  · exact (bind_of_ok (writeHeader_eq (mode.countBits_pos v) hcount)).trans hrun
  · rw [hbits, BitString.toBits_appendBits hheader, BitString.toBits_appendBits hs, Mode.segment,
      List.append_assoc, List.append_assoc]
    rfl

/-- A count that its field cannot hold is the only thing said about a segment. -/
theorem writeSegment_overflow {v : Version} {payload : List UInt8}
    (hcount : 2 ^ mode.countBits v ≤ payload.length) :
    writeSegment mode v payload s = .error (.countOverflow payload.length (mode.countBits v)) s :=
  bind_of_error (writeHeader_overflow (mode.countBits_pos v) hcount)

/-! ### Reading -/

/-- A number is taken from the front of its bits. -/
theorem takeNumber_bitsOf {value size : Nat} (h : value < 2 ^ size) (rest : List Bool) :
    takeNumber size (bitsOf value size ++ rest) = some (value, rest) := by
  have hlen := BitString.length_bitsOf value size
  rw [takeNumber, if_pos (by rw [List.length_append]; omega), List.take_left' hlen,
    List.drop_left' hlen, numberOf_bitsOf, Nat.mod_eq_of_lt h]

/-- The characters of a payload are read back. -/
theorem readCharacters_payloadBits {payload : List UInt8} (h : ∀ b ∈ payload, mode.contains b = true)
    (rest : List Bool) :
    readCharacters mode payload.length (mode.payloadBits payload ++ rest) = some (payload, rest) := by
  have hpos := mode.chunkSize_pos
  unfold Mode.payloadBits
  fun_induction chunks mode.chunkSize payload with
  | case1 => rw [List.length_nil, readCharacters, if_pos rfl]; rfl
  | case2 x xs ih =>
    have hchunk : ∀ b ∈ x :: xs.take (mode.chunkSize - 1), mode.contains b = true := by
      intro b hb
      rcases List.mem_cons.1 hb with rfl | hb
      · exact h b List.mem_cons_self
      · exact h b (List.mem_cons_of_mem _ (List.mem_of_mem_take hb))
    have hpack := Mode.packChunk_of_contains hchunk
    have hsize : (x :: xs.take (mode.chunkSize - 1)).length ≤ mode.chunkSize := by
      rw [List.length_cons, List.length_take]; omega
    have hk : min (xs.length + 1) mode.chunkSize = (x :: xs.take (mode.chunkSize - 1)).length := by
      rw [List.length_cons, List.length_take]; omega
    have hleft : xs.length + 1 - (x :: xs.take (mode.chunkSize - 1)).length =
        (xs.drop (mode.chunkSize - 1)).length := by
      rw [List.length_cons, List.length_take, List.length_drop]; omega
    have hrest := ih fun b hb => h b (List.mem_cons_of_mem _ (List.mem_of_mem_drop hb))
    have hfirst := takeNumber_bitsOf (Mode.packChunk_lt hsize hpack)
    rw [List.flatMap_cons, List.append_assoc, List.length_cons, readCharacters,
      if_neg (Nat.succ_ne_zero _), hk, Mode.chunkBits]
    simp only [hfirst, Option.bind_eq_bind, Option.bind_some, Mode.unpackChunk_of_packChunk hpack, hleft,
      hrest]
    rw [List.cons_append, List.take_append_drop]
    rfl

/-- **A segment is read back**, and the bits after it are left alone. -/
theorem readSegment_segment {v : Version} {payload : List UInt8}
    (hcount : payload.length < 2 ^ mode.countBits v)
    (h : ∀ b ∈ payload, mode.contains b = true) (rest : List Bool) :
    readSegment v (mode.segment v payload ++ rest) = some ((mode, payload), rest) := by
  rw [readSegment, Mode.segment, List.append_assoc, List.append_assoc,
    takeNumber_bitsOf mode.indicator_lt]
  simp only [Option.bind_eq_bind, Option.bind_some, mode.ofIndicator?_indicator,
    takeNumber_bitsOf hcount, readCharacters_payloadBits h]
  rfl

end QRCode
