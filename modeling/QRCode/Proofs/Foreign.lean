/-
# Bytes that a mode does not have

`encode_with_version`, with a payload that its mode cannot pack.

A byte that a mode does not have is found while its chunk is packed, wherever in the chunk
it stands, and ends the writing there.  The first such byte of a payload (`Mode.foreign?`)
lies in the first chunk with any, so it is the byte that is reported, and the bit string is
left with the chunks before (`writeChunks_foreign`).

A payload can be refused for three reasons.  They are found in this order:

| reason | found while |
| --- | --- |
| the count is too large for its field | the header is written |
| a byte is foreign to the mode | the payload is packed |
| the segment is longer than the data codewords | it is filled up |

and nothing else goes wrong (`encodeIn_outcome`).
-/

import QRCode.Proofs.Segments

namespace QRCode
namespace Mode

/-- The first byte of a payload that a mode does not have. -/
def foreign? (mode : Mode) (payload : List UInt8) : Option UInt8 :=
  payload.find? fun b => !mode.contains b

variable {mode : Mode} {payload : List UInt8} {b : UInt8}

/-- No byte is foreign when the mode has all of them. -/
theorem foreign?_eq_none : mode.foreign? payload = none ↔ ∀ b ∈ payload, mode.contains b = true := by
  simp only [foreign?, List.find?_eq_none, Bool.not_eq_true', Bool.not_eq_false]

/-- A foreign byte comes first when the mode has all the bytes before it. -/
theorem foreign?_eq_some :
    mode.foreign? payload = some b ↔ mode.contains b = false ∧
      ∃ before after, payload = before ++ b :: after ∧ ∀ c ∈ before, mode.contains c = true := by
  simp only [foreign?, List.find?_eq_some_iff_append, Bool.not_eq_true', Bool.not_eq_false']

/-- A foreign byte of the front comes before one behind it. -/
theorem foreign?_append (payload payload' : List UInt8) :
    mode.foreign? (payload ++ payload') = (mode.foreign? payload).or (mode.foreign? payload') :=
  List.find?_append

/-- A byte that the mode does not have is no digit. -/
theorem digit_of_foreign (h : mode.contains b = false) : mode.digit b = .error (.invalidCharacter b) := by
  rw [contains_iff, Option.isSome_eq_false_iff, Option.isNone_iff_eq_none] at h
  rw [digit, h]

/-- **The first foreign byte of a chunk is reported**, wherever it stands. -/
theorem packChunk_foreign {chunk : List UInt8} (h : mode.foreign? chunk = some b) :
    mode.packChunk chunk = .error (.invalidCharacter b) := by
  induction chunk using List.reverseRecOn with
  | nil => cases h
  | append_singleton front last ih =>
    rw [foreign?_append] at h
    rw [packChunk_append_singleton]
    cases hfront : mode.foreign? front with
    | some c =>
      rw [hfront] at h ih
      rw [ih h]
      rfl
    | none =>
      rw [hfront, Option.none_or, foreign?_eq_some] at h
      obtain ⟨hb, before, after, hlast, -⟩ := h
      obtain ⟨-, rfl, -⟩ : before = [] ∧ last = b ∧ after = [] := by
        cases before with
        | nil => simpa using hlast
        | cons c before => simp at hlast
      rw [packChunk_of_contains (foreign?_eq_none.1 hfront), digit_of_foreign hb]
      rfl

end Mode

variable {mode : Mode} {s : BitString} {b : UInt8}

/-- **Writing ends at the first foreign byte.**  The chunks before its own are written, and
nothing of its own chunk is. -/
theorem writeChunks_foreign {cs : List (List UInt8)}
    (h : mode.foreign? cs.flatten = some b) :
    ∃ before chunk after t, cs = before ++ chunk :: after ∧ mode.foreign? chunk = some b ∧
      writeChunks mode before s = .ok () t ∧
      writeChunks mode cs s = .error (.invalidCharacter b) t := by
  induction cs generalizing s with
  | nil => cases h
  | cons first cs ih =>
    cases hfirst : mode.foreign? first with
    | some c =>
      rw [List.flatten_cons, Mode.foreign?_append, hfirst, Option.some_or] at h
      cases h
      refine ⟨[], first, cs, s, rfl, hfirst, rfl, ?_⟩
      rw [writeChunks, Mode.packChunk_foreign hfirst]
    | none =>
      rw [List.flatten_cons, Mode.foreign?_append, hfirst, Option.none_or] at h
      have hpack := Mode.packChunk_of_contains (Mode.foreign?_eq_none.1 hfirst)
      obtain ⟨before, chunk, after, t, rfl, hchunk, hbefore, hrun⟩ := ih (s := s.appendBits _ _) h
      refine ⟨first :: before, chunk, after, t, rfl, hchunk, ?_, ?_⟩
      · rw [writeChunks, hpack]
        exact hbefore
      · rw [writeChunks, hpack]
        exact hrun

/-! ### The outcome of encoding -/

variable {v : Version} {level : Level} {payload : List UInt8}

/-- A segment whose count fits in its field ends at the first foreign byte. -/
theorem writeSegment_foreign (hcount : payload.length < 2 ^ mode.countBits v)
    (h : mode.foreign? payload = some b) :
    ∃ t, writeSegment mode v payload s = .error (.invalidCharacter b) t := by
  have hheader : writeHeader mode (mode.countBits v) payload.length s = .ok () _ :=
    writeHeader_eq (mode.countBits_pos v) hcount
  rw [← chunks_flatten mode.chunkSize payload] at h
  obtain ⟨-, -, -, t, -, -, -, hrun⟩ := writeChunks_foreign h
  exact ⟨t, (bind_of_ok hheader).trans hrun⟩

/-- What comes of encoding a payload in a mode for a version at a level. -/
structure EncodingOutcome (v : Version) (level : Level) (mode : Mode) (payload : List UInt8) : Prop where
  /-- First the count has to fit in its field. -/
  overflow : 2 ^ mode.countBits v ≤ payload.length →
    (encodeIn v level mode payload).result =
      .error (.countOverflow payload.length (mode.countBits v))
  /-- Then the first byte that the mode does not have is reported. -/
  foreign : payload.length < 2 ^ mode.countBits v →
    ∀ before b after, payload = before ++ b :: after → (∀ c ∈ before, mode.contains c = true) →
      mode.contains b = false → (encodeIn v level mode payload).result = .error (.invalidCharacter b)
  /-- Then the segment has to fit in the data codewords. -/
  tooLong : payload.length < 2 ^ mode.countBits v → (∀ b ∈ payload, mode.contains b = true) →
    8 * v.dataCodewords level < 4 + mode.countBits v + mode.packedLength payload.length →
      (encodeIn v level mode payload).result = .error .capacityExceeded
  /-- A payload without a fault fills them. -/
  filled : payload.length < 2 ^ mode.countBits v → (∀ b ∈ payload, mode.contains b = true) →
    4 + mode.countBits v + mode.packedLength payload.length ≤ 8 * v.dataCodewords level →
      ∃ s, (encodeIn v level mode payload).result = .ok s ∧ s.WellFormed ∧ s.isAligned = true ∧
        s.length = 8 * v.dataCodewords level
  /-- The bit string never has the wrong shape. -/
  wellShaped : ∀ fault, (encodeIn v level mode payload).result ≠ .error (.malformed fault)

/-- **A count that is too large is found first**, whatever the bytes are. -/
theorem encodeIn_overflow (h : 2 ^ mode.countBits v ≤ payload.length) :
    (encodeIn v level mode payload).result =
      .error (.countOverflow payload.length (mode.countBits v)) := by
  rw [encodeIn, Traced.ofProgram_of_error (writeSegment_overflow h)]
  rfl

/-- **A foreign byte is found next**, whatever the length is. -/
theorem encodeIn_foreign (hcount : payload.length < 2 ^ mode.countBits v)
    (h : mode.foreign? payload = some b) :
    (encodeIn v level mode payload).result = .error (.invalidCharacter b) := by
  obtain ⟨t, hrun⟩ := writeSegment_foreign (s := .empty) hcount h
  rw [encodeIn, Traced.ofProgram_of_error hrun]
  rfl

/-- Data codewords are whole bytes. -/
theorem isAligned_of_length {t : BitString} {codewords : Nat} (h : t.length = 8 * codewords) :
    t.isAligned = true := by
  rw [BitString.isAligned, h, Nat.mul_mod_right]
  rfl

/-- **The outcome of encoding**, in any mode: the count, the bytes and the length are
tested in this order, and a payload that passes fills the data codewords. -/
theorem encodeIn_outcome (v : Version) (level : Level) (mode : Mode) (payload : List UInt8) :
    EncodingOutcome v level mode payload where
  overflow h := encodeIn_overflow h
  foreign hcount before b after hpayload hbefore hb :=
    encodeIn_foreign hcount (Mode.foreign?_eq_some.2 ⟨hb, before, after, hpayload, hbefore⟩)
  tooLong hcount hbytes hlong := by
    have hfit : ¬Sizing.segmentBits mode v payload.length ≤ v.dataBits level := Nat.not_le.2 hlong
    rw [encodeIn_eq hbytes, if_neg hfit, if_neg (by omega)]
  filled hcount hbytes hfit := by
    have hfit : Sizing.segmentBits mode v payload.length ≤ v.dataBits level := hfit
    have hlength := (BitString.length_ofBits _).trans (length_dataStream hfit)
    refine ⟨_, ?_, (BitString.wellFormed_ofBits _).1, isAligned_of_length hlength, hlength⟩
    rw [encodeIn_eq hbytes, if_pos hfit]
  wellShaped fault herror := by
    rcases Nat.lt_or_ge payload.length (2 ^ mode.countBits v) with hcount | hcount
    · cases hforeign : mode.foreign? payload with
      | some b =>
        rw [encodeIn_foreign hcount hforeign] at herror
        cases herror
      | none =>
        rw [encodeIn_eq (Mode.foreign?_eq_none.1 hforeign)] at herror
        split at herror
        · cases herror
        · split at herror <;> cases herror
    · rw [encodeIn_overflow hcount] at herror
      cases herror

end QRCode
