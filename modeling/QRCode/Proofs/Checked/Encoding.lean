/-
# Encoding with every precondition checked

`encode_with_version` with its assertions, on machine words.

The functions of the library are total, and its numbers have no bounds.  On machine
words, arrays and slices a build would break off where a step has no meaning.  A
`Checked` computation tests before every such step, and ends with a `Fault` when the
test fails.  While a payload is encoded these are the steps:

| step | what is tested |
| --- | --- |
| the limit of a count field | it fits in 64 bits |
| packing a chunk | its length, and that its number fits in 16 bits |
| pushing bits | at most 32 of them, and the value fits in them |
| a subtraction | the result is not negative |

Subtractions right behind the comparison that guards them are not listed.  No test
ever fails: with the tests in place, encoding is still encoding (`encodeIn_eq`), in
any mode and for any payload.
-/

import QRCode.Proofs.Encoding

namespace QRCode

/-- The ways in which a step can have no meaning. -/
inductive Fault where
  /-- More than 32 bits are pushed at once. -/
  | wide (size : Nat)
  /-- A pushed value needs more bits than it is given. -/
  | long (value size : Nat)
  /-- Bytes are appended to a bit string that is not aligned. -/
  | unaligned
  /-- A chunk has too many characters. -/
  | chunk (length : Nat)
  /-- A difference is negative. -/
  | underflow (a b : Nat)
  /-- A number does not fit in a word. -/
  | overflow (bits value : Nat)
  /-- A table or list has no such place. -/
  | index (place length : Nat)
  /-- A range is longer than what it is taken from. -/
  | range (length whole : Nat)
  /-- Pieces of length zero. -/
  | emptyPieces
  /-- A copy between ranges of different lengths. -/
  | copy (source target : Nat)
  /-- A coordinate beyond the edges. -/
  | coordinate (x : Int) (width : Nat)
  /-- Version information of a version below `7`. -/
  | noVersionInfo (number : Nat)
  /-- A division by zero. -/
  | division
  deriving DecidableEq

/-- A computation that may end with an error, or with a fault. -/
abbrev Checked := ExceptT Error (Except Fault)

namespace Checked

variable {α β : Type}

/-- A computation without tests. -/
def lift (x : Except Error α) : Checked α := ExceptT.mk (.ok x)

/-- A test. -/
def require (p : Prop) [Decidable p] (fault : Fault) : Checked Unit :=
  if p then pure () else ExceptT.mk (.error fault)

/-- A difference of natural numbers. -/
def sub (a b : Nat) : Checked Nat := do
  require (b ≤ a) (.underflow a b)
  return a - b

/-- A number in a word of so many bits. -/
def word (bits n : Nat) : Checked Nat := do
  require (n < 2 ^ bits) (.overflow bits n)
  return n

/-- A test that holds is passed. -/
theorem require_eq {p : Prop} [Decidable p] (h : p) (fault : Fault) : require p fault = pure () :=
  if_pos h

/-- A difference that is not negative is a difference of natural numbers. -/
theorem sub_eq {a b : Nat} (h : b ≤ a) : sub a b = pure (a - b) := by
  rw [sub, require_eq h, pure_bind]

/-- A number that is small enough fits in a word. -/
theorem word_eq {bits n : Nat} (h : n < 2 ^ bits) : word bits n = pure n := by
  rw [word, require_eq h, pure_bind]

theorem lift_ok (a : α) : lift (.ok a) = pure a := rfl

theorem lift_error_bind (e : Error) (f : α → Checked β) : lift (.error e) >>= f = lift (.error e) := rfl

/-- Stages without faults make a computation without faults. -/
theorem lift_bind {x : Except Error α} {f : α → Except Error β} {g : α → Checked β}
    (h : ∀ a, x = .ok a → g a = lift (f a)) : lift x >>= g = lift (x >>= f) := by
  cases x with
  | error e => rfl
  | ok a => exact h a rfl

/-- Tests that all pass, one for each element of a list. -/
theorem forM_eq {l : List α} {test : α → Checked Unit} (h : ∀ a ∈ l, test a = pure ()) :
    l.forM test = pure () := by
  induction l with
  | nil => rfl
  | cons a l ih =>
    show (test a >>= fun _ => l.forM test) = _
    rw [h a List.mem_cons_self, pure_bind]
    exact ih fun b hb => h b (List.mem_cons_of_mem _ hb)

/-- A list whose every step has no faults is gone through without faults. -/
theorem foldlM_eq_lift {l : List β} {step : α → β → Checked α} {f : α → β → Except Error α}
    (h : ∀ b ∈ l, ∀ a, step a b = lift (f a b)) (a : α) : l.foldlM step a = lift (l.foldlM f a) := by
  induction l generalizing a with
  | nil => rfl
  | cons b l ih =>
    rw [List.foldlM_cons, List.foldlM_cons, h b List.mem_cons_self]
    exact lift_bind fun a' _ => ih (fun b' hb' => h b' (List.mem_cons_of_mem _ hb')) a'

/-! ### Bit strings -/

/-- Bits pushed to a bit string (`BitStream::push_bits`). -/
def push (value size : Nat) (s : BitString) : Checked BitString := do
  require (size ≤ 32) (.wide size)
  require (value < 2 ^ size) (.long value size)
  return s.appendBits value size

/-- Bytes pushed to a bit string, one by one. -/
def pushBytes : List UInt8 → BitString → Checked BitString
  | [], s => pure s
  | b :: bytes, s => do pushBytes bytes (← push b.toNat 8 s)

/-- Up to 32 bits can be pushed if they hold the value. -/
theorem push_eq {value size : Nat} (hsize : size ≤ 32) (hvalue : value < 2 ^ size) (s : BitString) :
    push value size s = pure (s.appendBits value size) := by
  rw [push, require_eq hsize, pure_bind, require_eq hvalue, pure_bind]

/-- Bytes can always be pushed. -/
theorem pushBytes_eq (bytes : List UInt8) (s : BitString) :
    pushBytes bytes s = pure (s.appendBytes bytes) := by
  induction bytes generalizing s with
  | nil => rfl
  | cons b bytes ih =>
    rw [pushBytes, push_eq (by decide) b.toNat_lt, pure_bind, ih]
    rfl

/-! ### Segments -/

/-- One more digit of a chunk. -/
def packDigit (mode : Mode) (n : Nat) (b : UInt8) : Checked Nat := do
  let d ← lift (mode.digit b)
  let shifted ← word 16 (n * mode.base)
  word 16 (shifted + d)

/-- A chunk as a number (`Mode::encode_chunk`). -/
def packChunk (mode : Mode) (chunk : List UInt8) : Checked Nat := do
  require (chunk.length ≤ mode.chunkSize) (.chunk chunk.length)
  chunk.foldlM (packDigit mode) 0

/-- The header of a segment (`push_header`). -/
def writeHeader (mode : Mode) (width count : Nat) (s : BitString) : Checked BitString :=
  if width = 0 then throw (.malformed .zeroWidthCount)
  else do
    let limit ← word 64 (2 ^ width)
    if limit ≤ count then throw (.countOverflow count width)
    else push count width (← push mode.indicator Mode.indicatorBits s)

/-- Chunks one after the other. -/
def writeChunks (mode : Mode) : List (List UInt8) → BitString → Checked BitString
  | [], s => pure s
  | chunk :: rest, s => do
    let value ← packChunk mode chunk
    writeChunks mode rest (← push value (mode.packedLength chunk.length) s)

/-- A whole segment (`push_segment`). -/
def writeSegment (mode : Mode) (v : Version) (payload : List UInt8) (s : BitString) :
    Checked BitString := do
  writeChunks mode (chunks mode.chunkSize payload)
    (← writeHeader mode (mode.countBits v) payload.length s)

/-- What a writer leaves behind, if it does not fail. -/
def written {σ : Type} (r : EStateM.Result Error σ α) : Except Error σ :=
  match r with
  | .ok _ s => .ok s
  | .error e _ => .error e

/-- As long as a chunk is not longer than it should be, its number stays in a word. -/
theorem foldlM_packDigit_eq {mode : Mode} {chunk : List UInt8} {n k : Nat} (hn : n < mode.base ^ k)
    (hlen : k + chunk.length ≤ mode.chunkSize) :
    chunk.foldlM (packDigit mode) n =
      lift (chunk.foldlM (fun n b => do return n * mode.base + (← mode.digit b)) n) := by
  induction chunk generalizing n k with
  | nil => rfl
  | cons b chunk ih =>
    rw [List.foldlM_cons, List.foldlM_cons]
    cases hd : mode.digit b with
    | error e =>
      rw [packDigit, hd, lift_error_bind]
      rfl
    | ok d =>
      have hdigit := Mode.digit_lt hd
      rw [List.length_cons] at hlen
      have hnext : n * mode.base + d < mode.base ^ (k + 1) := by
        have hmul : (n + 1) * mode.base ≤ mode.base ^ k * mode.base := Nat.mul_le_mul_right _ hn
        rw [Nat.add_mul, Nat.one_mul] at hmul
        rw [Nat.pow_succ]
        omega
      have hword : mode.base ^ (k + 1) ≤ 2 ^ 16 := by
        have key : ∀ j ≤ mode.chunkSize, mode.base ^ j ≤ 2 ^ 16 := by cases mode <;> decide
        exact key (k + 1) (by omega)
      have hstep : packDigit mode n b = pure (n * mode.base + d) := by
        rw [packDigit, hd, lift_ok, pure_bind, word_eq (by omega), pure_bind, word_eq (by omega)]
      rw [hstep, pure_bind]
      exact ih hnext (by omega)

/-- A chunk that is not too long is packed without faults. -/
theorem packChunk_eq {mode : Mode} {chunk : List UInt8} (hlen : chunk.length ≤ mode.chunkSize) :
    packChunk mode chunk = lift (mode.packChunk chunk) := by
  rw [packChunk, require_eq hlen, pure_bind]
  exact foldlM_packDigit_eq (k := 0) Nat.one_pos (by rwa [Nat.zero_add])

/-- The number of a chunk can be pushed in one go. -/
theorem packedLength_le {mode : Mode} {count : Nat} (h : count ≤ mode.chunkSize) :
    mode.packedLength count ≤ 32 := by
  have key : ∀ j ≤ mode.chunkSize, mode.packedLength j ≤ 32 := by cases mode <;> decide
  exact key count h

/-- Chunks that are not too long are written without faults. -/
theorem writeChunks_eq {mode : Mode} {pieces : List (List UInt8)}
    (h : ∀ chunk ∈ pieces, chunk.length ≤ mode.chunkSize) (s : BitString) :
    writeChunks mode pieces s = lift (written (QRCode.writeChunks mode pieces s)) := by
  induction pieces generalizing s with
  | nil => rfl
  | cons chunk pieces ih =>
    have hlen := h chunk List.mem_cons_self
    rw [writeChunks, QRCode.writeChunks, packChunk_eq hlen]
    cases hvalue : mode.packChunk chunk with
    | error e => rfl
    | ok value =>
      rw [lift_ok, pure_bind, push_eq (packedLength_le hlen) (Mode.packChunk_lt hlen hvalue), pure_bind]
      exact ih (fun c hc => h c (List.mem_cons_of_mem _ hc)) _

/-- **Writing a segment has no faults**, in any mode. -/
theorem writeSegment_eq (mode : Mode) (v : Version) (payload : List UInt8) (s : BitString) :
    writeSegment mode v payload s = lift (written (QRCode.writeSegment mode v payload s)) := by
  have hwidth := mode.countBits_pos v
  have hle := countBits_le mode v
  have hlimit : 2 ^ mode.countBits v < 2 ^ 64 := Nat.pow_lt_pow_right (by decide) (by omega)
  rw [writeSegment, writeHeader, if_neg (by omega), word_eq hlimit, pure_bind]
  by_cases hcount : 2 ^ mode.countBits v ≤ payload.length
  · rw [if_pos hcount, writeSegment_overflow hcount]
    rfl
  · rw [if_neg hcount, push_eq (by decide) mode.indicator_lt, pure_bind, push_eq (by omega) (by omega), pure_bind,
      writeChunks_eq (chunks_length_le mode.chunkSize_pos payload)]
    have hheader : QRCode.writeHeader mode (mode.countBits v) payload.length s = .ok () _ :=
      writeHeader_eq hwidth (Nat.lt_of_not_le hcount)
    rw [QRCode.writeSegment, bind_of_ok hheader]
    rfl

/-! ### Padding -/

/-- Zeros up to a byte boundary, where there are some to push (`push_padding_bits`). -/
def align (s : BitString) : Checked BitString :=
  if 0 < s.length % 8 then do push 0 (← sub 8 (s.length % 8)) s
  else pure s

/-- Terminator, padding bits and pad codewords (`terminate`). -/
def writePadding (codewords : Nat) (s : BitString) : Checked BitString :=
  if 8 * codewords < s.length then throw .capacityExceeded
  else do
    let room ← sub (8 * codewords) s.length
    let closed ← align (← push 0 (min 4 room) s)
    if !closed.isAligned then throw (.malformed .unalignedPadding)
    else do
      let pads ← sub codewords closed.byteSize
      let filled ← pushBytes (padCodewords pads) closed
      if filled.byteSize ≠ codewords then throw (.malformed .paddedLength)
      else pure filled

/-- Aligning has no faults. -/
theorem align_eq (s : BitString) : align s = pure s.align := by
  unfold align
  split
  · have hzeros : (8 - s.length % 8) % 8 = 8 - s.length % 8 := by omega
    rw [sub_eq (by omega), pure_bind, push_eq (by omega) (Nat.two_pow_pos _), BitString.align, hzeros]
  · have hzeros : (8 - s.length % 8) % 8 = 0 := by omega
    rw [BitString.align, hzeros]
    rfl

/-- **Padding has no faults.** -/
theorem writePadding_eq (codewords : Nat) (s : BitString) :
    writePadding codewords s = lift (written (QRCode.writePadding codewords s)) := by
  unfold writePadding QRCode.writePadding
  by_cases hroom : 8 * codewords < s.length
  · rw [if_pos hroom, if_pos hroom]
    rfl
  · have hclosed := BitString.close_length (Nat.le_of_not_lt hroom)
    have hpads : (s.close (8 * codewords)).byteSize ≤ codewords := by
      rw [BitString.byteSize, hclosed]; omega
    have hclose : (s.appendBits 0 (min 4 (8 * codewords - s.length))).align = s.close (8 * codewords) :=
      rfl
    rw [if_neg hroom, if_neg hroom, sub_eq (by omega), pure_bind,
      push_eq (by omega) (Nat.two_pow_pos _), pure_bind, align_eq, pure_bind, hclose]
    dsimp only
    split
    · rfl
    · rw [sub_eq hpads, pure_bind, pushBytes_eq, pure_bind]
      split <;> rfl

/-- A payload packed in a mode and filled up (`encode_with_version`). -/
def encodeIn (v : Version) (level : Level) (mode : Mode) (payload : List UInt8) :
    Checked BitString := do
  let codewords ← sub v.totalCodewords (v.ecCodewords level)
  writePadding codewords (← writeSegment mode v payload .empty)

/-- **Encoding has no faults.** -/
theorem encodeIn_eq (v : Version) (level : Level) (mode : Mode) (payload : List UInt8) :
    encodeIn v level mode payload = lift (QRCode.encodeIn v level mode payload).result := by
  rw [encodeIn, sub_eq (Nat.le_of_lt (v.ecCodewords_lt_total level)), pure_bind, writeSegment_eq]
  unfold QRCode.encodeIn
  cases hsegment : QRCode.writeSegment mode v payload .empty with
  | error e t =>
    rw [Traced.ofProgram_of_error hsegment]
    rfl
  | ok u t =>
    rw [Traced.ofProgram_of_ok hsegment]
    show writePadding (v.dataCodewords level) t = _
    rw [writePadding_eq]
    cases hpadding : QRCode.writePadding (v.dataCodewords level) t with
    | error e t =>
      simp only [Traced.ok_bind, Traced.emit_bind, Traced.ofProgram_of_error hpadding]
      rfl
    | ok pads t =>
      simp only [Traced.ok_bind, Traced.emit_bind, Traced.ofProgram_of_ok hpadding]
      rfl

end Checked
end QRCode
