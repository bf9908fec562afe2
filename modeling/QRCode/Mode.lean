/-
# Packing modes

`Mode`, with the widths `CHAR_CNT_BITS`.

A payload is packed as digits, as characters of a 45-character set, or as bytes.
In every mode a payload is cut into chunks, a chunk is read as a number whose
digits are the characters, and the number is written in as many bits as it needs:

| mode | indicator | chunk | base | bits for chunks of 1, 2, 3 |
| --- | --- | ---: | ---: | --- |
| numeric | `0001` | 3 | 10 | 4, 7, 10 |
| alphanumeric | `0010` | 2 | 45 | 6, 11 |
| byte | `0100` | 1 | 256 | 8 |

`packChunk_lt` says that these widths suffice, and `contains_iff` that the set of
bytes described character by character (`Mode.contains`) is the set of bytes that
have a value as a digit (`Mode.digit?`).
-/

import QRCode.Error
import QRCode.Version

namespace QRCode

-- powers are those of the core library, whatever else is imported
attribute [local instance (high)] instPowNat

/-- A packing mode. -/
inductive Mode where
  | numeric
  | alphanumeric
  | byte
  deriving DecidableEq

namespace Mode

/-- All modes. -/
def all : List Mode := [numeric, alphanumeric, byte]

/-- The name of the mode. -/
def name : Mode → String
  | numeric => "Numeric"
  | alphanumeric => "Alphanumeric"
  | byte => "Byte"

/-- The number that announces the mode, before the character count. -/
def indicator : Mode → Nat
  | numeric => 1
  | alphanumeric => 2
  | byte => 4

/-- The width of the indicator (`Mode::mode_bits`). -/
def indicatorBits : Nat := 4

/-- The width of the character count field, tier by tier (`Mode::char_cnt_bits`). -/
def countBits (mode : Mode) (v : Version) : Nat :=
  match mode with
  | numeric => #v[10, 12, 14][v.tier]
  | alphanumeric => #v[9, 11, 13][v.tier]
  | byte => #v[8, 16, 16][v.tier]

/-- The number of characters packed together. -/
def chunkSize : Mode → Nat
  | numeric => 3
  | alphanumeric => 2
  | byte => 1

/-- The base in which a chunk is read as a number. -/
def base : Mode → Nat
  | numeric => 10
  | alphanumeric => 45
  | byte => 256

/-- The number of bits for so many characters, without a header (`Mode::encoded_len`). -/
def packedLength (mode : Mode) (count : Nat) : Nat :=
  match mode with
  | numeric => (10 * count + 2) / 3
  | alphanumeric => (11 * count + 1) / 2
  | byte => 8 * count

/-- The alphanumeric set in the order of its values: the digits, the capitals, and
the nine characters `space $ % * + - . / :`. -/
def alphabet : List UInt8 :=
  [0x30, 0x31, 0x32, 0x33, 0x34, 0x35, 0x36, 0x37, 0x38, 0x39,
    0x41, 0x42, 0x43, 0x44, 0x45, 0x46, 0x47, 0x48, 0x49, 0x4A, 0x4B, 0x4C, 0x4D,
    0x4E, 0x4F, 0x50, 0x51, 0x52, 0x53, 0x54, 0x55, 0x56, 0x57, 0x58, 0x59, 0x5A,
    0x20, 0x24, 0x25, 0x2A, 0x2B, 0x2D, 0x2E, 0x2F, 0x3A]

/-- The value of a byte as a digit, if the mode has it. -/
def digit? (mode : Mode) (b : UInt8) : Option Nat :=
  match mode with
  | numeric => (alphabet.take 10).idxOf? b
  | alphanumeric => alphabet.idxOf? b
  | byte => some b.toNat

/-- The value of a byte as a digit; a byte that the mode does not have is named
(`Mode::numeric_digit`, `Mode::alphanumeric_digit`). -/
def digit (mode : Mode) (b : UInt8) : Except Error Nat :=
  match mode.digit? b with
  | some d => .ok d
  | none => .error (.invalidCharacter b)

/-- Whether a mode can pack a byte (`Mode::contains`). -/
def contains (mode : Mode) (b : UInt8) : Bool :=
  let isDigit := 0x30 ≤ b ∧ b ≤ 0x39
  let isCapital := 0x41 ≤ b ∧ b ≤ 0x5A
  match mode with
  | numeric => isDigit
  | alphanumeric => isDigit ∨ isCapital ∨ b ∈ [0x20, 0x24, 0x25, 0x2A, 0x2B, 0x2D, 0x2E, 0x2F, 0x3A]
  | byte => true

/-- The mode for a payload: the narrowest one that has all its bytes (`Mode::select`).  An empty
payload counts as bytes. -/
def select (payload : List UInt8) : Mode :=
  if payload.isEmpty then byte
  else if payload.all numeric.contains then numeric
  else if payload.all alphanumeric.contains then alphanumeric
  else byte

/-- A chunk as a number, its first character the highest digit (`Mode::encode_chunk`). -/
def packChunk (mode : Mode) (chunk : List UInt8) : Except Error Nat :=
  chunk.foldlM (fun n b => do return n * mode.base + (← mode.digit b)) 0

/-! ### Which bytes a mode has -/

/-- A statement about all bytes is a statement about 256 numbers. -/
theorem forall_byte_iff {P : UInt8 → Prop} : (∀ b, P b) ↔ ∀ n < 256, P (UInt8.ofNat n) :=
  ⟨fun h _ _ => h _, fun h b => UInt8.ofNat_toNat (x := b) ▸ h b.toNat b.toNat_lt⟩

/-- **A mode contains exactly the bytes that it gives a value.** -/
theorem contains_iff (mode : Mode) (b : UInt8) : mode.contains b = (mode.digit? b).isSome := by
  revert b
  rw [forall_byte_iff]
  cases mode <;> decide +kernel

/-- The place of a byte that is found lies in the list. -/
theorem idxOf?_lt {xs : List UInt8} {b : UInt8} {d : Nat} (h : xs.idxOf? b = some d) : d < xs.length :=
  (List.findIdx?_eq_some_iff_findIdx_eq.1 h).1

/-- A digit is smaller than the base. -/
theorem digit_lt {mode : Mode} {b : UInt8} {d : Nat} (h : mode.digit b = .ok d) : d < mode.base := by
  unfold digit at h
  split at h
  · rename_i d' hd
    obtain rfl := Except.ok.inj h
    cases mode
    · exact idxOf?_lt hd
    · exact idxOf?_lt hd
    · obtain rfl := Option.some.inj hd
      exact b.toNat_lt
  · cases h

/-! ### A chunk fits in its bits -/

/-- Digits behind a number are less than one in its last place. -/
theorem foldlM_digit_lt {mode : Mode} {chunk : List UInt8} {n m : Nat}
    (h : chunk.foldlM (fun n b => do return n * mode.base + (← mode.digit b)) n = .ok m) :
    m < (n + 1) * mode.base ^ chunk.length := by
  induction chunk generalizing n with
  | nil => cases h; simp
  | cons b chunk ih =>
    rw [List.foldlM_cons] at h
    cases hd : mode.digit b with
    | error e => rw [hd] at h; cases h
    | ok d =>
      rw [hd] at h
      have hlt := digit_lt hd
      refine Nat.lt_of_lt_of_le (ih h) ?_
      rw [List.length_cons, Nat.pow_succ', ← Nat.mul_assoc]
      refine Nat.mul_le_mul_right _ ?_
      rw [Nat.add_mul, Nat.one_mul]; omega

/-- **A chunk fits in the bits that its length asks for.** -/
theorem packChunk_lt {mode : Mode} {chunk : List UInt8} {n : Nat}
    (hlen : chunk.length ≤ mode.chunkSize) (h : mode.packChunk chunk = .ok n) :
    n < 2 ^ mode.packedLength chunk.length := by
  have hn := foldlM_digit_lt h
  have key : ∀ k ≤ mode.chunkSize, mode.base ^ k ≤ 2 ^ mode.packedLength k := by
    cases mode <;> decide
  have := key _ hlen
  rw [Nat.zero_add, Nat.one_mul] at hn
  exact Nat.lt_of_lt_of_le hn this

end Mode
end QRCode
