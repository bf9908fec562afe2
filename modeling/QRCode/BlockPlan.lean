/-
# Dividing codewords among blocks

`BlockLayout`, made by `BlockLayout::split` and applied by `BlockLayout::encode`.

The codewords of a symbol are divided among blocks in two groups: short blocks
first, then long ones with one data codeword more.  All blocks have the same number
of error correction codewords, so the quotients of the two totals by the number of
blocks describe a short block, and the remainder is the number of long ones
(`BlockPlan.divide`).  Such a plan exists exactly when the error correction codewords
can be shared out evenly.
-/

import QRCode.Block
import QRCode.Version.Capacity

namespace QRCode

-- the zero of sums is that of the core library, whatever else is imported
attribute [local instance (high)] Zero.ofOfNat0

/-- Blocks of one size. -/
structure BlockGroup where
  /-- The number of blocks. -/
  count : Nat
  /-- Codewords in each block. -/
  total : Nat
  /-- Data codewords in each block. -/
  data : Nat
  deriving DecidableEq

/-- Two groups of blocks. -/
structure BlockPlan where
  short : BlockGroup
  long : BlockGroup
  deriving DecidableEq

/-- A list cut into slices of given lengths. -/
def slices {α : Type} : List Nat → List α → List (List α)
  | [], _ => []
  | k :: ks, xs => xs.take k :: slices ks (xs.drop k)

/-- Slices that take up the whole list lose nothing. -/
theorem slices_flatten {α : Type} {lengths : List Nat} {xs : List α} (h : lengths.sum = xs.length) :
    (slices lengths xs).flatten = xs := by
  induction lengths generalizing xs with
  | nil => exact (List.eq_nil_of_length_eq_zero (by simpa using h.symm)).symm
  | cons k ks ih =>
    rw [List.sum_cons] at h
    rw [slices, List.flatten_cons, ih (by rw [List.length_drop]; omega), List.take_append_drop]

/-- Each slice has the length that was asked for. -/
theorem slices_map_length {α : Type} {lengths : List Nat} {xs : List α} (h : lengths.sum = xs.length) :
    (slices lengths xs).map List.length = lengths := by
  induction lengths generalizing xs with
  | nil => rfl
  | cons k ks ih =>
    rw [List.sum_cons] at h
    rw [slices, List.map_cons, ih (by rw [List.length_drop]; omega), List.length_take]
    congr 1
    omega

namespace BlockPlan

/-- The number of blocks. -/
def blockCount (plan : BlockPlan) : Nat := plan.short.count + plan.long.count

/-- Error correction codewords in each block. -/
def eccPerBlock (plan : BlockPlan) : Nat := plan.short.total - plan.short.data

/-- Data codewords of all blocks. -/
def dataLength (plan : BlockPlan) : Nat :=
  plan.short.count * plan.short.data + plan.long.count * plan.long.data

/-- Codewords of all blocks. -/
def totalLength (plan : BlockPlan) : Nat :=
  plan.short.count * plan.short.total + plan.long.count * plan.long.total

/-- The data codewords of each block, first to last. -/
def dataLengths (plan : BlockPlan) : List Nat :=
  List.replicate plan.short.count plan.short.data ++ List.replicate plan.long.count plan.long.data

/-- The plan for `total` codewords, `data` of them data, in a number of blocks
(`BlockLayout::split`). -/
def divide (total data blocks : Nat) : Except Error BlockPlan :=
  if blocks = 0 then .error (.malformed .zeroBlocks)
  else
    let long := total % blocks
    let plan : BlockPlan :=
      ⟨⟨blocks - long, total / blocks, data / blocks⟩, ⟨long, total / blocks + 1, data / blocks + 1⟩⟩
    if plan.short.total ≤ plan.short.data then .error (.malformed .noCorrection)
    else if plan.totalLength ≠ total ∨ plan.dataLength ≠ data then
      .error (.malformed .uncoveredCodewords)
    else .ok plan

/-- The plan of a version at a level (`BlockLayout::new`). -/
def ofVersion (v : Version) (level : Level) : Except Error BlockPlan :=
  divide v.totalCodewords (v.dataCodewords level) (v.blockCount level)

/-- Data cut into the data of the blocks (`BlockLayout::blockify`). -/
def cut (plan : BlockPlan) (data : List UInt8) : Except Error (List (List UInt8)) :=
  if data.length ≠ plan.dataLength then .error (.malformed .dataLength)
  else if plan.short.data = 0 then .error .emptySlices
  else .ok (slices plan.dataLengths data)

/-- Slices of data made into blocks, each with so many error correction codewords. -/
def encodeSlices (ecc : Nat) : List (List UInt8) → Coding (List Block)
  | [] => pure []
  | slice :: rest => do
    let block ← Block.encode slice (slice.length + ecc)
    let blocks ← encodeSlices ecc rest
    return block :: blocks

/-- Data cut and made into blocks (`BlockLayout::encode`). -/
def encode (plan : BlockPlan) (data : List UInt8) : Coding (List Block) := do
  let parts ← ofExcept (plan.cut data)
  encodeSlices plan.eccPerBlock parts

/-- **Every version has a plan at every level.** -/
theorem ofVersion_isOk (v : Version) (level : Level) : (ofVersion v level).toOption.isSome = true := by
  revert v; cases level <;> decide

end BlockPlan
end QRCode
