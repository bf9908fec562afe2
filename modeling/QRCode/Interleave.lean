/-
# Interleaving

`QRBuilder::interleave`, and the way back.

Blocks are written column by column: the first element of every block, then the
second of every block that has one, and so on.  A slot is a block and a place in
it; `slots` lists the slots of blocks of given lengths in the order in which they
are written, so it says both where an element goes and how to bring it back
(`deinterleave`).
-/

namespace QRCode

variable {α : Type}

/-- So many columns of a list of blocks. -/
def writeColumns : Nat → List (List α) → List α
  | 0, _ => []
  | k + 1, blocks => blocks.filterMap List.head? ++ writeColumns k (blocks.map List.tail)

/-- The length of the longest block. -/
def longest (blocks : List (List α)) : Nat := blocks.foldl (fun n b => max n b.length) 0

/-- Blocks written column by column (`QRBuilder::interleave`). -/
def interleave (blocks : List (List α)) : List α := writeColumns (longest blocks) blocks

/-- The slots of blocks of given lengths, as pairs of a block and a place in it, in
the order in which they are written. -/
def slots (lengths : List Nat) : List (Nat × Nat) :=
  (List.range (lengths.foldl max 0)).flatMap fun i =>
    ((List.range lengths.length).filter fun k => i < lengths.getD k 0).map fun k => (k, i)

/-- The blocks of given lengths that a list was written from. -/
def deinterleave (lengths : List Nat) (xs : List α) : List (List α) :=
  (List.range lengths.length).map fun k =>
    ((slots lengths).zip xs).filterMap fun e => if e.1.1 = k then some e.2 else none

end QRCode
