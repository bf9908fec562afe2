/-
# Where interleaving puts an element

`QRBuilder::interleave`, by index.

Element `i` of block `k` stands behind the first `i` elements of every block, as far as
there are so many, and behind element `i` of those blocks before it that have one:

    slotIndex lengths k i  =  ∑ⱼ min lengthsⱼ i  +  #{ j < k | i < lengthsⱼ }

The first summand counts the columns before column `i`, of which column `i` has as many
slots as there are blocks longer than `i` (`length_columnSlots`, `length_flatMap_columnSlots`);
the second counts the slots before it in its column (`getElem?_columnSlots`).  So the slot
`(k, i)` stands at this index among all slots (`getElem?_slots`), and since no slot is listed
twice, every index below the total length belongs to exactly one slot
(`existsUnique_slotIndex`), whatever the lengths are.

Reading the elements of every slot at its index is therefore the inverse of interleaving on
both sides: it brings back the blocks, and interleaving brings back the list
(`interleave_gather`).
-/

import QRCode.Proofs.Interleaving
import Mathlib.Data.List.Nodup

namespace QRCode

variable {α : Type} {lengths : List Nat} {k i p : Nat}

/-- The index of element `i` of block `k` among interleaved blocks of given lengths. -/
def slotIndex (lengths : List Nat) (k i : Nat) : Nat :=
  (lengths.map fun n => min n i).sum + (lengths.take k).countP fun n => i < n

/-! ### Lists -/

/-- An element that a filter keeps stands behind those before it that are kept. -/
theorem getElem?_filter_countP {l : List α} {f : α → Bool} (hk : k < l.length) (h : f l[k] = true) :
    (l.filter f)[(l.take k).countP f]? = some l[k] := by
  have hsplit : l.filter f = (l.take k).filter f ++ l[k] :: (l.drop (k + 1)).filter f := by
    rw [← List.filter_cons_of_pos h, List.getElem_cons_drop, ← List.filter_append, List.take_append_drop]
  rw [hsplit, List.countP_eq_length_filter, List.getElem?_append_right (Nat.le_refl _), Nat.sub_self]
  rfl

/-! ### Columns -/

/-- **A slot stands in its column behind those of the blocks before its own.** -/
theorem getElem?_columnSlots (hk : k < lengths.length) (hi : i < lengths[k]) :
    (columnSlots lengths i)[(lengths.take k).countP fun n => i < n]? = some (k, i) := by
  have hget : lengths.getD k 0 = lengths[k] := by simp [List.getD_eq_getElem?_getD, hk]
  have hcount : (lengths.take k).countP (fun n => i < n) =
      ((List.range lengths.length).take k).countP fun j => i < lengths.getD j 0 := by
    rw [take_eq_map_range (Nat.le_of_lt hk), List.countP_map, List.take_range, Nat.min_eq_left (Nat.le_of_lt hk)]
    rfl
  have hrange : k < (List.range lengths.length).length := by rwa [List.length_range]
  have hkept := getElem?_filter_countP (f := fun j => decide (i < lengths.getD j 0)) hrange
    (by rw [List.getElem_range, hget]; exact decide_eq_true hi)
  rw [columnSlots, hcount, List.getElem?_map, hkept, List.getElem_range]
  rfl

/-! ### Slots -/

/-- **The index of a slot.** -/
theorem getElem?_slots (hk : k < lengths.length) (hi : i < lengths[k]) :
    (slots lengths)[slotIndex lengths k i]? = some (k, i) := by
  have hle : lengths[k] ≤ lengths.foldl max 0 := (le_foldl_max lengths 0).2 _ (List.getElem_mem hk)
  obtain ⟨d, hd⟩ := Nat.exists_eq_add_of_le (Nat.lt_of_lt_of_le hi hle)
  -- the columns before column i, the column itself, and the columns behind it
  have hsplit : slots lengths = (List.range i).flatMap (columnSlots lengths) ++
      (columnSlots lengths i ++ ((List.range d).map (i + 1 + ·)).flatMap (columnSlots lengths)) := by
    rw [slots_eq, hd, List.range_add, List.range_succ, List.flatMap_append, List.flatMap_append,
      List.flatMap_singleton, List.append_assoc]
  have hcolumn := getElem?_columnSlots hk hi
  obtain ⟨hlt, -⟩ := List.getElem?_eq_some_iff.1 hcolumn
  rw [hsplit, slotIndex, ← length_flatMap_columnSlots, List.getElem?_append_right (Nat.le_add_right _ _),
    Nat.add_sub_cancel_left, List.getElem?_append_left hlt, hcolumn]

/-- The slots are the places of the blocks. -/
theorem mem_slots {slot : Nat × Nat} :
    slot ∈ slots lengths ↔ ∃ h : slot.1 < lengths.length, slot.2 < lengths[slot.1] := by
  constructor
  · exact lt_of_mem_slots
  · rintro ⟨hk, hi⟩
    exact List.mem_of_getElem? (getElem?_slots hk hi)

/-- The slots of blocks are their places. -/
theorem mem_slots_map {blocks : List (List α)} {slot : Nat × Nat} :
    slot ∈ slots (blocks.map List.length) ↔ ∃ b, blocks[slot.1]? = some b ∧ slot.2 < b.length := by
  rw [mem_slots]
  constructor
  · rintro ⟨hk, hi⟩
    rw [List.getElem_map] at hi
    rw [List.length_map] at hk
    exact ⟨_, List.getElem?_eq_getElem hk, hi⟩
  · rintro ⟨b, hb, hi⟩
    obtain ⟨hk, rfl⟩ := List.getElem?_eq_some_iff.1 hb
    exact ⟨by rwa [List.length_map], by rwa [List.getElem_map]⟩

/-- No slot is listed twice. -/
theorem nodup_slots (lengths : List Nat) : (slots lengths).Nodup := by
  rw [slots_eq, List.nodup_flatMap]
  constructor
  · intro i _
    exact (List.nodup_range.filter _).map fun _ _ h => congrArg Prod.fst h
  · refine List.nodup_range.imp ?_
    rintro i j hne slot hi hj
    obtain ⟨k, _, rfl⟩ := List.mem_map.1 hi
    obtain ⟨l, _, heq⟩ := List.mem_map.1 hj
    exact hne (congrArg Prod.snd heq).symm

/-- **Every index belongs to exactly one slot.** -/
theorem existsUnique_slotIndex (hp : p < lengths.sum) :
    ∃! slot : Nat × Nat, slot ∈ slots lengths ∧ slotIndex lengths slot.1 slot.2 = p := by
  rw [← length_slots] at hp
  have hmem := List.getElem_mem hp
  -- a slot is found again at its index, so no two slots share one
  have hindex : ∀ slot ∈ slots lengths, (slots lengths)[slotIndex lengths slot.1 slot.2]? = some slot := by
    intro slot hslot
    obtain ⟨hk, hi⟩ := mem_slots.1 hslot
    exact getElem?_slots hk hi
  refine ⟨(slots lengths)[p], ⟨hmem, ?_⟩, ?_⟩
  · obtain ⟨hlt, heq⟩ := List.getElem?_eq_some_iff.1 (hindex _ hmem)
    exact (nodup_slots lengths).getElem_inj_iff.1 heq
  · rintro slot ⟨hslot, rfl⟩
    exact (List.getElem?_eq_some_iff.1 (hindex slot hslot)).2.symm

/-! ### Elements -/

/-- Where every key has a value, the values stand as the keys do. -/
theorem getElem?_filterMap {κ : Type} {g : κ → Option α} {keys : List κ}
    (h : ∀ key ∈ keys, ∃ x, g key = some x) (p : Nat) : (keys.filterMap g)[p]? = keys[p]?.bind g := by
  induction keys generalizing p with
  | nil => rfl
  | cons key keys ih =>
    obtain ⟨x, hx⟩ := h key List.mem_cons_self
    rw [List.filterMap_cons, hx]
    cases p with
    | zero => exact hx.symm
    | succ p => exact ih (fun key hkey => h key (List.mem_cons_of_mem _ hkey)) p

/-- **An element of a block stands at the index of its slot.** -/
theorem getElem?_interleave {blocks : List (List α)} {b : List α} {x : α} (hb : blocks[k]? = some b)
    (hx : b[i]? = some x) : (interleave blocks)[slotIndex (blocks.map List.length) k i]? = some x := by
  obtain ⟨hi, -⟩ := List.getElem?_eq_some_iff.1 hx
  have hslot : (k, i) ∈ slots (blocks.map List.length) := mem_slots_map.2 ⟨b, hb, hi⟩
  obtain ⟨hk, hi⟩ := mem_slots.1 hslot
  rw [interleave_eq_filterMap_slots, getElem?_filterMap fun _ h => exists_slotElement h,
    getElem?_slots hk hi, Option.bind_some, slotElement?, hb, Option.bind_some, hx]

/-- The blocks of given lengths that are read from a list, every element at its index. -/
def gather (lengths : List Nat) (xs : List α) : List (List α) :=
  (List.range lengths.length).map fun k =>
    (List.range (lengths.getD k 0)).filterMap fun i => xs[slotIndex lengths k i]?

variable {xs : List α}

/-- Every slot has an index below the total length. -/
theorem slotIndex_lt (hk : k < lengths.length) (hi : i < lengths[k]) : slotIndex lengths k i < lengths.sum := by
  rw [← length_slots]
  exact (List.getElem?_eq_some_iff.1 (getElem?_slots hk hi)).1

/-- **What is read for a block** from a list of the total length. -/
theorem getElem?_gather (hxs : xs.length = lengths.sum) (hk : k < lengths.length) :
    ∃ b, (gather lengths xs)[k]? = some b ∧ b.length = lengths[k] ∧
      ∀ i < lengths[k], b[i]? = xs[slotIndex lengths k i]? := by
  have hget : lengths.getD k 0 = lengths[k] := by simp [List.getD_eq_getElem?_getD, hk]
  have hsome : ∀ i ∈ List.range lengths[k], ∃ x, xs[slotIndex lengths k i]? = some x := by
    intro i hi
    exact ⟨_, List.getElem?_eq_getElem (hxs ▸ slotIndex_lt hk (List.mem_range.1 hi))⟩
  refine ⟨(List.range lengths[k]).filterMap fun i => xs[slotIndex lengths k i]?, ?_, ?_, ?_⟩
  · rw [gather, List.getElem?_map, List.getElem?_range hk, Option.map_some, hget]
  · rw [List.filterMap_length_eq_length.2 fun i hi => Option.isSome_iff_exists.2 (hsome i hi),
      List.length_range]
  · intro i hi
    rw [getElem?_filterMap hsome, List.getElem?_range hi, Option.bind_some]

/-- The blocks that are gathered have the lengths asked for. -/
theorem map_length_gather (hxs : xs.length = lengths.sum) :
    (gather lengths xs).map List.length = lengths := by
  refine List.ext_getElem? fun k => ?_
  rw [List.getElem?_map]
  rcases Nat.lt_or_ge k lengths.length with hk | hk
  · obtain ⟨b, hb, hlen, -⟩ := getElem?_gather hxs hk
    rw [hb, Option.map_some, hlen, List.getElem?_eq_getElem hk]
  · rw [List.getElem?_eq_none hk, List.getElem?_eq_none (by rwa [gather, List.length_map, List.length_range])]
    rfl

/-- **Interleaving what was read brings back the list.** -/
theorem interleave_gather (hxs : xs.length = lengths.sum) : interleave (gather lengths xs) = xs := by
  have hmap := map_length_gather hxs
  have hlen : (interleave (gather lengths xs)).length = xs.length := by
    rw [length_interleave, hmap, hxs]
  refine List.ext_getElem hlen fun p hp hp' => ?_
  obtain ⟨⟨k, i⟩, ⟨hslot, hindex⟩, -⟩ := existsUnique_slotIndex (hxs ▸ hp')
  obtain ⟨hk, hi⟩ := mem_slots.1 hslot
  obtain ⟨b, hb, -, hread⟩ := getElem?_gather hxs hk
  have hx : b[i]? = some xs[p] := by
    rw [hread i hi, hindex, List.getElem?_eq_getElem hp']
  have hp := getElem?_interleave hb hx
  rw [hmap, hindex] at hp
  exact (List.getElem?_eq_some_iff.1 hp).2

/-- **Blocks are read back slot by slot or index by index**, from any list of the total length. -/
theorem deinterleave_eq_gather (hxs : xs.length = lengths.sum) :
    deinterleave lengths xs = gather lengths xs := by
  have hback := deinterleave_interleave (gather lengths xs)
  rwa [map_length_gather hxs, interleave_gather hxs] at hback

/-- How interleaving permutes the elements of blocks. -/
structure InterleavesExactly (blocks : List (List α)) : Prop where
  /-- Nothing is added or lost. -/
  length_eq : (interleave blocks).length = (blocks.map List.length).sum
  /-- Every element stands at the index of its slot. -/
  element : ∀ (k i : Nat) (b : List α) (x : α), blocks[k]? = some b → b[i]? = some x →
    (interleave blocks)[slotIndex (blocks.map List.length) k i]? = some x
  /-- Every index is that of exactly one element. -/
  index : ∀ p < (interleave blocks).length, ∃! slot : Nat × Nat,
    (∃ b, blocks[slot.1]? = some b ∧ slot.2 < b.length) ∧
      slotIndex (blocks.map List.length) slot.1 slot.2 = p
  /-- The lengths suffice to bring back the blocks. -/
  recovered : deinterleave (blocks.map List.length) (interleave blocks) = blocks

/-- **Interleaving is a position-exact permutation**, whatever the lengths of the blocks are.
Conversely, blocks of any lengths are read from a list of their total length index by index,
and interleaving them brings back the list. -/
theorem interleavesExactly :
    (∀ blocks : List (List α), InterleavesExactly blocks) ∧
    ∀ (lengths : List Nat) (xs : List α), xs.length = lengths.sum →
      deinterleave lengths xs = gather lengths xs ∧
      (deinterleave lengths xs).map List.length = lengths ∧
      interleave (deinterleave lengths xs) = xs := by
  constructor
  · intro blocks
    refine ⟨length_interleave blocks, fun k i b x hb hx => getElem?_interleave hb hx, ?_,
      deinterleave_interleave blocks⟩
    intro p hp
    rw [length_interleave] at hp
    simpa only [mem_slots_map] using existsUnique_slotIndex hp
  · intro lengths xs hxs
    have heq := deinterleave_eq_gather hxs
    refine ⟨heq, ?_, ?_⟩
    · rw [heq, map_length_gather hxs]
    · rw [heq, interleave_gather hxs]

/-- Seven elements are read as three blocks, the second one empty, and written again. -/
theorem interleavesExactly_ragged :
    deinterleave [3, 0, 4] [1, 7, 2, 8, 3, 9, 0] = [[1, 2, 3], [], [7, 8, 9, 0]] ∧
      interleave [[1, 2, 3], [], [7, 8, 9, 0]] = [1, 7, 2, 8, 3, 9, 0] := by
  obtain ⟨hread, -, hback⟩ := interleavesExactly.2 [3, 0, 4] [1, 7, 2, 8, 3, 9, 0] rfl
  have hblocks : gather [3, 0, 4] [1, 7, 2, 8, 3, 9, 0] = [[1, 2, 3], [], [7, 8, 9, 0]] := by decide
  rw [hread, hblocks] at hback
  exact ⟨hread.trans hblocks, hback⟩

end QRCode
