/-
# Interleaved blocks come back

`QRBuilder::interleave`.

Interleaving writes the element of each slot, in the order of `slots`
(`interleave_eq_filterMap_slots`).  The slots of one block are its places from
first to last (`filter_slots`), so picking them out of the interleaved list is the
block again (`deinterleave_interleave`).  A column has a slot for every block that
reaches it, so there are as many slots as elements (`length_slots`).
-/

import QRCode.Proofs.Encoding
import Mathlib.Algebra.Ring.Nat
import Mathlib.Data.List.Basic

namespace QRCode

variable {α : Type}

/-- The element in a slot. -/
def slotElement? (blocks : List (List α)) (slot : Nat × Nat) : Option α :=
  blocks[slot.1]?.bind fun b => b[slot.2]?

/-- The slots of one column. -/
def columnSlots (lengths : List Nat) (i : Nat) : List (Nat × Nat) :=
  ((List.range lengths.length).filter fun k => i < lengths.getD k 0).map fun k => (k, i)

/-- The slots are those of one column after the other. -/
theorem slots_eq (lengths : List Nat) :
    slots lengths = (List.range (lengths.foldl max 0)).flatMap (columnSlots lengths) := rfl

/-- The length of the longest block is the largest of the lengths. -/
theorem longest_eq (blocks : List (List α)) :
    longest blocks = (blocks.map List.length).foldl max 0 := by
  rw [longest, List.foldl_map]

/-- The largest of some numbers is at least each of them. -/
theorem le_foldl_max (lengths : List Nat) (m : Nat) :
    m ≤ lengths.foldl max m ∧ ∀ k ∈ lengths, k ≤ lengths.foldl max m := by
  induction lengths generalizing m with
  | nil => exact ⟨Nat.le_refl _, fun _ h => absurd h List.not_mem_nil⟩
  | cons k lengths ih =>
    obtain ⟨hm, hmem⟩ := ih (max m k)
    rw [List.foldl_cons]
    refine ⟨Nat.le_trans (Nat.le_max_left m k) hm, fun j hj => ?_⟩
    rcases List.mem_cons.1 hj with rfl | hj
    · exact Nat.le_trans (Nat.le_max_right m j) hm
    · exact hmem j hj

/-- What a list lets through is what its places let through. -/
theorem filterMap_eq_range {β : Type} (l : List α) (f : α → Option β) :
    l.filterMap f = (List.range l.length).filterMap fun k => l[k]?.bind f := by
  induction l with
  | nil => rfl
  | cons x l ih =>
    rw [List.length_cons, List.range_succ_eq_map, List.filterMap_cons, List.filterMap_cons, ih,
      List.filterMap_map]
    rfl

/-! ### Writing -/

/-- Column `i` of the output holds element `i` of every block that has one. -/
theorem writeColumns_eq (k : Nat) (blocks : List (List α)) :
    writeColumns k blocks = (List.range k).flatMap fun i => blocks.filterMap fun b => b[i]? := by
  induction k generalizing blocks with
  | zero => rfl
  | succ k ih =>
    have hhead : blocks.filterMap List.head? = blocks.filterMap fun b => b[0]? :=
      List.filterMap_congr fun b _ => by cases b <;> rfl
    rw [writeColumns, ih, List.range_succ_eq_map, List.flatMap_cons, List.flatMap_map, hhead]
    congr 1
    refine List.flatMap_congr fun i _ => ?_
    rw [List.filterMap_map]
    exact List.filterMap_congr fun b _ => by cases b <;> rfl

/-- A column of the output is what its slots hold. -/
theorem filterMap_columnSlots (blocks : List (List α)) (i : Nat) :
    (columnSlots (blocks.map List.length) i).filterMap (slotElement? blocks) =
      blocks.filterMap fun b => b[i]? := by
  rw [columnSlots, List.filterMap_map, List.filterMap_filter, List.length_map,
    filterMap_eq_range blocks]
  refine List.filterMap_congr fun k hk => ?_
  have hk' := List.mem_range.1 hk
  have hlen : (blocks.map List.length).getD k 0 = blocks[k].length := by
    simp [List.getD_eq_getElem?_getD, hk']
  simp only [Function.comp_apply, slotElement?, List.getElem?_eq_getElem hk', Option.bind_some, hlen,
    decide_eq_true_eq]
  split
  · rfl
  · rename_i hi
    exact (List.getElem?_eq_none (Nat.le_of_not_lt hi)).symm

/-- **Interleaving writes the elements slot after slot.** -/
theorem interleave_eq_filterMap_slots (blocks : List (List α)) :
    interleave blocks = (slots (blocks.map List.length)).filterMap (slotElement? blocks) := by
  rw [interleave, writeColumns_eq, slots_eq, List.filterMap_flatMap, longest_eq]
  exact List.flatMap_congr fun i _ => (filterMap_columnSlots blocks i).symm

/-- A slot names a block and a place in it. -/
theorem lt_of_mem_slots {lengths : List Nat} {slot : Nat × Nat} (h : slot ∈ slots lengths) :
    ∃ hk : slot.1 < lengths.length, slot.2 < lengths[slot.1] := by
  rw [slots_eq, List.mem_flatMap] at h
  obtain ⟨i, -, h⟩ := h
  rw [columnSlots, List.mem_map] at h
  obtain ⟨k, hk, rfl⟩ := h
  rw [List.mem_filter, List.mem_range, decide_eq_true_eq] at hk
  obtain ⟨hk, hi⟩ := hk
  refine ⟨hk, ?_⟩
  simpa [List.getD_eq_getElem?_getD, hk] using hi

/-- Every slot of blocks holds an element. -/
theorem exists_slotElement {blocks : List (List α)} {slot : Nat × Nat}
    (h : slot ∈ slots (blocks.map List.length)) : ∃ x, slotElement? blocks slot = some x := by
  obtain ⟨hk, hi⟩ := lt_of_mem_slots h
  rw [List.getElem_map] at hi
  rw [List.length_map] at hk
  exact ⟨blocks[slot.1][slot.2], by simp [slotElement?, hk, hi]⟩

/-! ### Reading -/

/-- The slots of one block among those of a column. -/
theorem filter_columnSlots {lengths : List Nat} {k : Nat} (hk : k < lengths.length) (i : Nat) :
    (columnSlots lengths i).filter (fun slot => slot.1 = k) =
      if i < lengths[k] then [(k, i)] else [] := by
  have hget : lengths.getD k 0 = lengths[k] := by simp [List.getD_eq_getElem?_getD, hk]
  have hone : (List.range lengths.length).filter (fun j => decide (j = k)) = [k] := by
    rw [List.filter_eq, List.Nodup.count (List.nodup_range), if_pos (List.mem_range.2 hk)]
    rfl
  rw [columnSlots, List.filter_map, List.filter_filter]
  have hcomm : ∀ j, ((((fun slot : Nat × Nat => decide (slot.1 = k)) ∘ fun j => (j, i)) j) &&
      decide (i < lengths.getD j 0)) = (decide (i < lengths[k]) && decide (j = k)) := by
    intro j
    by_cases hj : j = k
    · subst hj; rw [hget]; simp
    · simp [hj]
  simp only [hcomm]
  rw [← List.filter_filter, hone]
  by_cases hi : i < lengths[k] <;> simp [hi]

/-- **The slots of one block are its places**, first to last. -/
theorem filter_slots {lengths : List Nat} {k : Nat} (hk : k < lengths.length) :
    (slots lengths).filter (fun slot => slot.1 = k) =
      (List.range lengths[k]).map fun i => (k, i) := by
  have hle : lengths[k] ≤ lengths.foldl max 0 := (le_foldl_max lengths 0).2 _ (List.getElem_mem hk)
  obtain ⟨d, hd⟩ := Nat.exists_eq_add_of_le hle
  have hin : ((List.range lengths[k]).flatMap fun i => if i < lengths[k] then [(k, i)] else []) =
      (List.range lengths[k]).map fun i => (k, i) := by
    rw [List.map_eq_flatMap]
    exact List.flatMap_congr fun i hi => if_pos (List.mem_range.1 hi)
  have hout : (((List.range d).map fun j => lengths[k] + j).flatMap
      fun i => if i < lengths[k] then [(k, i)] else []) = [] := by
    rw [List.flatMap_eq_nil_iff]
    intro i hi
    obtain ⟨j, -, rfl⟩ := List.mem_map.1 hi
    exact if_neg (by omega)
  rw [slots_eq, List.filter_flatMap, List.flatMap_congr fun i _ => filter_columnSlots hk i, hd,
    List.range_add, List.flatMap_append, hin, hout, List.append_nil]

/-- Elements picked by their keys out of a list that was written in the order of the keys. -/
theorem filterMap_zip_filterMap {κ : Type} (p : κ → Bool) (g : κ → Option α) {keys : List κ}
    (h : ∀ key ∈ keys, ∃ x, g key = some x) :
    ((keys.zip (keys.filterMap g)).filterMap fun e => if p e.1 then some e.2 else none) =
      (keys.filter p).filterMap g := by
  induction keys with
  | nil => rfl
  | cons key keys ih =>
    obtain ⟨x, hx⟩ := h key List.mem_cons_self
    have hrest := ih fun k hk => h k (List.mem_cons_of_mem _ hk)
    rw [List.filterMap_cons, hx, List.zip_cons_cons, List.filterMap_cons, List.filter_cons]
    by_cases hp : p key = true
    · simp only [hp, if_true, hrest, List.filterMap_cons, hx]
    · simp only [hp, hrest, Bool.false_eq_true, if_false]

/-- **Interleaved blocks are recovered from their lengths.** -/
theorem deinterleave_interleave (blocks : List (List α)) :
    deinterleave (blocks.map List.length) (interleave blocks) = blocks := by
  have hblock : ∀ k (hk : k < blocks.length),
      ((slots (blocks.map List.length)).zip (interleave blocks)).filterMap
        (fun e => if e.1.1 = k then some e.2 else none) = blocks[k] := by
    intro k hk
    have hk' : k < (blocks.map List.length).length := by rwa [List.length_map]
    have hpick := filterMap_zip_filterMap (fun slot : Nat × Nat => decide (slot.1 = k))
      (slotElement? blocks) fun _ h => exists_slotElement h
    simp only [decide_eq_true_eq] at hpick
    rw [interleave_eq_filterMap_slots, hpick, filter_slots hk', List.filterMap_map,
      List.getElem_map]
    have hself := filterMap_eq_range blocks[k] some
    rw [List.filterMap_some] at hself
    refine Eq.trans (List.filterMap_congr fun i _ => ?_) hself.symm
    simp [slotElement?, hk]
  rw [deinterleave, List.length_map]
  refine List.ext_getElem (by simp) fun k h₁ h₂ => ?_
  rw [List.getElem_map, List.getElem_range]
  exact hblock k h₂

/-! ### Lengths -/

/-- The front of a list of lengths, place by place. -/
theorem take_eq_map_range {lengths : List Nat} {k : Nat} (hk : k ≤ lengths.length) :
    lengths.take k = (List.range k).map fun j => lengths.getD j 0 := by
  refine List.ext_getElem (by simp [hk]) fun j h₁ h₂ => ?_
  have hj : j < lengths.length := by
    rw [List.length_take] at h₁
    omega
  simp [List.getD_eq_getElem?_getD, hj]

/-- One column more adds an element of every block that reaches it. -/
theorem sum_min_succ (lengths : List Nat) (i : Nat) :
    (lengths.map fun n => min n (i + 1)).sum =
      (lengths.map fun n => min n i).sum + lengths.countP fun n => i < n := by
  induction lengths with
  | nil => rfl
  | cons n lengths ih =>
    rw [List.map_cons, List.map_cons, List.sum_cons, List.sum_cons, List.countP_cons, ih]
    split
    · rename_i hlt
      have := of_decide_eq_true hlt
      omega
    · rename_i hge
      have : ¬i < n := fun hlt => hge (decide_eq_true hlt)
      omega

/-- A column has a slot for every block that reaches it. -/
theorem length_columnSlots (lengths : List Nat) (i : Nat) :
    (columnSlots lengths i).length = lengths.countP fun n => i < n := by
  have hrange := take_eq_map_range (Nat.le_refl lengths.length)
  rw [List.take_length] at hrange
  conv_rhs => rw [hrange, List.countP_map]
  rw [columnSlots, List.length_map, List.countP_eq_length_filter]
  rfl

/-- So many columns hold so much of every block. -/
theorem length_flatMap_columnSlots (lengths : List Nat) (i : Nat) :
    ((List.range i).flatMap (columnSlots lengths)).length = (lengths.map fun n => min n i).sum := by
  induction i with
  | zero => simp
  | succ i ih =>
    rw [List.range_succ, List.flatMap_append, List.length_append, ih, List.flatMap_singleton,
      length_columnSlots, sum_min_succ]

/-- There are as many slots as elements. -/
theorem length_slots (lengths : List Nat) : (slots lengths).length = lengths.sum := by
  rw [slots_eq, length_flatMap_columnSlots]
  congr 1
  conv_rhs => rw [← List.map_id lengths]
  exact List.map_congr_left fun n hn => Nat.min_eq_left ((le_foldl_max lengths 0).2 n hn)

/-- **Nothing is added or lost by interleaving.** -/
theorem length_interleave (blocks : List (List α)) :
    (interleave blocks).length = (blocks.map List.length).sum := by
  rw [interleave_eq_filterMap_slots, List.filterMap_length_eq_length.2, length_slots]
  exact fun _ h => Option.isSome_iff_exists.2 (exists_slotElement h)

end QRCode
