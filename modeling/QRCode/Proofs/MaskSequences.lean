/-
# Masks one after another

`Canvas::apply_mask`, any number of times.

A draft may be masked more than once.  Each mask turns data round where its condition holds,
so two masks that both hold at a cell leave it as it was, and a whole sequence turns a cell
round exactly when an odd number of its masks hold there (`Draft.get?_applyMasks`).  Addition
modulo two does not ask for an order.

The places of the format information are overwritten by every mask, whatever lies there:

| at | after masks |
| --- | --- |
| a place of either copy, the dark module | the format cells of the last mask |
| any other place with data | the data, turned round when an odd number of masks hold |
| any other place | the cell from before |

Data that has lain under the format information is lost, so masking twice is no identity there.
-/

import QRCode.Proofs.Checked.Drawing

namespace QRCode

/-! ### Turning round -/

@[simp] theorem Cell.flipIf_false (cell : Cell) : cell.flipIf false = cell := by cases cell <;> rfl

/-- Two conditions turn a cell round when exactly one of them holds. -/
theorem Cell.flipIf_flipIf (cell : Cell) (a b : Bool) : (cell.flipIf a).flipIf b = cell.flipIf (a != b) := by
  cases cell with
  | data k => cases a <;> cases b <;> simp [Cell.flipIf]
  | _ => rfl

/-- Whether an odd number of masks hold at a place. -/
def oddHolds (masks : List Mask) (p : Nat × Nat) : Bool :=
  masks.countP (fun m => m.holds p.1 p.2) % 2 = 1

/-- One mask more changes whether an odd number hold, where it holds itself. -/
theorem oddHolds_cons (m : Mask) (masks : List Mask) (p : Nat × Nat) :
    oddHolds (m :: masks) p = (m.holds p.1 p.2 != oddHolds masks p) := by
  unfold oddHolds
  rw [List.countP_cons]
  cases m.holds p.1 p.2 with
  | false => simp
  | true =>
    rcases Nat.mod_two_eq_zero_or_one (masks.countP fun m => m.holds p.1 p.2) with h | h <;>
      simp [h, Nat.add_mod]

/-- The order of masks does not matter to their number. -/
theorem oddHolds_perm {masks masks' : List Mask} (h : masks.Perm masks') (p : Nat × Nat) :
    oddHolds masks p = oddHolds masks' p := by
  unfold oddHolds
  rw [h.countP_eq]

namespace Draft

/-- A draft after some masks, the first of them first. -/
def applyMasks (d : Draft) (masks : List Mask) : Draft := masks.foldl applyMask d

variable {d : Draft} {m : Mask} {masks : List Mask} {p : Nat × Nat}

/-- Masks leave the version as it is. -/
@[simp] theorem version_applyMasks (d : Draft) (masks : List Mask) :
    (d.applyMasks masks).version = d.version := by
  induction masks generalizing d with
  | nil => rfl
  | cons m masks ih => exact ih (d.applyMask m)

/-- Masks leave the level as it is. -/
@[simp] theorem level_applyMasks (d : Draft) (masks : List Mask) :
    (d.applyMasks masks).level = d.level := by
  induction masks generalizing d with
  | nil => rfl
  | cons m masks ih => exact ih (d.applyMask m)

/-- The last mask is applied to what the others leave. -/
theorem applyMasks_append_last (d : Draft) (before : List Mask) (m : Mask) :
    d.applyMasks (before ++ [m]) = (d.applyMasks before).applyMask m := by
  unfold applyMasks
  rw [List.foldl_append]
  rfl

/-- **Masks compose as exclusive or** outside the format information. -/
theorem get?_applyMasks (h : p ∉ formatPlaces d.version.width) :
    (d.applyMasks masks).grid.get? p = (d.grid.get? p).map fun cell => cell.flipIf (oddHolds masks p) := by
  induction masks generalizing d with
  | nil => simp [applyMasks, oddHolds]
  | cons m masks ih =>
    have hrest := ih (d := d.applyMask m) h
    show ((d.applyMask m).applyMasks masks).grid.get? p = _
    rw [hrest, get?_applyMask_of_notMem h, Option.map_map, oddHolds_cons]
    congr 1
    funext cell
    exact cell.flipIf_flipIf _ _

/-- The last mask of a sequence writes the format information. -/
theorem showsFormat_applyMasks (d : Draft) (before : List Mask) (m : Mask) :
    (d.applyMasks (before ++ [m])).ShowsFormat (formatInfo d.level m) := by
  have hlast := showsFormat_mask (d.applyMasks before) m
  rwa [← applyMasks_append_last, level_applyMasks] at hlast

/-- **Cell by cell** all masks of a sequence succeed. -/
theorem foldlM_applyMask (d : Draft) (masks : List Mask) :
    masks.foldlM Checked.applyMask d = pure (d.applyMasks masks) := by
  induction masks generalizing d with
  | nil => rfl
  | cons m masks ih =>
    rw [List.foldlM_cons, Checked.applyMask_eq, pure_bind]
    exact ih (d.applyMask m)

/-! ### What a draft shows afterwards -/

/-- A draft that shows the format information shows it in either copy, highest bit first. -/
theorem ShowsFormat.map_copy {info : Nat} (h : d.ShowsFormat info) {copy : List (Nat × Nat)}
    (hcopy : copy ∈ Reader.formatCopies d.version.width) :
    copy.map d.grid.get? = (bitsOf info formatLength).map fun b => some (.format (.ofBit b)) := by
  refine map_eq_map_of_zip ?_ fun e he => h _ _ (Reader.mem_formatColours_of_copy hcopy he)
  rw [BitString.length_bitsOf]
  exact Reader.length_of_mem_formatCopies hcopy

/-- The dark module, at its signed coordinates. -/
theorem ShowsFormat.get_dark {info : Nat} (h : d.ShowsFormat info) : d.get (-8) 8 = .ok (.format .dark) := by
  have hmem : (darkPlace d.version.width, Colour.dark) ∈ formatColours d.version.width info :=
    List.mem_append_right _ (List.mem_singleton_self _)
  have hdark : d.grid.get? (darkPlace d.width) = some (.format .dark) := h _ _ hmem
  rw [get_eq (Checked.within_dark d), Checked.placeOf_dark, hdark]
  rfl

/-- What a draft shows after masks of which `m` is the last, in terms of the draft before. -/
structure Masked (d : Draft) (masks : List Mask) (m : Mask) (d' : Draft) : Prop where
  version_eq : d'.version = d.version
  level_eq : d'.level = d.level
  mask_eq : d'.mask = some m
  /-- Data is turned round when an odd number of masks hold at its row and column. -/
  data : ∀ p k, p ∉ formatPlaces d.version.width → d.grid.get? p = some (.data k) →
    d'.grid.get? p =
      some (.data (if masks.countP (fun m => m.holds p.1 p.2) % 2 = 1 then k.flip else k))
  /-- Empty, function, version and format cells stay. -/
  others : ∀ p, p ∉ formatPlaces d.version.width → (∀ k, d.grid.get? p ≠ some (.data k)) →
    d'.grid.get? p = d.grid.get? p
  /-- Both copies of the format information, highest bit first. -/
  format : ∀ copy ∈ [formatMain, formatSide d.version.width],
    copy.map d'.grid.get? = (bitsOf (formatInfo d.level m) 15).map fun b => some (.format (.ofBit b))
  darkModule : d'.get (-8) 8 = .ok (.format .dark)

/-- **What any masks do to any draft.** -/
theorem masked_applyMasks (d : Draft) (before : List Mask) (m : Mask) :
    d.Masked (before ++ [m]) m (d.applyMasks (before ++ [m])) where
  version_eq := version_applyMasks ..
  level_eq := level_applyMasks ..
  mask_eq := by
    rw [applyMasks_append_last]
    rfl
  data p k hp hk := by
    rw [get?_applyMasks hp, hk, oddHolds]
    simp [Cell.flipIf]
  others p hp hk := by
    rw [get?_applyMasks hp]
    cases hcell : d.grid.get? p with
    | none => rfl
    | some cell =>
      cases cell with
      | data k => exact absurd hcell (hk k)
      | _ => rfl
  format copy hcopy := by
    refine (showsFormat_applyMasks d before m).map_copy ?_
    rw [version_applyMasks]
    exact hcopy
  darkModule := (showsFormat_applyMasks d before m).get_dark

/-- **Masking composes as exclusive or**, whatever a draft holds.  After any masks of which the
last is `m`, applied cell by cell or all at once, data outside the format information is turned
round when an odd number of the masks hold there, all other cells outside are as they were, and
the format information is that of `m`.  So the order of the masks does not matter outside the
format information, and a mask applied twice is undone there. -/
theorem masks_compose (d : Draft) (before : List Mask) (m : Mask) :
    (before ++ [m]).foldlM Checked.applyMask d = pure (d.applyMasks (before ++ [m])) ∧
    d.Masked (before ++ [m]) m (d.applyMasks (before ++ [m])) ∧
    (∀ masks : List Mask, masks.Perm (before ++ [m]) → ∀ p, p ∉ formatPlaces d.version.width →
      (d.applyMasks masks).grid.get? p = (d.applyMasks (before ++ [m])).grid.get? p) ∧
    ∀ p, p ∉ formatPlaces d.version.width → (d.applyMasks [m, m]).grid.get? p = d.grid.get? p := by
  refine ⟨foldlM_applyMask d _, masked_applyMasks d before m, fun masks hperm p hp => ?_, fun p hp => ?_⟩
  · rw [get?_applyMasks hp, get?_applyMasks hp, oddHolds_perm hperm]
  · have htwice : oddHolds [m, m] p = false := by
      rw [oddHolds_cons, oddHolds_cons]
      cases m.holds p.1 p.2 <;> rfl
    rw [get?_applyMasks hp, htwice]
    simp

/-- At row 9 and column 9 masks 0 and 2 hold, and mask 1 does not: two that hold undo each other,
and a single one turns the cell round. -/
theorem masks_compose_two :
    let d := (blank (.ofIndex 0) .low).put (9, 9) (.data .dark)
    (d.applyMasks [⟨0⟩, ⟨2⟩]).grid.get? (9, 9) = some (.data .dark) ∧
      (d.applyMasks [⟨0⟩, ⟨1⟩]).grid.get? (9, 9) = some (.data .light) := by
  intro d
  have hcell : d.grid.get? (9, 9) = some (.data .dark) := by decide +kernel
  have houtside : (9, 9) ∉ formatPlaces d.version.width := by decide
  obtain ⟨-, htwo, -⟩ := masks_compose d [⟨0⟩] ⟨2⟩
  obtain ⟨-, hone, -⟩ := masks_compose d [⟨0⟩] ⟨1⟩
  exact ⟨htwo.data _ _ houtside hcell, hone.data _ _ houtside hcell⟩

end Draft
end QRCode
