/-
# Reading a finished symbol back

A reader of a symbol that was drawn from bits (`drawnSymbol`) finds its version by
the width, its level and mask by either copy of the format information, and on the
data region the bits themselves, followed by zeros.  When the bits are the
arrangement of blocks that a plan covers, it finds the blocks
(`blocks?_drawnSymbol`).
-/

import QRCode.Proofs.Blocks
import QRCode.Proofs.Drawing
import QRCode.Reader

namespace QRCode

/-- Values found one by one are found together. -/
theorem mapM_eq_some_of_zip {α β : Type} {f : α → Option β} {l : List α} {xs : List β}
    (hlen : l.length = xs.length) (h : ∀ e ∈ l.zip xs, f e.1 = some e.2) : l.mapM f = some xs := by
  induction l generalizing xs with
  | nil =>
    cases xs with
    | nil => rfl
    | cons x xs => cases hlen
  | cons a l ih =>
    cases xs with
    | nil => cases hlen
    | cons x xs =>
      have hhead : f a = some x := h (a, x) List.mem_cons_self
      have htail : l.mapM f = some xs :=
        ih (Nat.succ.inj hlen) fun e he => h e (List.mem_cons_of_mem _ he)
      rw [List.mapM_cons, hhead, htail]
      rfl

/-- A search finds the only element that it can find. -/
theorem find?_eq_some_of_unique {α : Type} {l : List α} {accept : α → Bool} {x : α} (hmem : x ∈ l)
    (hx : accept x = true) (hunique : ∀ y ∈ l, accept y = true → y = x) : l.find? accept = some x := by
  cases h : l.find? accept with
  | none => exact absurd hx (List.find?_eq_none.1 h x hmem)
  | some y => rw [hunique y (List.mem_of_find?_eq_some h) (List.find?_some h)]

namespace Reader

variable {v : Version} {level : Level} {bits : List Bool} {m : Mask}

/-! ### Version and format -/

/-- **The width determines the version.** -/
theorem version?_width (v : Version) : version? v.width = some v := by
  refine find?_eq_some_of_unique v.mem_all (beq_self_eq_true _) fun w _ hw => ?_
  exact Version.width_injective (beq_iff_eq.1 hw)

/-- **The format information determines the level and the mask.** -/
theorem formatOf?_formatInfo (level : Level) (m : Mask) :
    formatOf? (formatInfo level m) = some (level, m) := by
  refine find?_eq_some_of_unique ?_ (beq_self_eq_true _) fun e _ he => ?_
  · exact List.mem_flatMap.2 ⟨level, level.mem_all, List.mem_map.2 ⟨m, m.mem_all, rfl⟩⟩
  · obtain ⟨hl, hm⟩ := formatInfo_injective (beq_iff_eq.1 he)
    exact Prod.ext hl hm

/-- The two copies of the format information in a symbol of width `n`. -/
def formatCopies (n : Nat) : List (List (Nat × Nat)) := [formatMain, formatSide n]

/-- Both copies are drawn from the same fifteen bits. -/
theorem mem_formatColours_of_copy {n info : Nat} {copy : List (Nat × Nat)} (hcopy : copy ∈ formatCopies n)
    {e : (Nat × Nat) × Bool} (he : e ∈ copy.zip (bitsOf info formatLength)) :
    (e.1, Colour.ofBit e.2) ∈ formatColours n info := by
  have hmem := mem_zip_ofBit he
  unfold formatColours
  dsimp only
  rw [List.mem_append, List.mem_append]
  simp only [formatCopies, List.mem_cons, List.not_mem_nil, or_false] at hcopy
  rcases hcopy with rfl | rfl
  · exact .inl (.inl hmem)
  · exact .inl (.inr hmem)

/-- Each copy has a place for every bit of the format information. -/
theorem length_of_mem_formatCopies {n : Nat} {copy : List (Nat × Nat)} (hcopy : copy ∈ formatCopies n) :
    copy.length = formatLength := by
  simp only [formatCopies, List.mem_cons, List.not_mem_nil, or_false] at hcopy
  rcases hcopy with rfl | rfl <;> rfl

/-- Either copy of a finished symbol spells the bits of its level and mask. -/
theorem bitsAt?_drawnSymbol {copy : List (Nat × Nat)} (hcopy : copy ∈ formatCopies v.width) :
    bitsAt? (drawnSymbol v level bits m).grid copy = some (bitsOf (formatInfo level m) formatLength) := by
  refine mapM_eq_some_of_zip ?_ fun e he => ?_
  · rw [BitString.length_bitsOf]
    exact length_of_mem_formatCopies hcopy
  · rw [colour_format (mem_formatColours_of_copy hcopy he), Option.map_some, Colour.isDark_ofBit]

/-- **Either copy tells the level and the mask.** -/
theorem format?_drawnSymbol {copy : List (Nat × Nat)} (hcopy : copy ∈ formatCopies v.width) :
    format? (drawnSymbol v level bits m).grid copy = some (level, m) := by
  rw [format?, bitsAt?_drawnSymbol hcopy]
  show formatOf? (numberOf (bitsOf (formatInfo level m) formatLength)) = _
  rw [numberOf_bitsOf, Nat.mod_eq_of_lt (formatInfo_lt level m), formatOf?_formatInfo]

/-! ### The data region -/

/-- **The data region, unmasked, spells the bits** that were drawn, and light modules
after them. -/
theorem dataBits?_drawnSymbol (h : bits.length ≤ (dataPlaces v).length) :
    dataBits? (drawnSymbol v level bits m).grid v m = some (padded (dataPlaces v).length bits) := by
  refine mapM_eq_some_of_zip (length_padded h).symm fun e he => ?_
  rw [colour_data he, Option.map_some, Colour.isDark_ofBit]
  cases e.2 <;> cases m.holds e.1.1 e.1.2 <;> rfl

/-- Bits that fill a symbol have room on the data region. -/
theorem length_codewordBits_le {codewords : List UInt8} (h : codewords.length = v.totalCodewords) :
    (codewords.flatMap byteBits).length ≤ (dataPlaces v).length := by
  rw [length_flatMap_byteBits, h]
  exact codewords_le_dataPlaces v

/-- **Codewords that fill a symbol are read back.** -/
theorem codewords_drawnSymbol (level : Level) (m : Mask) {codewords : List UInt8}
    (h : codewords.length = v.totalCodewords) :
    (dataBits? (drawnSymbol v level (codewords.flatMap byteBits) m).grid v m).map
      (fun bits => (bytesOf bits).take v.totalCodewords) = some codewords := by
  rw [dataBits?_drawnSymbol (length_codewordBits_le h), Option.map_some, padded,
    bytesOf_flatMap_byteBits, List.take_left' h]

/-- **Blocks are read back**, data and error correction alike. -/
theorem blocks?_drawnSymbol {plan : BlockPlan} (hplan : BlockPlan.ofVersion v level = .ok plan)
    {data : List UInt8} (hlen : data.length = v.dataCodewords level) :
    blocks? (drawnSymbol v level ((arrange (plan.blocks data)).flatMap byteBits) m).grid v level m =
      some (plan.blocks data) := by
  have h := BlockPlan.divide_eq_ok hplan
  have hcode := codewords_drawnSymbol level m (h.length_arrange hlen)
  obtain ⟨bits, hbits, htake⟩ := Option.map_eq_some_iff.1 hcode
  have hecc := h.map_length_ecc hlen
  rw [← h.blockCount_eq] at hecc
  rw [blocks?, hplan, hbits]
  show some (blocksOf plan ((bytesOf bits).take v.totalCodewords)) = _
  rw [htake, blocksOf_arrange h.eccPerBlock_eq (h.map_length_data hlen) hecc]

end Reader
end QRCode
