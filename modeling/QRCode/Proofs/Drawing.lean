/-
# What a finished symbol shows

Each drawing step writes to places of its own and leaves the others as they are.
Put together, a draft with function patterns, reserved areas and data on all of the
data region (`Draft.drawn`) has every cell drawn, and masking it turns round exactly
its data.  The finished symbol (`drawnSymbol`) then shows

| at | the colour |
| --- | --- |
| a format place | of that bit of the level and the mask (`colour_format`) |
| a data place | of its bit, turned round where the mask holds (`colour_data`) |
| a function pattern | of the pattern (`colour_function`) |
| a version place | of that bit of the version information (`colour_version`) |
-/

import QRCode.Draft
import QRCode.Proofs.Region

namespace QRCode

/-! ### Grids -/

namespace Grid

variable {α β : Type} {n : Nat}

/-- A mapped grid shows at each place what the function makes of the old value. -/
theorem get?_mapCells (f : Nat → Nat → α → β) (g : Grid α n) (p : Nat × Nat) :
    (g.mapCells fun r c x => f r.val c.val x).get? p = (g.get? p).map (f p.1 p.2) := by
  unfold get?
  split
  · rw [get_mapCells]; rfl
  · rfl

/-- So does one that is mapped without looking at places. -/
theorem get?_map (f : α → β) (g : Grid α n) (p : Nat × Nat) :
    (g.map f).get? p = (g.get? p).map f := by
  unfold get?
  split
  · rw [get_map]; rfl
  · rfl

/-- A filled grid shows its value wherever there is a place. -/
theorem get?_fill {x : α} {p : Nat × Nat} (h : p.1 < n ∧ p.2 < n) : (fill n x).get? p = some x := by
  rw [get?, dif_pos h, get_fill]

/-- A role on values changes no place. -/
theorem map_fst_map {γ : Type} (f : γ → α) (l : List ((Nat × Nat) × γ)) :
    (l.map fun e => (e.1, f e.2)).map Prod.fst = l.map Prod.fst := by
  rw [List.map_map]
  rfl

/-- The values of a grid are those at its rows and columns. -/
theorem mem_toList {g : Grid α n} {x : α} : x ∈ g.toList ↔ ∃ r c, g.get r c = x := by
  simp only [toList, rows, row, List.mem_flatten, List.mem_ofFn]
  constructor
  · rintro ⟨_, ⟨r, rfl⟩, hx⟩
    obtain ⟨c, hc⟩ := List.mem_ofFn.1 hx
    exact ⟨r, c, hc⟩
  · rintro ⟨r, c, rfl⟩
    exact ⟨_, ⟨r, rfl⟩, List.mem_ofFn.2 ⟨c, rfl⟩⟩

end Grid

/-- Bits, and zeros up to a given number of them. -/
def padded (count : Nat) (bits : List Bool) : List Bool :=
  bits ++ List.replicate (count - bits.length) false

/-- Padded bits are never too few. -/
theorem le_length_padded (count : Nat) (bits : List Bool) : count ≤ (padded count bits).length := by
  rw [padded, List.length_append, List.length_replicate]
  omega

/-- Bits that are not too many are padded to the number asked for. -/
theorem length_padded {count : Nat} {bits : List Bool} (h : bits.length ≤ count) :
    (padded count bits).length = count := by
  rw [padded, List.length_append, List.length_replicate]
  omega

/-! ### Colours for places -/

/-- A list has a colour for each of given places, which are all different, and for no other. -/
structure Colours (l : List ((Nat × Nat) × Colour)) (places : List (Nat × Nat)) : Prop where
  fst : l.map Prod.fst = places
  nodup : places.Nodup

/-- The draft with cells of one role at given places. -/
def Draft.withCells (d : Draft) (role : Colour → Cell) (l : List ((Nat × Nat) × Colour)) : Draft :=
  { d with grid := d.grid.setAll (l.map fun e => (e.1, role e.2)) }

namespace Colours

variable {l : List ((Nat × Nat) × Colour)} {places : List (Nat × Nat)} {colours : List Colour}
variable {p : Nat × Nat} {k : Colour} {role : Colour → Cell} {d : Draft}

/-- A place with a colour is one of the places. -/
theorem mem (h : Colours l places) (hp : (p, k) ∈ l) : p ∈ places := h.fst ▸ List.mem_map_of_mem hp

/-- Each of the places has a colour. -/
theorem exists_colour (h : Colours l places) (hp : p ∈ places) : ∃ k, (p, k) ∈ l := by
  rw [← h.fst] at hp
  obtain ⟨⟨q, k⟩, hmem, rfl⟩ := List.mem_map.1 hp
  exact ⟨k, hmem⟩

/-- Different places, each with the next of enough colours. -/
theorem zip (hn : places.Nodup) (hlen : places.length ≤ colours.length) :
    Colours (places.zip colours) places := ⟨List.map_fst_zip hlen, hn⟩

/-- **Cells drawn at places show their colours** in the role in which they were drawn. -/
theorem get?_of_mem (h : Colours l places) (hp : (p, k) ∈ l) :
    (d.withCells role l).grid.get? p = (d.grid.get? p).map fun _ => role k := by
  refine Grid.get?_setAll_of_mem ?_ (List.mem_map.2 ⟨(p, k), hp, rfl⟩)
  rw [Grid.map_fst_map, h.fst]
  exact h.nodup

/-- **Cells elsewhere are left as they are.** -/
theorem get?_of_notMem (h : Colours l places) (hp : p ∉ places) :
    (d.withCells role l).grid.get? p = d.grid.get? p := by
  refine Grid.get?_setAll_of_notMem ?_
  rwa [Grid.map_fst_map, h.fst]

end Colours

/-- The format information has a colour for each of its places. -/
theorem colours_format (v : Version) (info : Nat) :
    Colours (formatColours v.width info) (formatPlaces v.width) where
  fst := by
    have hlen : ((bitsOf info formatLength).map Colour.ofBit).length = 15 := by
      rw [List.length_map, BitString.length_bitsOf]
      rfl
    unfold formatColours formatPlaces
    dsimp only
    rw [List.map_append, List.map_append, List.map_fst_zip, List.map_fst_zip]
    · rfl
    · rw [hlen]; exact Nat.le_refl 15
    · rw [hlen]; exact Nat.le_refl 15
  nodup := nodup_formatPlaces v.width_bounds.1

/-- So has the version information, where the version has one. -/
theorem colours_version (v : Version) : Colours (versionColours v) (versionPlaces v) := by
  refine .zip (nodup_versionPlaces v) ?_
  have hle : (versionPlaces v).length ≤ 2 * versionLength := by
    unfold versionPlaces versionLowerLeft versionUpperRight versionLength
    split <;> simp
  rw [List.length_append, List.length_map, BitString.length_bitsOf]
  omega

/-- Bits on places are colours on places. -/
theorem mem_zip_ofBit {places : List (Nat × Nat)} {bits : List Bool} {e : (Nat × Nat) × Bool}
    (h : e ∈ places.zip bits) : (e.1, Colour.ofBit e.2) ∈ places.zip (bits.map Colour.ofBit) := by
  rw [List.zip_map_right]
  exact List.mem_map.2 ⟨e, h, rfl⟩

/-! ### One step -/

namespace Draft

variable {d : Draft} {p : Nat × Nat} {info : Nat} {k : Colour}

/-- The format information is drawn as format cells at its places. -/
theorem drawFormat_eq (d : Draft) (info : Nat) :
    d.drawFormat info = d.withCells .format (formatColours d.version.width info) := rfl

/-- The version information is drawn as version cells at its places. -/
theorem drawVersion_eq (d : Draft) : d.drawVersion = d.withCells .version (versionColours d.version) := rfl

/-- **Function patterns cover the places that they colour**, and no others. -/
theorem get?_drawFunctionPatterns :
    d.drawFunctionPatterns.grid.get? p =
      (d.grid.get? p).map fun cell =>
        match functionColour? d.version p with
        | some k => .function k
        | none => cell := by
  let draw (r c : Nat) (cell : Cell) : Cell :=
    match functionColour? d.version (r, c) with
    | some k => .function k
    | none => cell
  exact Grid.get?_mapCells draw d.grid p

section

variable {places : List (Nat × Nat)} {bits : List Bool}

/-- Bits, and zeros after them, are drawn as data cells at the places given. -/
theorem placeBits_eq (d : Draft) (places : List (Nat × Nat)) (bits : List Bool) :
    d.placeBits places bits =
      d.withCells .data (places.zip ((padded places.length bits).map Colour.ofBit)) := by
  unfold placeBits withCells
  dsimp only
  rw [List.zip_map_right]
  rfl

/-- Bits, and zeros after them, are colours for their places. -/
theorem colours_bits (hn : places.Nodup) (bits : List Bool) :
    Colours (places.zip ((padded places.length bits).map Colour.ofBit)) places := by
  refine .zip hn ?_
  rw [List.length_map]
  exact le_length_padded places.length bits

/-- Data leaves other places as they are. -/
theorem get?_placeBits_of_notMem (hn : places.Nodup) (h : p ∉ places) :
    (d.placeBits places bits).grid.get? p = d.grid.get? p := by
  rw [placeBits_eq]
  exact (colours_bits hn bits).get?_of_notMem h

/-- Each place of data shows its bit. -/
theorem get?_placeBits_of_mem {b : Bool} (hn : places.Nodup)
    (h : (p, b) ∈ places.zip (padded places.length bits)) :
    (d.placeBits places bits).grid.get? p = (d.grid.get? p).map fun _ => .data (.ofBit b) := by
  rw [placeBits_eq]
  exact (colours_bits hn bits).get?_of_mem (mem_zip_ofBit h)

end

/-- A draft with its data turned round where a mask holds. -/
def turned (d : Draft) (m : Mask) : Draft :=
  { d with
    mask := some m
    grid := d.grid.mapCells fun r c cell => cell.flipIf (m.holds r.val c.val) }

/-- A mask is applied in two steps. -/
theorem applyMask_eq (d : Draft) (m : Mask) :
    d.applyMask m = (d.turned m).drawFormat (formatInfo d.level m) := rfl

/-- The first step turns data round where the mask holds. -/
theorem get?_turned {m : Mask} :
    (d.turned m).grid.get? p = (d.grid.get? p).map fun cell => cell.flipIf (m.holds p.1 p.2) := by
  let flip (r c : Nat) (cell : Cell) : Cell := cell.flipIf (m.holds r c)
  exact Grid.get?_mapCells flip d.grid p

/-- Outside the format information a mask only turns data round. -/
theorem get?_applyMask_of_notMem {m : Mask} (h : p ∉ formatPlaces d.version.width) :
    (d.applyMask m).grid.get? p = (d.grid.get? p).map fun cell => cell.flipIf (m.holds p.1 p.2) :=
  ((colours_format d.version _).get?_of_notMem h).trans get?_turned

/-- At its places a mask shows the format information of the level and itself. -/
theorem get?_applyMask_of_mem {m : Mask}
    (h : (p, k) ∈ formatColours d.version.width (formatInfo d.level m)) :
    (d.applyMask m).grid.get? p = (d.grid.get? p).map fun _ => .format k := by
  have hformat : (d.applyMask m).grid.get? p = ((d.turned m).grid.get? p).map fun _ => .format k :=
    (colours_format d.version _).get?_of_mem h
  rw [hformat, get?_turned, Option.map_map]
  rfl

/-! ### Before data is placed -/

/-- A draft with function patterns only. -/
def patterned (v : Version) (level : Level) : Draft := (blank v level).drawFunctionPatterns

/-- A draft with function patterns and reserved areas. -/
def prepared (v : Version) (level : Level) : Draft := (patterned v level).reserve

variable {v : Version} {level : Level} {bits : List Bool} {m : Mask}

/-- On a blank draft, function patterns leave all other cells empty. -/
theorem get?_patterned (hin : p.1 < v.width ∧ p.2 < v.width) :
    (patterned v level).grid.get? p =
      some (match functionColour? v p with
        | some k => .function k
        | none => .empty) := by
  have hblank : (blank v level).grid.get? p = some .empty := Grid.get?_fill hin
  rw [patterned, get?_drawFunctionPatterns, hblank]
  rfl

/-- Outside format and version places nothing is reserved. -/
theorem get?_prepared_of_notMem (h : ¬(p ∈ formatPlaces v.width ∨ p ∈ versionPlaces v)) :
    (prepared v level).grid.get? p = (patterned v level).grid.get? p := by
  rw [not_or] at h
  exact ((colours_version v).get?_of_notMem h.2).trans ((colours_format v _).get?_of_notMem h.1)

/-- Function patterns are not covered by the reserved areas. -/
theorem get?_prepared_function (hin : p.1 < v.width ∧ p.2 < v.width)
    (h : functionColour? v p = some k) : (prepared v level).grid.get? p = some (.function k) := by
  rw [get?_prepared_of_notMem, get?_patterned hin, h]
  intro hp
  rw [functionColour?_eq_none hp] at h
  cases h

/-- The version information stands before data is placed. -/
theorem get?_prepared_version (hin : p.1 < v.width ∧ p.2 < v.width) (h : (p, k) ∈ versionColours v) :
    (prepared v level).grid.get? p = some (.version k) := by
  have hp := notMem_formatPlaces ((colours_version v).mem h)
  have hformat : (patterned v level).reserveFormat.grid.get? p = (patterned v level).grid.get? p :=
    (colours_format v _).get?_of_notMem hp
  have hversion : (prepared v level).grid.get? p = _ := (colours_version v).get?_of_mem h
  rw [hversion, hformat, get?_patterned hin]
  rfl

/-- The format information is reserved. -/
theorem get?_prepared_format (h : p ∈ formatPlaces v.width) :
    ∃ k, (prepared v level).grid.get? p = some (.format k) := by
  have hin := formatPlaces_bounds v.width_bounds.1 p h
  have hnot : p ∉ versionPlaces v := fun hv => notMem_formatPlaces hv h
  obtain ⟨k, hmem⟩ := (colours_format v (2 ^ formatLength - 1)).exists_colour h
  have hformat : (patterned v level).reserveFormat.grid.get? p = _ :=
    (colours_format v _).get?_of_mem hmem
  have hversion : (prepared v level).grid.get? p = _ := (colours_version v).get?_of_notMem hnot
  rw [hversion, hformat, get?_patterned ⟨hin.1, hin.2.1⟩]
  exact ⟨k, rfl⟩

/-- **Nothing is drawn on the data region** before the data. -/
theorem get?_prepared_data (hin : p.1 < v.width ∧ p.2 < v.width) (h : isReserved v p = false) :
    (prepared v level).grid.get? p = some .empty := by
  obtain ⟨hfunction, hformat, hversion⟩ := isReserved_eq_false.1 h
  rw [get?_prepared_of_notMem (not_or.2 ⟨hformat, hversion⟩), get?_patterned hin, hfunction]

/-- A reserved place is drawn, whatever is placed later. -/
theorem get?_prepared_reserved (hin : p.1 < v.width ∧ p.2 < v.width) (h : isReserved v p = true) :
    ∃ cell, (prepared v level).grid.get? p = some cell ∧ cell.colour?.isSome := by
  rcases isReserved_eq_true.1 h with h | h | h
  · obtain ⟨k, hk⟩ := Option.isSome_iff_exists.1 h
    exact ⟨.function k, get?_prepared_function hin hk, rfl⟩
  · obtain ⟨k, hk⟩ := get?_prepared_format h
    exact ⟨.format k, hk, rfl⟩
  · obtain ⟨k, hmem⟩ := (colours_version v).exists_colour h
    exact ⟨.version k, get?_prepared_version hin hmem, rfl⟩

/-- **Exactly the data region is free.** -/
theorem freePlaces_prepared : (prepared v level).freePlaces = dataPlaces v := by
  refine List.filter_congr fun p (hp : p ∈ Zigzag.path v.width) => ?_
  obtain ⟨hr, hc, -⟩ := Version.mem_path.1 hp
  cases hres : isReserved v p with
  | false =>
    rw [get?_prepared_data ⟨hr, hc⟩ hres]
    rfl
  | true =>
    obtain ⟨cell, hcell, hcolour⟩ : ∃ cell, (prepared v level).grid.get? p = some cell ∧
        cell.colour?.isSome := get?_prepared_reserved ⟨hr, hc⟩ hres
    rw [hcell]
    cases cell with
    | empty => cases hcolour
    | _ => rfl

/-! ### With data, and masked -/

/-- A draft with bits on the data region, ready to be masked. -/
def drawn (v : Version) (level : Level) (bits : List Bool) : Draft :=
  (prepared v level).placeBits (dataPlaces v) bits

/-- **Placing succeeds exactly when the data region has a place for every bit.** -/
theorem placePayload_eq (v : Version) (level : Level) (bits : List Bool) :
    placePayload bits (blank v level).drawFunctionPatterns =
      if bits.length ≤ (dataPlaces v).length then
        .ok ((dataPlaces v).length - bits.length) (drawn v level bits)
      else .error .incompleteSymbol (drawn v level bits) := by
  have hfree : (blank v level).drawFunctionPatterns.reserve.freePlaces = dataPlaces v :=
    freePlaces_prepared (v := v)
  unfold placePayload
  dsimp only
  rw [hfree]
  rfl

/-- Data leaves what is reserved as it was. -/
theorem get?_drawn_of_notMem (h : p ∉ dataPlaces v) :
    (drawn v level bits).grid.get? p = (prepared v level).grid.get? p :=
  get?_placeBits_of_notMem (nodup_dataPlaces v) h

/-- A place of the data region shows its bit, or a zero after the last bit. -/
theorem get?_drawn_of_mem {b : Bool}
    (h : (p, b) ∈ (dataPlaces v).zip (padded (dataPlaces v).length bits)) :
    (drawn v level bits).grid.get? p = some (.data (.ofBit b)) := by
  have hp := mem_dataPlaces.1 (List.of_mem_zip h).1
  obtain ⟨hr, hc, -⟩ := Version.mem_path.1 hp.1
  refine (get?_placeBits_of_mem (nodup_dataPlaces v) h).trans ?_
  rw [get?_prepared_data ⟨hr, hc⟩ hp.2]
  rfl

/-- **Every cell is drawn**: it is reserved, or the path leads to it. -/
theorem exists_colour_drawn (hin : p.1 < v.width ∧ p.2 < v.width) :
    ∃ cell, (drawn v level bits).grid.get? p = some cell ∧ cell.colour?.isSome := by
  by_cases hp : p ∈ dataPlaces v
  · have hlen := le_length_padded (dataPlaces v).length bits
    rw [← List.map_fst_zip hlen] at hp
    obtain ⟨⟨q, b⟩, hmem, rfl⟩ := List.mem_map.1 hp
    exact ⟨.data (.ofBit b), get?_drawn_of_mem hmem, rfl⟩
  · rw [get?_drawn_of_notMem hp]
    cases hres : isReserved v p with
    | true => exact get?_prepared_reserved hin hres
    | false => exact absurd (mem_dataPlaces_iff.2 ⟨hin.1, hin.2, hres⟩) hp

/-- Turning a cell round does not empty it. -/
theorem isSome_colour_flipIf {cell : Cell} {condition : Bool} (h : cell.colour?.isSome) :
    (cell.flipIf condition).colour?.isSome := by
  cases cell with
  | empty => cases h
  | _ => rfl

/-- Masking does not empty a cell either. -/
theorem exists_colour_masked (hin : p.1 < v.width ∧ p.2 < v.width) :
    ∃ cell, ((drawn v level bits).applyMask m).grid.get? p = some cell ∧ cell.colour?.isSome := by
  obtain ⟨cell, hcell, hcolour⟩ : ∃ cell, (drawn v level bits).grid.get? p = some cell ∧
      cell.colour?.isSome := exists_colour_drawn hin
  by_cases hp : p ∈ formatPlaces v.width
  · obtain ⟨k, hmem⟩ := (colours_format v (formatInfo level m)).exists_colour hp
    refine ⟨.format k, (get?_applyMask_of_mem (d := drawn v level bits) hmem).trans ?_, rfl⟩
    rw [hcell]
    rfl
  · refine ⟨cell.flipIf (m.holds p.1 p.2), ?_, isSome_colour_flipIf hcolour⟩
    rw [get?_applyMask_of_notMem (d := drawn v level bits) hp, hcell]
    rfl

/-- So a masked draft is complete. -/
theorem isComplete_masked : ((drawn v level bits).applyMask m).isComplete = true := by
  refine List.all_eq_true.2 fun cell hcell => ?_
  obtain ⟨r, c, rfl⟩ := Grid.mem_toList.1 hcell
  have hin : (r.val, c.val).1 < v.width ∧ (r.val, c.val).2 < v.width := ⟨r.isLt, c.isLt⟩
  obtain ⟨cell', hget, hcolour⟩ := exists_colour_masked (v := v) hin
  have heq := (Grid.get?_eq_some r.isLt c.isLt).symm.trans hget
  rwa [Option.some.inj heq]

end Draft

/-! ### The finished symbol -/

/-- The symbol with bits on the data region, masked. -/
def drawnSymbol (v : Version) (level : Level) (bits : List Bool) (m : Mask) : Symbol :=
  ⟨v, level, m, ((Draft.drawn v level bits).applyMask m).grid.map fun cell => cell.colour?.getD .light⟩

/-- **Masking any drawn draft finishes it.** -/
theorem Draft.toSymbol_masked (v : Version) (level : Level) (bits : List Bool) (m : Mask) :
    ((Draft.drawn v level bits).applyMask m).toSymbol = .ok (drawnSymbol v level bits m) := by
  have hmask : ((Draft.drawn v level bits).applyMask m).mask = some m := rfl
  unfold Draft.toSymbol
  rw [hmask]
  dsimp only
  rw [if_pos Draft.isComplete_masked]
  rfl

section

variable {v : Version} {level : Level} {bits : List Bool} {m : Mask} {p : Nat × Nat} {k : Colour}

/-- The symbol shows the colours of the cells. -/
theorem get?_drawnSymbol :
    (drawnSymbol v level bits m).grid.get? p =
      (((Draft.drawn v level bits).applyMask m).grid.get? p).map fun cell => cell.colour?.getD .light :=
  Grid.get?_map _ _ _

/-- **Format places show the bits of the level and the mask.** -/
theorem colour_format (h : (p, k) ∈ formatColours v.width (formatInfo level m)) :
    (drawnSymbol v level bits m).grid.get? p = some k := by
  have hp := (colours_format v _).mem h
  have hin := formatPlaces_bounds v.width_bounds.1 p hp
  obtain ⟨cell, hcell, -⟩ := Draft.exists_colour_drawn (v := v) ⟨hin.1, hin.2.1⟩
  rw [get?_drawnSymbol, Draft.get?_applyMask_of_mem (d := Draft.drawn v level bits) h, hcell]
  rfl

/-- Outside the format information the symbol shows the drawn draft, turned round by the mask. -/
theorem get?_drawnSymbol_of_notMem (hp : p ∉ formatPlaces v.width) :
    (drawnSymbol v level bits m).grid.get? p =
      ((Draft.drawn v level bits).grid.get? p).map fun cell =>
        (cell.flipIf (m.holds p.1 p.2)).colour?.getD .light := by
  rw [get?_drawnSymbol, Draft.get?_applyMask_of_notMem (d := Draft.drawn v level bits) hp,
    Option.map_map]
  rfl

/-- **Data places show their bits**, turned round where the mask holds. -/
theorem colour_data {b : Bool} (h : (p, b) ∈ (dataPlaces v).zip (padded (dataPlaces v).length bits)) :
    (drawnSymbol v level bits m).grid.get? p = some (.ofBit (b != m.holds p.1 p.2)) := by
  have hp := isReserved_eq_false.1 (mem_dataPlaces.1 (List.of_mem_zip h).1).2
  rw [get?_drawnSymbol_of_notMem hp.2.1, Draft.get?_drawn_of_mem h]
  cases b <;> cases m.holds p.1 p.2 <;> rfl

/-- **Function patterns are seen whole.** -/
theorem colour_function (hin : p.1 < v.width ∧ p.2 < v.width) (h : functionColour? v p = some k) :
    (drawnSymbol v level bits m).grid.get? p = some k := by
  have hformat : p ∉ formatPlaces v.width := fun hp => by
    rw [functionColour?_eq_none (.inl hp)] at h; cases h
  have hdata : p ∉ dataPlaces v := fun hp => by
    rw [(isReserved_eq_false.1 (mem_dataPlaces.1 hp).2).1] at h; cases h
  rw [get?_drawnSymbol_of_notMem hformat, Draft.get?_drawn_of_notMem hdata,
    Draft.get?_prepared_function hin h]
  rfl

/-- **Version places show the bits of the version.** -/
theorem colour_version (h : (p, k) ∈ versionColours v) :
    (drawnSymbol v level bits m).grid.get? p = some k := by
  have hp := (colours_version v).mem h
  have hbounds := versionPlaces_bounds hp
  have hdata : p ∉ dataPlaces v := fun hd =>
    (isReserved_eq_false.1 (mem_dataPlaces.1 hd).2).2.2 hp
  rw [get?_drawnSymbol_of_notMem (notMem_formatPlaces hp), Draft.get?_drawn_of_notMem hdata,
    Draft.get?_prepared_version ⟨by omega, by omega⟩ h]
  rfl

end
end QRCode
