/-
# Drawing in any order

`Canvas::draw_all_function_patterns`, `Canvas::draw_encoding_region` and
`Canvas::apply_mask` in any order, then `Canvas::finalize`.

The steps of a drawing may come in any order and as often as one likes; each of them
overwrites cells that others have drawn.  Still it is known which cells are drawn after
a run of steps, because no step ever empties a cell (`isDrawn_apply`):

| step | draws every cell |
| --- | --- |
| `patterns` | of a function pattern |
| `payload` | outside the timing column, also when the payload is too long |
| `mask` | of the format information |

The timing column is drawn by `patterns` alone, and the data region by `payload` alone.
So a run completes a symbol exactly when each of the steps occurs in it
(`toSymbol_run`).

The format information is written by two of the steps.  A mask writes its own, a payload
writes fifteen ones to keep data away, and these are the format information of no level
and mask (`formatInfo_ne_reserved`): what a symbol shows tells which of the two came last.
-/

import QRCode.Proofs.Reading

namespace QRCode

open Zigzag (timingColumn)

-- powers are those of the core library, whatever else is imported
attribute [local instance (high)] instPowNat

/-- The format information of no level and mask is all ones. -/
theorem formatInfo_ne_reserved (level : Level) (m : Mask) : formatInfo level m ≠ 2 ^ formatLength - 1 := by
  have key : ∀ i, formatInfo level ⟨i⟩ ≠ 2 ^ formatLength - 1 := by cases level <;> decide
  exact key m.index

/-- Numbers that fit in their bits are told apart by them. -/
theorem bitsOf_injective {a b size : Nat} (ha : a < 2 ^ size) (hb : b < 2 ^ size)
    (h : bitsOf a size = bitsOf b size) : a = b := by
  have hnumber := congrArg numberOf h
  rwa [numberOf_bitsOf, numberOf_bitsOf, Nat.mod_eq_of_lt ha, Nat.mod_eq_of_lt hb] at hnumber

namespace Draft

/-! ### Steps -/

/-- A step of a drawing. -/
inductive Step where
  | patterns
  | payload (bits : List Bool)
  | mask (m : Mask)
  deriving DecidableEq

/-- The draft that a program leaves behind, also when it fails. -/
def left {α : Type} (program : Drawing α) (d : Draft) : Draft :=
  match program d with
  | .ok _ d' => d'
  | .error _ d' => d'

/-- A draft after a step. -/
def Step.apply (d : Draft) : Step → Draft
  | patterns => d.drawFunctionPatterns
  | payload bits => d.left (placePayload bits)
  | mask m => d.applyMask m

/-- A draft after some steps, the first of them first. -/
def run (d : Draft) (steps : List Step) : Draft := steps.foldl Step.apply d

/-- Whether the cell at a place is drawn. -/
def IsDrawn (d : Draft) (p : Nat × Nat) : Prop :=
  ∃ cell, d.grid.get? p = some cell ∧ cell.colour?.isSome

/-- The places whose cells a step draws, whatever was drawn before. -/
def Step.Covers (v : Version) (p : Nat × Nat) : Step → Prop
  | patterns => (functionColour? v p).isSome
  | payload _ => p.2 ≠ timingColumn
  | mask _ => p ∈ formatPlaces v.width

variable {d : Draft} {step : Step} {steps : List Step} {p : Nat × Nat}

/-- A payload stays where it was placed, whether or not all of it has room. -/
theorem left_placePayload (d : Draft) (bits : List Bool) :
    d.left (placePayload bits) = d.reserve.placeBits d.reserve.freePlaces bits := by
  unfold left placePayload
  dsimp only
  split <;> rename_i h
  · split at h <;> cases h; rfl
  · split at h <;> cases h; rfl

@[simp] theorem version_apply (d : Draft) (step : Step) : (step.apply d).version = d.version := by
  cases step with
  | patterns => rfl
  | payload bits => rw [Step.apply, left_placePayload]; rfl
  | mask m => rfl

@[simp] theorem level_apply (d : Draft) (step : Step) : (step.apply d).level = d.level := by
  cases step with
  | patterns => rfl
  | payload bits => rw [Step.apply, left_placePayload]; rfl
  | mask m => rfl

/-- A run of steps leaves the version as it is. -/
@[simp] theorem version_run (d : Draft) (steps : List Step) : (d.run steps).version = d.version := by
  induction steps generalizing d with
  | nil => rfl
  | cons step steps ih => exact (ih (step.apply d)).trans (version_apply d step)

/-- A run of steps leaves the level as it is. -/
@[simp] theorem level_run (d : Draft) (steps : List Step) : (d.run steps).level = d.level := by
  induction steps generalizing d with
  | nil => rfl
  | cons step steps ih => exact (ih (step.apply d)).trans (level_apply d step)

/-! ### Which cells are drawn -/

/-- Every place inside has a cell. -/
theorem exists_cell (hin : p.1 < d.version.width ∧ p.2 < d.version.width) :
    ∃ cell, d.grid.get? p = some cell := ⟨_, Grid.get?_eq_some hin.1 hin.2⟩

/-- Only places inside have a cell. -/
theorem inside_of_cell {cell : Cell} (h : d.grid.get? p = some cell) :
    p.1 < d.version.width ∧ p.2 < d.version.width := by
  by_contra hout
  rw [Grid.get?_eq_none hout] at h
  cases h

/-- A place is drawn when its cell has a colour. -/
theorem isDrawn_iff {cell : Cell} (h : d.grid.get? p = some cell) : d.IsDrawn p ↔ cell.colour?.isSome := by
  constructor
  · rintro ⟨cell', hcell, hcolour⟩
    rw [h] at hcell
    cases hcell
    exact hcolour
  · exact fun hcolour => ⟨cell, h, hcolour⟩

/-- A cell inside is drawn or empty. -/
theorem isDrawn_iff_ne_empty (hin : p.1 < d.version.width ∧ p.2 < d.version.width) :
    d.IsDrawn p ↔ d.grid.get? p ≠ some .empty := by
  obtain ⟨cell, hcell⟩ := exists_cell hin
  rw [isDrawn_iff hcell, hcell]
  cases cell <;> simp [Cell.colour?]

/-- Whether a place is drawn depends on its cell alone. -/
theorem isDrawn_congr {d' : Draft} (h : d'.grid.get? p = d.grid.get? p) : d'.IsDrawn p ↔ d.IsDrawn p := by
  unfold IsDrawn
  rw [h]

/-- What is reserved lies outside the timing column. -/
theorem notMem_reserved {v : Version} (hc : p.2 = timingColumn) :
    p ∉ formatPlaces v.width ∧ p ∉ versionPlaces v := by
  unfold timingColumn at hc
  constructor
  · intro hp
    have := formatPlaces_bounds v.width_bounds.1 p hp
    omega
  · intro hp
    have := versionPlaces_bounds hp
    omega

/-- Reserving leaves other places as they are. -/
theorem get?_reserve_of_notMem (hformat : p ∉ formatPlaces d.version.width)
    (hversion : p ∉ versionPlaces d.version) : d.reserve.grid.get? p = d.grid.get? p :=
  ((colours_version d.version).get?_of_notMem hversion).trans
    ((colours_format d.version _).get?_of_notMem hformat)

/-- Reserved format cells hold fifteen ones. -/
theorem get?_reserve_of_format {k : Colour}
    (h : (p, k) ∈ formatColours d.version.width (2 ^ formatLength - 1)) :
    d.reserve.grid.get? p = (d.grid.get? p).map fun _ => .format k := by
  have hp := (colours_format d.version _).mem h
  have hversion : p ∉ versionPlaces d.version := fun hv => notMem_formatPlaces hv hp
  exact ((colours_version d.version).get?_of_notMem hversion).trans
    ((colours_format d.version _).get?_of_mem h)

/-- No place is free twice. -/
theorem nodup_freePlaces (d : Draft) : d.freePlaces.Nodup := d.version.nodup_path.filter _

/-- The free places are the empty ones on the path. -/
theorem mem_freePlaces :
    p ∈ d.freePlaces ↔ p ∈ Zigzag.path d.version.width ∧ d.grid.get? p = some .empty := by
  simp only [freePlaces, List.mem_filter, decide_eq_true_eq]
  rfl

/-- **Function patterns draw the places that they colour**, and empty none. -/
theorem isDrawn_patterns (hin : p.1 < d.version.width ∧ p.2 < d.version.width) :
    d.drawFunctionPatterns.IsDrawn p ↔ d.IsDrawn p ∨ (functionColour? d.version p).isSome := by
  obtain ⟨cell, hcell⟩ := exists_cell hin
  have hdrawn := get?_drawFunctionPatterns (d := d) (p := p)
  rw [hcell, Option.map_some] at hdrawn
  rw [isDrawn_iff hdrawn, isDrawn_iff hcell]
  cases functionColour? d.version p with
  | none => simp
  | some k => simp [Cell.colour?]

/-- **A payload leaves no cell of the path empty**, and does not reach the timing column. -/
theorem isDrawn_payload (hin : p.1 < d.version.width ∧ p.2 < d.version.width) (bits : List Bool) :
    (d.reserve.placeBits d.reserve.freePlaces bits).IsDrawn p ↔ d.IsDrawn p ∨ p.2 ≠ timingColumn := by
  by_cases hc : p.2 = timingColumn
  · obtain ⟨hformat, hversion⟩ := notMem_reserved (v := d.version) hc
    have hfree : p ∉ d.reserve.freePlaces := fun hp => (Version.mem_path.1 (mem_freePlaces.1 hp).1).2.2 hc
    rw [isDrawn_congr ((get?_placeBits_of_notMem (nodup_freePlaces _) hfree).trans (get?_reserve_of_notMem hformat hversion))]
    simp [hc]
  · refine ⟨fun _ => .inr hc, fun _ => ?_⟩
    by_cases hfree : p ∈ d.reserve.freePlaces
    · obtain ⟨cell, hcell⟩ := exists_cell (d := d.reserve) hin
      have hlen := le_length_padded d.reserve.freePlaces.length bits
      rw [← List.map_fst_zip hlen] at hfree
      obtain ⟨⟨q, b⟩, hmem, rfl⟩ := List.mem_map.1 hfree
      have hplaced := get?_placeBits_of_mem (d := d.reserve) (nodup_freePlaces d.reserve) hmem
      rw [hcell] at hplaced
      exact ⟨_, hplaced, rfl⟩
    · refine (isDrawn_congr (get?_placeBits_of_notMem (nodup_freePlaces _) hfree)).2 ?_
      refine (isDrawn_iff_ne_empty (d := d.reserve) hin).2 fun hempty => hfree ?_
      exact mem_freePlaces.2 ⟨Version.mem_path.2 ⟨hin.1, hin.2, hc⟩, hempty⟩

/-- **A mask draws the format information**, and empties no cell. -/
theorem isDrawn_mask (hin : p.1 < d.version.width ∧ p.2 < d.version.width) (m : Mask) :
    (d.applyMask m).IsDrawn p ↔ d.IsDrawn p ∨ p ∈ formatPlaces d.version.width := by
  obtain ⟨cell, hcell⟩ := exists_cell hin
  by_cases hp : p ∈ formatPlaces d.version.width
  · obtain ⟨k, hmem⟩ := (colours_format d.version (formatInfo d.level m)).exists_colour hp
    have hdrawn := get?_applyMask_of_mem hmem
    rw [hcell] at hdrawn
    exact ⟨fun _ => .inr hp, fun _ => ⟨_, hdrawn, rfl⟩⟩
  · have hdrawn := get?_applyMask_of_notMem (m := m) hp
    rw [hcell, Option.map_some] at hdrawn
    rw [isDrawn_iff hdrawn, isDrawn_iff hcell]
    cases cell <;> simp [hp, Cell.flipIf, Cell.colour?]

/-- **A step draws what it covers**, and leaves drawn what was drawn. -/
theorem isDrawn_apply (hin : p.1 < d.version.width ∧ p.2 < d.version.width) :
    (step.apply d).IsDrawn p ↔ d.IsDrawn p ∨ step.Covers d.version p := by
  cases step with
  | patterns => exact isDrawn_patterns hin
  | payload bits =>
    rw [Step.apply, left_placePayload]
    exact isDrawn_payload hin bits
  | mask m => exact isDrawn_mask hin m

/-- **After a run** a cell is drawn when it was before, or some step covers it. -/
theorem isDrawn_run (hin : p.1 < d.version.width ∧ p.2 < d.version.width) :
    (d.run steps).IsDrawn p ↔ d.IsDrawn p ∨ ∃ step ∈ steps, step.Covers d.version p := by
  induction steps generalizing d with
  | nil => simp [run]
  | cons step steps ih =>
    have hrest := ih (d := step.apply d) (by rwa [version_apply])
    rw [version_apply] at hrest
    show ((step.apply d).run steps).IsDrawn p ↔ _
    rw [hrest, isDrawn_apply hin]
    simp only [List.mem_cons, exists_eq_or_imp, or_assoc]

/-! ### Which runs complete a symbol -/

/-- A draft is complete when every place inside is drawn. -/
theorem isComplete_iff :
    d.isComplete = true ↔
      ∀ p : Nat × Nat, p.1 < d.version.width ∧ p.2 < d.version.width → d.IsDrawn p := by
  rw [isComplete, List.all_eq_true]
  constructor
  · intro h p hin
    have hcell := Grid.get?_eq_some (g := d.grid) hin.1 hin.2
    exact ⟨_, hcell, h _ (Grid.mem_toList.2 ⟨_, _, rfl⟩)⟩
  · intro h cell hmem
    obtain ⟨r, c, rfl⟩ := Grid.mem_toList.1 hmem
    exact (isDrawn_iff (Grid.get?_eq_some r.isLt c.isLt)).1 (h (r, c) ⟨r.isLt, c.isLt⟩)

/-- What a finished symbol is made of. -/
theorem toSymbol_eq_ok {q : Symbol} :
    d.toSymbol = .ok q ↔ ∃ m, d.mask = some m ∧ d.isComplete = true ∧
      q = ⟨d.version, d.level, m, d.grid.map fun cell => cell.colour?.getD .light⟩ := by
  unfold toSymbol
  cases d.mask with
  | none => simp
  | some m =>
    dsimp only
    split <;> rename_i hcomplete
    · simp [hcomplete, eq_comm]
    · simp [hcomplete]

/-- A draft is refused for being incomplete, and for nothing else. -/
theorem toSymbol_eq_error {e : Error} (h : d.toSymbol = .error e) : e = .incompleteSymbol := by
  unfold toSymbol at h
  split at h
  · exact (Except.error.inj h).symm
  · split at h
    · cases h
    · exact (Except.error.inj h).symm

/-- Nothing is drawn on a blank draft. -/
theorem not_isDrawn_blank (v : Version) (level : Level) (p : Nat × Nat) : ¬(blank v level).IsDrawn p := by
  rintro ⟨cell, hcell, hcolour⟩
  by_cases hin : p.1 < v.width ∧ p.2 < v.width
  · have hblank : (blank v level).grid.get? p = some .empty := Grid.get?_fill hin
    rw [hblank] at hcell
    cases hcell
    cases hcolour
  · have hoff : (blank v level).grid.get? p = none := Grid.get?_eq_none hin
    rw [hoff] at hcell
    cases hcell

/-- Every version has a data region. -/
theorem exists_mem_dataPlaces (v : Version) : ∃ p, p ∈ dataPlaces v := by
  refine List.exists_mem_of_length_pos ?_
  have hroom := codewords_le_dataPlaces v
  have hpos := v.ecCodewords_lt_total .low
  omega

/-- **Patterns and a payload draw every cell**, and nothing less does: the timing column
and the data region are drawn by one of them each. -/
theorem isComplete_run (v : Version) (level : Level) (steps : List Step) :
    ((blank v level).run steps).isComplete = true ↔
      .patterns ∈ steps ∧ ∃ bits, .payload bits ∈ steps := by
  have hversion : ((blank v level).run steps).version = v := version_run ..
  rw [isComplete_iff, hversion]
  have hrun : ∀ p : Nat × Nat, p.1 < v.width ∧ p.2 < v.width →
      (((blank v level).run steps).IsDrawn p ↔ ∃ step ∈ steps, step.Covers v p) := by
    intro p hin
    rw [isDrawn_run (d := blank v level) hin]
    simp only [not_isDrawn_blank, false_or]
    rfl
  constructor
  · intro h
    constructor
    · have hw := v.width_bounds.1
      have hin : (0, timingColumn).1 < v.width ∧ (0, timingColumn).2 < v.width := by
        unfold timingColumn; omega
      obtain ⟨step, hstep, hcovers⟩ := (hrun _ hin).1 (h _ hin)
      cases step with
      | patterns => exact hstep
      | payload bits => exact absurd rfl hcovers
      | mask m => exact absurd hcovers (notMem_reserved rfl).1
    · obtain ⟨p, hp⟩ := exists_mem_dataPlaces v
      obtain ⟨hr, hc, hfree⟩ := mem_dataPlaces_iff.1 hp
      obtain ⟨hfunction, hformat, -⟩ := isReserved_eq_false.1 hfree
      obtain ⟨step, hstep, hcovers⟩ := (hrun _ ⟨hr, hc⟩).1 (h _ ⟨hr, hc⟩)
      cases step with
      | patterns =>
        rw [Step.Covers, hfunction] at hcovers
        cases hcovers
      | payload bits => exact ⟨bits, hstep⟩
      | mask m => exact absurd hcovers hformat
  · rintro ⟨hpatterns, bits, hpayload⟩ p hin
    rw [hrun p hin]
    by_cases hc : p.2 = timingColumn
    · exact ⟨_, hpatterns, functionColour?_timingColumn hin.1 hc⟩
    · exact ⟨_, hpayload, hc⟩

/-! ### The last mask -/

/-- Only a mask changes which mask was applied last. -/
theorem mask_apply (h : ∀ m, step ≠ .mask m) : (step.apply d).mask = d.mask := by
  cases step with
  | patterns => rfl
  | payload bits => rw [Step.apply, left_placePayload]; rfl
  | mask m => exact absurd rfl (h m)

/-- So without a mask, the one from before remains. -/
theorem mask_run (h : ∀ m, .mask m ∉ steps) : (d.run steps).mask = d.mask := by
  induction steps generalizing d with
  | nil => rfl
  | cons step steps ih =>
    have hstep : ∀ m, step ≠ .mask m := fun m hm => h m (hm ▸ List.mem_cons_self)
    have hrest : ∀ m, Step.mask m ∉ steps := fun m hm => h m (List.mem_cons_of_mem _ hm)
    show ((step.apply d).run steps).mask = _
    rw [ih hrest, mask_apply hstep]

/-- Among steps with a mask there is a last one. -/
theorem exists_last_mask (h : ∃ m, .mask m ∈ steps) :
    ∃ before m after, steps = before ++ .mask m :: after ∧ ∀ m', .mask m' ∉ after := by
  induction steps with
  | nil =>
    obtain ⟨m, hm⟩ := h
    cases hm
  | cons step steps ih =>
    by_cases hrest : ∃ m, .mask m ∈ steps
    · obtain ⟨before, m, after, rfl, hlast⟩ := ih hrest
      exact ⟨step :: before, m, after, rfl, hlast⟩
    · obtain ⟨m, hm⟩ := h
      rcases List.mem_cons.1 hm with rfl | hm
      · exact ⟨[], m, steps, rfl, not_exists.1 hrest⟩
      · exact absurd ⟨m, hm⟩ hrest

/-! ### The format information after the last mask -/

/-- Both copies of the format information and the dark module, as fifteen bits give them. -/
def ShowsFormat (d : Draft) (info : Nat) : Prop :=
  ∀ p k, (p, k) ∈ formatColours d.version.width info → d.grid.get? p = some (.format k)

variable {info : Nat}

/-- What is drawn on format places stays there. -/
theorem get?_format_of_map {d' : Draft} {k : Colour} (hp : (p, k) ∈ formatColours d.version.width info)
    (h : d'.grid.get? p = (d.grid.get? p).map fun _ => .format k) : d'.grid.get? p = some (.format k) := by
  have hmem := (colours_format d.version _).mem hp
  obtain ⟨hr, hc, -⟩ := formatPlaces_bounds d.version.width_bounds.1 p hmem
  obtain ⟨cell, hcell⟩ := exists_cell (d := d) ⟨hr, hc⟩
  rw [h, hcell]
  rfl

/-- After a mask, a draft shows the format information of that mask. -/
theorem showsFormat_mask (d : Draft) (m : Mask) :
    (d.applyMask m).ShowsFormat (formatInfo d.level m) := by
  intro p k hp
  have hp : (p, k) ∈ formatColours d.version.width (formatInfo d.level m) := hp
  exact get?_format_of_map hp (get?_applyMask_of_mem hp)

/-- Function patterns keep clear of the format information. -/
theorem ShowsFormat.patterns (h : d.ShowsFormat info) : d.drawFunctionPatterns.ShowsFormat info := by
  intro p k hp
  have hp : (p, k) ∈ formatColours d.version.width info := hp
  have hmem := (colours_format d.version _).mem hp
  rw [get?_drawFunctionPatterns, h p k hp, functionColour?_eq_none (.inl hmem)]
  rfl

/-- A payload writes ones over the format information. -/
theorem showsFormat_payload (d : Draft) (bits : List Bool) :
    (d.reserve.placeBits d.reserve.freePlaces bits).ShowsFormat (2 ^ formatLength - 1) := by
  intro p k hp
  have hp : (p, k) ∈ formatColours d.version.width (2 ^ formatLength - 1) := hp
  have hreserved := get?_format_of_map hp (get?_reserve_of_format hp)
  refine (get?_placeBits_of_notMem (nodup_freePlaces _) fun hfree => ?_).trans hreserved
  rw [(mem_freePlaces.1 hfree).2] at hreserved
  cases hreserved

/-- Without another mask, a draft shows what it showed, or ones after a payload. -/
theorem ShowsFormat.run (h : d.ShowsFormat info) (hlast : ∀ m, .mask m ∉ steps) :
    ((∀ bits, .payload bits ∉ steps) → (d.run steps).ShowsFormat info) ∧
    ((∃ bits, .payload bits ∈ steps) → (d.run steps).ShowsFormat (2 ^ formatLength - 1)) := by
  induction steps generalizing d info with
  | nil => exact ⟨fun _ => h, fun ⟨bits, hbits⟩ => absurd hbits List.not_mem_nil⟩
  | cons step steps ih =>
    have hrest : ∀ m, Step.mask m ∉ steps := fun m hm => hlast m (List.mem_cons_of_mem _ hm)
    cases step with
    | patterns =>
      obtain ⟨hkept, hones⟩ := ih h.patterns hrest
      refine ⟨fun hnone => hkept fun bits hbits => hnone bits (List.mem_cons_of_mem _ hbits), ?_⟩
      rintro ⟨bits, hbits⟩
      exact hones ⟨bits, (List.mem_cons.1 hbits).resolve_left nofun⟩
    | payload bits =>
      refine ⟨fun hnone => absurd List.mem_cons_self (hnone bits), fun _ => ?_⟩
      have hstep : (Step.apply d (.payload bits)).ShowsFormat (2 ^ formatLength - 1) := by
        rw [Step.apply, left_placePayload]
        exact showsFormat_payload d bits
      obtain ⟨hkept, hones⟩ := ih hstep hrest
      by_cases hmore : ∃ bits, .payload bits ∈ steps
      · exact hones hmore
      · exact hkept (not_exists.1 hmore)
    | mask m => exact absurd List.mem_cons_self (hlast m)

/-- Either copy of a symbol spells what the draft shows. -/
theorem ShowsFormat.bitsAt? (h : d.ShowsFormat info) {copy : List (Nat × Nat)}
    (hcopy : copy ∈ Reader.formatCopies d.version.width) :
    Reader.bitsAt? (d.grid.map fun cell => cell.colour?.getD .light) copy =
      some (bitsOf info formatLength) := by
  refine mapM_eq_some_of_zip ?_ fun e he => ?_
  · rw [BitString.length_bitsOf]
    exact Reader.length_of_mem_formatCopies hcopy
  · rw [Grid.get?_map, h _ _ (Reader.mem_formatColours_of_copy hcopy he), Option.map_some, Option.map_some]
    exact congrArg some (Colour.isDark_ofBit e.2)

/-- Steps can be taken in two goes. -/
theorem run_append (d : Draft) (steps steps' : List Step) : d.run (steps ++ steps') = (d.run steps).run steps' :=
  List.foldl_append

/-- After the last mask of a run, the draft keeps it. -/
theorem mask_run_of_last {before after : List Step} {m : Mask} (hlast : ∀ m, .mask m ∉ after) :
    (d.run (before ++ .mask m :: after)).mask = some m := by
  rw [run_append]
  exact mask_run (d := (d.run before).applyMask m) hlast

/-- **The format information is that of the last mask**, unless a payload was placed later. -/
theorem bitsAt?_run_iff {before after : List Step} {m : Mask} (hlast : ∀ m, .mask m ∉ after)
    (hsteps : steps = before ++ .mask m :: after) :
    (∀ copy ∈ Reader.formatCopies (d.run steps).version.width,
        Reader.bitsAt? ((d.run steps).grid.map fun cell => cell.colour?.getD .light) copy =
          some (bitsOf (formatInfo d.level m) formatLength)) ↔
      ∀ bits, .payload bits ∉ after := by
  have hrun : ((d.run before).applyMask m).run after = d.run steps := by
    rw [hsteps, run_append]
    rfl
  obtain ⟨hkept, hones⟩ := (showsFormat_mask (d.run before) m).run hlast
  rw [level_run, hrun] at hkept
  rw [hrun] at hones
  constructor
  · intro hcopies bits hbits
    have hmain : formatMain ∈ Reader.formatCopies (d.run steps).version.width := List.mem_cons_self
    have hsame := ((hones ⟨bits, hbits⟩).bitsAt? hmain).symm.trans (hcopies _ hmain)
    have hinfo := bitsOf_injective (by decide) (formatInfo_lt d.level m) (Option.some.inj hsame)
    exact formatInfo_ne_reserved d.level m hinfo.symm
  · intro hnone copy hcopy
    exact (hkept hnone).bitsAt? hcopy

/-- What is drawn lies inside. -/
theorem IsDrawn.inside (h : d.IsDrawn p) : p.1 < d.version.width ∧ p.2 < d.version.width := by
  obtain ⟨cell, hcell, -⟩ := h
  exact inside_of_cell hcell

end Draft

open Draft

/-- **Drawing in any order.**  A run of steps on a blank draft completes a symbol exactly
when each of the three steps occurs in it; a payload counts also when it is too long.
Otherwise the symbol is reported incomplete.  No step empties a cell of any draft.  The
mask of the symbol is the last one of the run, and both copies of the format information
agree with it exactly when no payload came later. -/
theorem toSymbol_run (v : Version) (level : Level) (steps : List Step) :
    ((∃ q, ((blank v level).run steps).toSymbol = .ok q) ↔
      .patterns ∈ steps ∧ (∃ bits, .payload bits ∈ steps) ∧ ∃ m, .mask m ∈ steps) ∧
    (∀ e, ((blank v level).run steps).toSymbol = .error e → e = .incompleteSymbol) ∧
    (∀ (d : Draft) (step : Step) (p : Nat × Nat), d.IsDrawn p → (step.apply d).IsDrawn p) ∧
    ∀ q, ((blank v level).run steps).toSymbol = .ok q → q.version = v ∧ q.level = level ∧
      ∃ before after, steps = before ++ .mask q.mask :: after ∧ (∀ m, .mask m ∉ after) ∧
        ((∀ copy ∈ [formatMain, formatSide q.width],
            Reader.bitsAt? q.grid copy = some (bitsOf (formatInfo level q.mask) 15)) ↔
          ∀ bits, .payload bits ∉ after) := by
  have hmasked : ((blank v level).run steps).mask ≠ none → ∃ m, .mask m ∈ steps := by
    intro h
    by_contra hnone
    exact h (mask_run (not_exists.1 hnone))
  refine ⟨?_, fun e => toSymbol_eq_error, fun d step p h => (isDrawn_apply h.inside).2 (.inl h), ?_⟩
  · constructor
    · rintro ⟨q, hq⟩
      obtain ⟨m, hmask, hcomplete, -⟩ := toSymbol_eq_ok.1 hq
      obtain ⟨hpatterns, hpayload⟩ := (isComplete_run v level steps).1 hcomplete
      exact ⟨hpatterns, hpayload, hmasked (by rw [hmask]; exact nofun)⟩
    · rintro ⟨hpatterns, hpayload, hmask⟩
      obtain ⟨before, m, after, rfl, hlast⟩ := exists_last_mask hmask
      have hcomplete := (isComplete_run v level _).2 ⟨hpatterns, hpayload⟩
      exact ⟨_, toSymbol_eq_ok.2 ⟨m, mask_run_of_last hlast, hcomplete, rfl⟩⟩
  · intro q hq
    obtain ⟨m, hmask, -, rfl⟩ := toSymbol_eq_ok.1 hq
    obtain ⟨before, m', after, hsteps, hlast⟩ := exists_last_mask (hmasked (by rw [hmask]; exact nofun))
    obtain rfl : m' = m := by
      rw [hsteps, mask_run_of_last hlast] at hmask
      exact Option.some.inj hmask
    exact ⟨version_run .., level_run .., before, after, hsteps, hlast, bitsAt?_run_iff hlast hsteps⟩

/-- A mask before everything else, and another after it. -/
theorem toSymbol_run_remasked :
    ∃ q, ((blank (.ofIndex 0) .low).run
        [.mask ⟨2⟩, .payload [true], .patterns, .mask ⟨5⟩]).toSymbol = .ok q ∧
      q.mask = ⟨5⟩ ∧ ∀ copy ∈ [formatMain, formatSide q.width],
        Reader.bitsAt? q.grid copy = some (bitsOf (formatInfo .low ⟨5⟩) 15) := by
  obtain ⟨hok, -, -, hsymbol⟩ :=
    toSymbol_run (.ofIndex 0) .low [.mask ⟨2⟩, .payload [true], .patterns, .mask ⟨5⟩]
  obtain ⟨q, hq⟩ := hok.2 ⟨by decide, ⟨[true], by decide⟩, ⟨5⟩, by decide⟩
  obtain ⟨-, -, before, after, hsteps, hlast, hformat⟩ := hsymbol q hq
  have hend : q.mask = ⟨5⟩ ∧ after = [] := by
    rcases before with _ | ⟨_, _ | ⟨_, _ | ⟨_, _ | ⟨_, before⟩⟩⟩⟩
    · obtain rfl : _ = after := (List.cons.inj hsteps).2
      exact absurd (by decide) (hlast ⟨5⟩)
    · simp at hsteps
    · simp at hsteps
    · simp only [List.cons_append, List.nil_append, List.cons.injEq, Step.mask.injEq] at hsteps
      exact ⟨hsteps.2.2.2.1.symm, hsteps.2.2.2.2.symm⟩
    · simp at hsteps
  rw [hend.1, hend.2] at hformat
  exact ⟨q, hq, hend.1, hformat.2 fun _ => List.not_mem_nil⟩

end QRCode
