/-
# A payload on any draft

`Canvas::draw_encoding_region` on any canvas, and `Canvas::draw_payload` as its two loops.

A payload may be placed on a draft whatever has been drawn on it and whether or not it is
masked.  The places that are free for data are those of the path whose cells are empty once
the format and version cells are reserved (`mem_freePlaces_reserve`).  Afterwards the draft
shows

| at | the cell |
| --- | --- |
| a place of the format information, the dark module included | a dark format cell |
| a place of the version information | a version cell with its bit |
| the `k`-th free place | a data cell with bit `k`, and light where there is no bit left |
| any other place, an empty one in the timing column too | the one from before |

Nothing of this depends on whether the payload has room (`Placed`).

Bits can also be placed one at a time, each on the next empty cell of a walk along the path,
until either bits or places run out; a second pass of the same walk then makes the empty cells
that are left light (`fillStepwise`).  Every cell is looked at and set at its coordinates, where
one beyond the edges would end the drawing.  No cell is met twice, so no bit that is placed
changes what is free further on, and both ways of placing agree (`placeStepwise_eq`).
-/

import QRCode.Proofs.Patterns
import QRCode.Proofs.Runs
import QRCode.Proofs.Strokes
import QRCode.Proofs.Walking

namespace QRCode

-- powers are those of the core library, whatever else is imported
attribute [local instance (high)] instPowNat

/-- Two lists are mapped alike when their zip is. -/
theorem map_eq_map_of_zip {α β γ : Type} {f : α → γ} {g : β → γ} {l : List α} {xs : List β}
    (hlen : l.length = xs.length) (h : ∀ e ∈ l.zip xs, f e.1 = g e.2) : l.map f = xs.map g := by
  calc l.map f = ((l.zip xs).map Prod.fst).map f := by rw [List.map_fst_zip (Nat.le_of_eq hlen)]
    _ = ((l.zip xs).map Prod.snd).map g := by
      rw [List.map_map, List.map_map]
      exact List.map_congr_left h
    _ = xs.map g := by rw [List.map_snd_zip (Nat.le_of_eq hlen.symm)]

namespace Draft

/-! ### One bit at a time -/

/-- A look at a draft; one that fails ends the drawing. -/
def look {α : Type} (view : Draft → Except Error α) : Drawing α := fun d =>
  match view d with
  | .ok a => .ok a d
  | .error e => .error e d

/-- A change of a draft; one that fails leaves the draft as it was. -/
def change (next : Draft → Except Error Draft) : Drawing Unit := fun d =>
  match next d with
  | .ok d' => .ok () d'
  | .error e => .error e d

/-- The next empty place of a walk, and what remains of the walk behind it (`Canvas::next_empty`). -/
def nextEmpty : List (Nat × Nat) → Drawing (Option ((Nat × Nat) × List (Nat × Nat)))
  | [] => return none
  | p :: walk => do
    let cell ← look (·.get p.1 p.2)
    if cell = .empty then return some (p, walk)
    else nextEmpty walk

/-- Bits on the next empty places of a walk; the answer is what remains of the walk. -/
def placeEach : List Bool → List (Nat × Nat) → Drawing (List (Nat × Nat))
  | [], walk => return walk
  | b :: bits, walk => do
    match ← nextEmpty walk with
    | some (p, rest) =>
      change (·.set p.1 p.2 (.data (.ofBit b)))
      placeEach bits rest
    | none => throw .incompleteSymbol

/-- Light data on the empty places of a walk, which are counted on. -/
def lightEach : List (Nat × Nat) → Nat → Drawing Nat
  | [], count => return count
  | p :: walk, count => do
    let cell ← look (·.get p.1 p.2)
    if cell = .empty then
      change (·.set p.1 p.2 (.data .light))
      lightEach walk (count + 1)
    else lightEach walk count

/-- A payload bit by bit, then light data in the empty cells that the walk has not reached
(`Canvas::draw_payload`). -/
def fillStepwise (payload : List Bool) : Drawing Nat := do
  let d ← getThe Draft
  let rest ← placeEach payload (Zigzag.path d.width)
  lightEach rest 0

/-- Format and version cells, then a payload bit by bit (`Canvas::draw_encoding_region`). -/
def placeStepwise (payload : List Bool) : Drawing Nat := fun d => fillStepwise payload d.reserve

/-! ### What is free -/

/-- A list of places inside a symbol, none of them twice. -/
structure IsWalk (n : Nat) (walk : List (Nat × Nat)) : Prop where
  nodup : walk.Nodup
  inside : ∀ p ∈ walk, p.1 < n ∧ p.2 < n

/-- The draft with another cell at a place. -/
def put (d : Draft) (p : Nat × Nat) (cell : Cell) : Draft := { d with grid := d.grid.set p cell }

/-- The places of a walk whose cells are empty. -/
def emptyOf (d : Draft) (walk : List (Nat × Nat)) : List (Nat × Nat) :=
  walk.filter fun p => d.grid.get? p = some .empty

/-- Bits on given places. -/
def putAll (d : Draft) (l : List ((Nat × Nat) × Bool)) : Draft :=
  l.foldl (fun d e => d.put e.1 (.data (.ofBit e.2))) d

variable {d : Draft} {p : Nat × Nat} {walk free : List (Nat × Nat)} {bits : List Bool}

/-- The placement path is a walk. -/
theorem isWalk_path (d : Draft) : IsWalk d.width (Zigzag.path d.width) where
  nodup := d.version.nodup_path
  inside p hp := by
    obtain ⟨hr, hc, -⟩ := Version.mem_path.1 hp
    exact ⟨hr, hc⟩

/-- What remains of a walk does not lead back to where it began. -/
theorem IsWalk.tail {n : Nat} (h : IsWalk n (p :: walk)) : p ∉ walk ∧ IsWalk n walk := by
  obtain ⟨hp, hn⟩ := List.nodup_cons.1 h.nodup
  exact ⟨hp, hn, fun q hq => h.inside q (List.mem_cons_of_mem _ hq)⟩

/-- An empty cell at the front of a walk is the first of its empty cells. -/
theorem emptyOf_cons_of_empty (h : d.grid.get? p = some .empty) :
    d.emptyOf (p :: walk) = p :: d.emptyOf walk := List.filter_cons_of_pos (decide_eq_true h)

/-- A drawn cell at the front is passed over. -/
theorem emptyOf_cons_of_drawn {cell : Cell} (h : d.grid.get? p = some cell) (hdrawn : cell ≠ .empty) :
    d.emptyOf (p :: walk) = d.emptyOf walk := by
  refine List.filter_cons_of_neg ?_
  rw [h]
  simpa using hdrawn

/-- A cell that is drawn leaves the rest of a walk as it was. -/
theorem emptyOf_put (h : p ∉ walk) (cell : Cell) : (d.put p cell).emptyOf walk = d.emptyOf walk := by
  refine List.filter_congr fun q hq => ?_
  have hne : p ≠ q := fun he => h (he ▸ hq)
  have hget : (d.put p cell).grid.get? q = d.grid.get? q := by
    rw [put, Grid.get?_set, if_neg hne]
  rw [hget]

/-- A look at a place inside shows the cell there. -/
theorem look_get_eq {cell : Cell} (h : d.grid.get? p = some cell) : look (·.get p.1 p.2) d = .ok cell d := by
  have hin : p.1 < d.width ∧ p.2 < d.width := inside_of_cell h
  have hget : d.get p.1 p.2 = .ok ((d.grid.get? (placeOf d.width (p.1, p.2))).getD .empty) :=
    get_eq (x := (p.1, p.2)) ⟨by dsimp only; omega, by dsimp only; omega⟩
  rw [placeOf_natCast hin, h] at hget
  unfold look
  dsimp only
  rw [hget]
  rfl

/-- A cell inside can be set. -/
theorem change_set_eq (hin : p.1 < d.width ∧ p.2 < d.width) (cell : Cell) :
    change (·.set p.1 p.2 cell) d = .ok () (d.put p cell) := by
  have hset : d.set p.1 p.2 cell = .ok { d with grid := d.grid.set (placeOf d.width (p.1, p.2)) cell } :=
    set_eq (x := (p.1, p.2)) ⟨by dsimp only; omega, by dsimp only; omega⟩ cell
  rw [placeOf_natCast hin] at hset
  unfold change
  dsimp only
  rw [hset]
  rfl

/-- The search ends at an empty cell. -/
theorem nextEmpty_cons_of_empty (h : d.grid.get? p = some .empty) :
    nextEmpty (p :: walk) d = .ok (some (p, walk)) d := by
  rw [nextEmpty, bind_of_ok (look_get_eq h), if_pos rfl]
  rfl

/-- The search goes on behind a drawn cell. -/
theorem nextEmpty_cons_of_drawn {cell : Cell} (h : d.grid.get? p = some cell) (hcell : cell ≠ .empty) :
    nextEmpty (p :: walk) d = nextEmpty walk d := by
  rw [nextEmpty, bind_of_ok (look_get_eq h), if_neg hcell]

/-- Each place of a walk is empty or has a drawn cell. -/
theorem IsWalk.head_cases (h : IsWalk d.width (p :: walk)) :
    d.grid.get? p = some .empty ∨ ∃ cell, d.grid.get? p = some cell ∧ cell ≠ .empty := by
  obtain ⟨cell, hcell⟩ := exists_cell (h.inside p List.mem_cons_self)
  by_cases hempty : cell = .empty
  · exact .inl (hempty ▸ hcell)
  · exact .inr ⟨cell, hcell, hempty⟩

/-- Without an empty cell the search comes to the end of the walk. -/
theorem nextEmpty_eq_none (hw : IsWalk d.width walk) (h : d.emptyOf walk = []) :
    nextEmpty walk d = .ok none d := by
  induction walk with
  | nil => rfl
  | cons p walk ih =>
    rcases hw.head_cases with hempty | ⟨cell, hcell, hdrawn⟩
    · rw [emptyOf_cons_of_empty hempty] at h
      cases h
    · rw [emptyOf_cons_of_drawn hcell hdrawn] at h
      rw [nextEmpty_cons_of_drawn hcell hdrawn]
      exact ih hw.tail.2 h

/-- **The next empty place is the first free one**, and the others remain. -/
theorem nextEmpty_eq_some (hw : IsWalk d.width walk) (h : d.emptyOf walk = p :: free) :
    (p.1 < d.width ∧ p.2 < d.width) ∧
      ∃ rest, nextEmpty walk d = .ok (some (p, rest)) d ∧ IsWalk d.width rest ∧ p ∉ rest ∧
        d.emptyOf rest = free := by
  induction walk with
  | nil => cases h
  | cons q walk ih =>
    obtain ⟨hq, hrest⟩ := hw.tail
    rcases hw.head_cases with hempty | ⟨cell, hcell, hdrawn⟩
    · rw [emptyOf_cons_of_empty hempty] at h
      obtain ⟨rfl, hfree⟩ := List.cons.inj h
      exact ⟨hw.inside q List.mem_cons_self, walk, nextEmpty_cons_of_empty hempty, hrest, hq, hfree⟩
    · rw [emptyOf_cons_of_drawn hcell hdrawn] at h
      rw [nextEmpty_cons_of_drawn hcell hdrawn]
      exact ih hrest h

/-! ### Both passes -/

/-- **One bit takes the first free place**, and the others stay free. -/
theorem placeEach_cons (hw : IsWalk d.width walk) (h : d.emptyOf walk = p :: free) (b : Bool)
    (bits : List Bool) :
    ∃ rest, placeEach (b :: bits) walk d = placeEach bits rest (d.put p (.data (.ofBit b))) ∧
      IsWalk d.width rest ∧ (d.put p (.data (.ofBit b))).emptyOf rest = free := by
  obtain ⟨hin, rest, hnext, hrest, hp, hremain⟩ := nextEmpty_eq_some hw h
  refine ⟨rest, ?_, hrest, (emptyOf_put hp _).trans hremain⟩
  rw [placeEach, bind_of_ok hnext]
  exact bind_of_ok (change_set_eq hin _)

/-- Bits that have room take the first free places. -/
theorem placeEach_eq_ok (hw : IsWalk d.width walk) (hfree : d.emptyOf walk = free)
    (h : bits.length ≤ free.length) :
    ∃ rest, placeEach bits walk d = .ok rest (d.putAll (free.zip bits)) ∧
      IsWalk (d.putAll (free.zip bits)).width rest ∧
      (d.putAll (free.zip bits)).emptyOf rest = free.drop bits.length := by
  induction bits generalizing d walk free with
  | nil =>
    rw [List.zip_nil_right]
    exact ⟨walk, rfl, hw, hfree⟩
  | cons b bits ih =>
    cases free with
    | nil => cases h
    | cons p free =>
      obtain ⟨rest, hstep, hrest, hremain⟩ := placeEach_cons hw hfree b bits
      rw [hstep]
      exact ih (d := d.put p _) hrest hremain (Nat.le_of_succ_le_succ h)

/-- Bits that have no room take all free places before the failure. -/
theorem placeEach_eq_error (hw : IsWalk d.width walk) (hfree : d.emptyOf walk = free)
    (h : free.length < bits.length) :
    placeEach bits walk d = .error .incompleteSymbol (d.putAll (free.zip bits)) := by
  induction bits generalizing d walk free with
  | nil => cases h
  | cons b bits ih =>
    cases free with
    | nil =>
      rw [placeEach, bind_of_ok (nextEmpty_eq_none hw hfree)]
      rfl
    | cons p free =>
      obtain ⟨rest, hstep, hrest, hremain⟩ := placeEach_cons hw hfree b bits
      rw [hstep]
      exact ih (d := d.put p _) hrest hremain (Nat.lt_of_succ_lt_succ h)

/-- The second pass makes light what is free. -/
theorem lightEach_eq (hw : IsWalk d.width walk) (count : Nat) :
    lightEach walk count d =
      .ok (count + (d.emptyOf walk).length) (d.putAll ((d.emptyOf walk).map fun p => (p, false))) := by
  induction walk generalizing d count with
  | nil => rfl
  | cons p walk ih =>
    obtain ⟨hp, hrest⟩ := hw.tail
    rw [lightEach]
    rcases hw.head_cases with hempty | ⟨cell, hcell, hdrawn⟩
    · have hset := change_set_eq (hw.inside p List.mem_cons_self) (.data .light)
      rw [bind_of_ok (look_get_eq hempty), if_pos rfl, bind_of_ok hset, ih (d := d.put p _) hrest,
        emptyOf_put hp, emptyOf_cons_of_empty hempty, List.length_cons, Nat.add_right_comm, ← Nat.add_assoc]
      rfl
    · rw [bind_of_ok (look_get_eq hcell), if_neg hdrawn, ih hrest, emptyOf_cons_of_drawn hcell hdrawn]

/-! ### Both ways of placing -/

/-- Bits can be put in two goes. -/
theorem putAll_append (l l' : List ((Nat × Nat) × Bool)) : d.putAll (l ++ l') = (d.putAll l).putAll l' :=
  List.foldl_append

/-- Bits that are put one by one are data written to the grid. -/
theorem putAll_eq (d : Draft) (l : List ((Nat × Nat) × Bool)) :
    d.putAll l = { d with grid := d.grid.setAll (l.map fun e => (e.1, .data (.ofBit e.2))) } := by
  induction l generalizing d with
  | nil => rfl
  | cons e l ih => exact ih (d.put e.1 (.data (.ofBit e.2)))

/-- Bits on places with zeros behind them: first those that there are, then the zeros. -/
theorem zip_padded (places : List (Nat × Nat)) (bits : List Bool) :
    places.zip (padded places.length bits) =
      places.zip bits ++ (places.drop bits.length).map fun p => (p, false) := by
  induction places generalizing bits with
  | nil => rw [List.zip_nil_left, List.zip_nil_left, List.drop_nil]; rfl
  | cons p places ih =>
    cases bits with
    | nil =>
      have hrest := ih []
      rw [padded, List.nil_append, List.zip_nil_right, List.nil_append] at hrest
      exact congrArg ((p, false) :: ·) hrest
    | cons b bits =>
      have hpadded : padded (p :: places).length (b :: bits) = b :: padded places.length bits := by
        rw [padded, List.length_cons, List.length_cons, Nat.add_sub_add_right]
        rfl
      rw [hpadded]
      exact congrArg ((p, b) :: ·) (ih bits)

/-- Data is its bits, then light cells on the places left. -/
theorem placeBits_eq_putAll (d : Draft) (places : List (Nat × Nat)) (bits : List Bool) :
    d.placeBits places bits =
      (d.putAll (places.zip bits)).putAll ((places.drop bits.length).map fun p => (p, false)) := by
  have hcells :
      (places.zip ((padded places.length bits).map Colour.ofBit)).map (fun e => (e.1, Cell.data e.2)) =
        (places.zip (padded places.length bits)).map fun e => (e.1, Cell.data (.ofBit e.2)) := by
    rw [List.zip_map_right, List.map_map]
    rfl
  rw [← putAll_append, ← zip_padded, putAll_eq, ← hcells, placeBits_eq]
  rfl

/-- **One bit at a time or all at once**, on a draft whose format and version cells are drawn. -/
theorem fillStepwise_eq (bits : List Bool) (d : Draft) :
    fillStepwise bits d =
      if bits.length ≤ d.freePlaces.length then
        .ok (d.freePlaces.length - bits.length) (d.placeBits d.freePlaces bits)
      else .error .incompleteSymbol (d.placeBits d.freePlaces bits) := by
  have hw := d.isWalk_path
  have hfree : d.emptyOf (Zigzag.path d.width) = d.freePlaces := rfl
  have hget : (getThe Draft : Drawing Draft) d = .ok d d := rfl
  rw [fillStepwise, bind_of_ok hget, placeBits_eq_putAll]
  by_cases h : bits.length ≤ d.freePlaces.length
  · obtain ⟨rest, hplaced, hrest, hremain⟩ := placeEach_eq_ok hw hfree h
    rw [bind_of_ok hplaced, if_pos h, lightEach_eq hrest, hremain, List.length_drop,
      Nat.zero_add]
  · have hlong := Nat.lt_of_not_le h
    rw [bind_of_error (placeEach_eq_error hw hfree hlong), if_neg h,
      List.drop_eq_nil_of_le (Nat.le_of_lt hlong)]
    rfl

/-- **One bit at a time or all at once**: the draft, the count of light cells and the failure
are the same. -/
theorem placeStepwise_eq (bits : List Bool) (d : Draft) : placeStepwise bits d = placePayload bits d :=
  fillStepwise_eq bits d.reserve

/-! ### What a draft shows afterwards -/

/-- Reserved version cells hold the version information. -/
theorem get?_reserve_of_version {k : Colour} (h : (p, k) ∈ versionColours d.version) :
    d.reserve.grid.get? p = (d.grid.get? p).map fun _ => .version k := by
  have hp := (colours_version d.version).mem h
  have hformat : d.reserveFormat.grid.get? p = d.grid.get? p :=
    (colours_format d.version _).get?_of_notMem (notMem_formatPlaces hp)
  rw [← hformat]
  exact (colours_version d.version).get?_of_mem (d := d.reserveFormat) h

/-- **Free for data** are the empty cells of the path that are not reserved. -/
theorem mem_freePlaces_reserve :
    p ∈ d.reserve.freePlaces ↔
      p ∈ Zigzag.path d.version.width ∧ p ∉ formatPlaces d.version.width ∧
        p ∉ versionPlaces d.version ∧ d.grid.get? p = some .empty := by
  rw [mem_freePlaces]
  refine and_congr_right fun hpath => ?_
  by_cases hformat : p ∈ formatPlaces d.version.width
  · obtain ⟨k, hk⟩ := (colours_format d.version (2 ^ formatLength - 1)).exists_colour hformat
    rw [get?_reserve_of_format hk]
    simp [hformat]
  · by_cases hversion : p ∈ versionPlaces d.version
    · obtain ⟨k, hk⟩ := (colours_version d.version).exists_colour hversion
      rw [get?_reserve_of_version hk]
      simp [hversion]
    · rw [get?_reserve_of_notMem hformat hversion]
      simp [hformat, hversion]

/-- Fifteen ones are dark, as is the dark module. -/
theorem dark_of_mem_formatColours {n : Nat} {k : Colour}
    (h : (p, k) ∈ formatColours n (2 ^ formatLength - 1)) : k = .dark := by
  have hones : (bitsOf (2 ^ formatLength - 1) formatLength).map Colour.ofBit =
      List.replicate formatLength .dark := by decide
  unfold formatColours at h
  dsimp only at h
  rw [hones, List.mem_append, List.mem_append, List.mem_singleton, Prod.mk.injEq] at h
  rcases h with (h | h) | h
  · exact List.eq_of_mem_replicate (List.of_mem_zip h).2
  · exact List.eq_of_mem_replicate (List.of_mem_zip h).2
  · exact h.2

/-- What a draft shows after a payload, in terms of the draft before it. -/
structure Placed (d : Draft) (bits : List Bool) (d' : Draft) : Prop where
  version_eq : d'.version = d.version
  level_eq : d'.level = d.level
  mask_eq : d'.mask = d.mask
  /-- Both copies of the format information and the dark module are dark. -/
  format : ∀ p ∈ formatPlaces d.version.width, d'.grid.get? p = some (.format .dark)
  /-- Both blocks hold the version information, highest bit first. -/
  version : 7 ≤ d.version.number →
    ∀ block ∈ [versionLowerLeft d.version.width, versionUpperRight d.version.width],
      block.map d'.grid.get? = (bitsOf (versionInfo d.version) 18).map fun b => some (.version (.ofBit b))
  /-- The free places hold the bits in their order. -/
  payload : ∀ k (hk : k < d.reserve.freePlaces.length) (hb : k < bits.length),
    d'.grid.get? d.reserve.freePlaces[k] = some (.data (.ofBit bits[k]))
  /-- Free places without a bit are light. -/
  remainder : ∀ k (hk : k < d.reserve.freePlaces.length), bits.length ≤ k →
    d'.grid.get? d.reserve.freePlaces[k] = some (.data .light)
  /-- All other places are as they were. -/
  others : ∀ p, p ∉ formatPlaces d.version.width → p ∉ versionPlaces d.version →
    p ∉ d.reserve.freePlaces → d'.grid.get? p = d.grid.get? p

/-- A free place shows its bit among those of the payload and the zeros behind it. -/
theorem get?_placed_free {k : Nat} (hk : k < d.reserve.freePlaces.length)
    (hb : k < (padded d.reserve.freePlaces.length bits).length) :
    (d.reserve.placeBits d.reserve.freePlaces bits).grid.get? d.reserve.freePlaces[k] =
      some (.data (.ofBit (padded d.reserve.freePlaces.length bits)[k])) := by
  have hzip : k < (d.reserve.freePlaces.zip (padded d.reserve.freePlaces.length bits)).length := by
    rw [List.length_zip]
    omega
  have hmem := List.getElem_mem hzip
  rw [List.getElem_zip] at hmem
  rw [get?_placeBits_of_mem (nodup_freePlaces d.reserve) hmem,
    (mem_freePlaces.1 (List.getElem_mem hk)).2]
  rfl

/-- Reserved version cells stay as they are. -/
theorem get?_placed_version {k : Colour} (h : (p, k) ∈ versionColours d.version) :
    (d.reserve.placeBits d.reserve.freePlaces bits).grid.get? p = some (.version k) := by
  have hp := (colours_version d.version).mem h
  have hbounds := versionPlaces_bounds hp
  obtain ⟨cell, hcell⟩ := exists_cell (d := d) (p := p) ⟨by omega, by omega⟩
  have hfree : p ∉ d.reserve.freePlaces := fun hfree => (mem_freePlaces_reserve.1 hfree).2.2.1 hp
  rw [get?_placeBits_of_notMem (nodup_freePlaces _) hfree, get?_reserve_of_version h, hcell]
  rfl

/-- **What a payload does to any draft.** -/
theorem placed (d : Draft) (bits : List Bool) :
    d.Placed bits (d.reserve.placeBits d.reserve.freePlaces bits) where
  version_eq := rfl
  level_eq := rfl
  mask_eq := rfl
  format p hp := by
    obtain ⟨k, hk⟩ := (colours_format d.version (2 ^ formatLength - 1)).exists_colour hp
    obtain rfl := dark_of_mem_formatColours hk
    exact showsFormat_payload d bits p _ hk
  version hseven block hblock := by
    refine map_eq_map_of_zip ?_ fun e he => ?_
    · rw [BitString.length_bitsOf]
      exact length_of_mem_versionBlocks hblock
    · exact get?_placed_version (mem_versionColours_of_block (decide_eq_true hseven) hblock he)
  payload k hk hb := by
    have hle := le_length_padded d.reserve.freePlaces.length bits
    rw [get?_placed_free hk (by omega)]
    unfold padded
    rw [List.getElem_append_left hb]
  remainder k hk hb := by
    have hle := le_length_padded d.reserve.freePlaces.length bits
    rw [get?_placed_free hk (by omega)]
    unfold padded
    rw [List.getElem_append_right hb, List.getElem_replicate]
    rfl
  others p hformat hversion hfree :=
    (get?_placeBits_of_notMem (nodup_freePlaces _) hfree).trans (get?_reserve_of_notMem hformat hversion)

/-- **Placing a payload on any draft**, whatever its cells and its mask.  The walk along the
path visits every place outside the timing column exactly once, and no place in it.  A payload
succeeds exactly when the free places have room for it, and is reported incomplete otherwise;
in both cases it fills the free places in the order of the walk and leaves the draft `Placed`,
as placing its bits one at a time does. -/
theorem placePayload_placed (d : Draft) (bits : List Bool) :
    (∀ k, Zigzag.walk d.width k (Zigzag.start d.width) =
      ((Zigzag.path d.width).take k).map Zigzag.signed) ∧
    (Zigzag.path d.width).Nodup ∧
    (∀ p : Nat × Nat, p ∈ Zigzag.path d.width ↔ p.1 < d.width ∧ p.2 < d.width ∧ p.2 ≠ 6) ∧
    placePayload bits d = placeStepwise bits d ∧
    ∃ d', d.Placed bits d' ∧ placePayload bits d =
      if bits.length ≤ d.reserve.freePlaces.length then .ok (d.reserve.freePlaces.length - bits.length) d'
      else .error .incompleteSymbol d' := by
  have hw := d.version.width_bounds.1
  exact ⟨Zigzag.walk_eq_take d.version.width_odd (Nat.le_trans (by decide) hw), d.version.nodup_path,
    fun p => Version.mem_path, (placeStepwise_eq bits d).symm,
    d.reserve.placeBits d.reserve.freePlaces bits, placed d bits, rfl⟩

end Draft
end QRCode
